import SchemaMarshal.Text.Blank
import SchemaMarshal.Token.Basic

/-! Blank characters and comments between tokens.

A `//` comment runs through the end of its line; a comment opened by a slash and a star runs
through the first star and slash after them. Comments do not nest.
-/

set_option autoImplicit false

namespace SchemaMarshal.Trivia

/-- What the characters at hand belong to. An open block comment remembers where it began. -/
inductive Mode where
  | between
  | line
  | block (start : Position)
  deriving DecidableEq, Repr

inductive Skipped where
  /-- All trivia is passed; `rest` is empty or starts with something else. -/
  | clear (position : Position) (rest : List Char)
  /-- The input ends at `position`, inside the block comment that began at `start`. -/
  | openComment (start position : Position)
  deriving DecidableEq, Repr

def skip : Mode → Position → List Char → Skipped
  | .block start, position, [] => .openComment start position
  | .block _, position, '*' :: '/' :: rest => skip .between (position.after ['*', '/']) rest
  | .block start, position, c :: rest => skip (.block start) (position.advance c) rest
  | .line, position, [] => .clear position []
  | .line, position, c :: rest =>
      skip (if c = '\n' then .between else .line) (position.advance c) rest
  | .between, position, [] => .clear position []
  | .between, position, '/' :: '/' :: rest => skip .line (position.after ['/', '/']) rest
  | .between, position, '/' :: '*' :: rest => skip (.block position) (position.after ['/', '*']) rest
  | .between, position, c :: rest =>
      if Text.isBlank c then skip .between (position.advance c) rest else .clear position (c :: rest)

theorem skip_length_le {mode : Mode} {position reached : Position} {input rest : List Char}
    (skipped : skip mode position input = .clear reached rest) : rest.length ≤ input.length := by
  fun_induction skip mode position input with
  | case1 => cases skipped
  | case4 => cases skipped; exact Nat.le_refl _
  | case6 => cases skipped; exact Nat.le_refl _
  | case10 => cases skipped; exact Nat.le_refl _
  | case2 _ _ _ ih | case3 _ _ _ _ _ ih | case5 _ _ _ ih | case7 _ _ ih | case8 _ _ ih | case9 _ _ _ _ _ _ ih =>
    have := ih skipped
    simp only [List.length_cons]
    omega

end SchemaMarshal.Trivia
