import SchemaMarshal.Token.Lexeme
import SchemaMarshal.Token.Trivia

/-! Reading schema text token by token.

A cursor is the unread text and its position. `Cursor.next` can be called again after a fault and
after the end; `Cursor.tokens` reads everything and stops at the first fault.
-/

set_option autoImplicit false

namespace SchemaMarshal

structure Cursor where
  position : Position
  rest : List Char
  deriving DecidableEq, Repr

inductive Cursor.Pull where
  | token (token : Token)
  | finished
  | fault (position : Position) (cause : Lexeme.Fault)
  deriving DecidableEq, Repr

structure LexicalError where
  position : Position
  cause : Lexeme.Fault
  deriving DecidableEq, Repr

namespace Cursor

def ofText (text : String) : Cursor := ⟨.start, text.toList⟩

def next (cursor : Cursor) : Pull × Cursor :=
  match Trivia.skip .between cursor.position cursor.rest with
  | .openComment start position => (.fault start .openComment, ⟨position, []⟩)
  | .clear position [] => (.finished, ⟨position, []⟩)
  | .clear position (head :: tail) =>
      match Lexeme.scan head tail with
      | .token kind lexeme rest => (.token ⟨kind, position⟩, ⟨position.after lexeme, rest⟩)
      | .fault cause spoiled rest => (.fault position cause, ⟨position.after spoiled, rest⟩)

/-- The results of calling `next` `count` times. -/
def pulls : Nat → Cursor → List Pull
  | 0, _ => []
  | count + 1, cursor => cursor.next.1 :: pulls count cursor.next.2

theorem next_token_length_lt {cursor after : Cursor} {token : Token}
    (pulled : cursor.next = (.token token, after)) : after.rest.length < cursor.rest.length := by
  unfold next at pulled
  split at pulled
  · cases pulled
  · cases pulled
  · rename_i position head tail skipped
    split at pulled
    · rename_i kind lexeme rest scanned
      cases pulled
      exact Nat.lt_of_lt_of_le (Lexeme.scan_length_lt scanned) (Trivia.skip_length_le skipped)
    · cases pulled

def tokens (cursor : Cursor) : Except LexicalError (List Token) :=
  match pulled : cursor.next with
  | (.finished, _) => .ok []
  | (.fault position cause, _) => .error ⟨position, cause⟩
  | (.token token, after) =>
      have := next_token_length_lt pulled
      match after.tokens with
      | .ok tokens => .ok (token :: tokens)
      | .error error => .error error
termination_by cursor.rest.length
decreasing_by exact this

end Cursor

def tokenize (text : String) : Except LexicalError (List Token) :=
  (Cursor.ofText text).tokens

end SchemaMarshal
