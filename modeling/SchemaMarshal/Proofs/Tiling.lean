import Mathlib.Control.Monad.Basic
import SchemaMarshal.Proofs.Gaps
import SchemaMarshal.Proofs.Lexemes

/-! Tokens cover their text without overlap, and stand where their letters do.

`Cursor.Step` says what one pull can do, `Cursor.Reads` what pulls through the end do, and `Tiled` what a
run of pulls has read so far: a gap and a lexeme for each token. A fault stands in front of text no part
of which can be read.
-/

set_option autoImplicit false

namespace SchemaMarshal

namespace Position

/-- The position behind a text: one line for each line feed, and one column for each character since
the last of them. -/
def behind (text : List Char) : Position :=
  ⟨1 + text.count '\n', 1 + (text.reverse.takeWhile (· ≠ '\n')).length⟩

theorem advance_behind (text : List Char) (c : Char) : (behind text).advance c = behind (text ++ [c]) := by
  unfold advance behind
  split
  · rename_i feed
    simp [feed, Nat.add_assoc]
  · rename_i other
    simp [other, Nat.add_assoc]

theorem after_behind (before text : List Char) : (behind before).after text = behind (before ++ text) := by
  induction text generalizing before with
  | nil => simp
  | cons c text ih => rw [after_cons, advance_behind, ih, List.append_assoc, List.singleton_append]

end Position

/-- No part of the text can be read, wherever it is cut off. -/
def Stuck (text : List Char) : Prop :=
  ∀ part, part ≠ [] → part <+: text → ∀ tokens, tokenize (String.ofList part) ≠ .ok tokens

namespace Cursor

/-- What a pull can do: reach the end, pass a gap and take a lexeme, or pass a gap and be stuck. -/
inductive Step : Cursor → Pull × Cursor → Prop where
  | finished {position : Position} {text : List Char} (after : Cursor) : Trivia.Closing text →
      Step ⟨position, text⟩ (.finished, after)
  | token {gap inner rest : List Char} {head : Char} {kind : Token.Kind} (position : Position) : Trivia.Gap gap →
      (∀ other, Lexeme.Replaces other rest → Lexeme.scan head (inner ++ other) = .token kind (head :: inner) other) →
      Step ⟨position, gap ++ head :: (inner ++ rest)⟩
        (.token ⟨kind, position.after gap⟩, ⟨(position.after gap).after (head :: inner), rest⟩)
  | fault {gap rest : List Char} {cause : Lexeme.Fault} (position : Position) (after : Cursor) : Trivia.Gap gap →
      cause.Opens rest → Stuck rest → Step ⟨position, gap ++ rest⟩ (.fault (position.after gap) cause, after)

theorem next_gap {gap : List Char} (isGap : Trivia.Gap gap) (position : Position) (rest : List Char) :
    next ⟨position, gap ++ rest⟩ = next ⟨position.after gap, rest⟩ := by
  simp only [next, Trivia.skip_gap isGap]

theorem next_lexeme {head : Char} {tail lexeme rest : List Char} {kind : Token.Kind}
    (scanned : Lexeme.scan head tail = .token kind lexeme rest) (position : Position) :
    next ⟨position, head :: tail⟩ = (.token ⟨kind, position⟩, ⟨position.after lexeme, rest⟩) := by
  obtain ⟨solid, slash⟩ := Lexeme.solid_of_scan scanned
  simp only [next, skip_solid solid slash, scanned]

theorem next_openLine {body : List Char} (single : '\n' ∉ body) (position : Position) :
    next ⟨position, '/' :: '/' :: body⟩ = (.finished, ⟨position.after ('/' :: '/' :: body), []⟩) := by
  simp only [next, Trivia.skip_openLine single]

theorem next_openBlock {body : List Char} (inside : ¬ ['*', '/'] <:+: body) (position : Position) :
    next ⟨position, '/' :: '*' :: body⟩ = (.fault position .openComment, ⟨position.after ('/' :: '*' :: body), []⟩) := by
  simp only [next, Trivia.skip_openBlock inside]

theorem next_fault {head : Char} {tail spoiled rest : List Char} {cause : Lexeme.Fault}
    (solid : Text.isBlank head = false) (line : ¬ ['/', '/'] <+: head :: tail) (block : ¬ ['/', '*'] <+: head :: tail)
    (scanned : Lexeme.scan head tail = .fault cause spoiled rest) (position : Position) :
    next ⟨position, head :: tail⟩ = (.fault position cause, ⟨position.after spoiled, rest⟩) := by
  simp only [next, Trivia.skip_of_solid solid line block, scanned]

theorem tokens_ne_ok {cursor after : Cursor} {position : Position} {cause : Lexeme.Fault}
    (pulled : cursor.next = (.fault position cause, after)) (tokens : List Token) : cursor.tokens ≠ .ok tokens := by
  rw [tokens_eq, pulled]
  nofun

theorem stuck_of_openBlock {body : List Char} (inside : ¬ ['*', '/'] <:+: body) : Stuck ('/' :: '*' :: body) := by
  intro part present front tokens
  rw [tokenize, ofText, String.toList_ofList]
  -- The slash alone is unexpected; with its star it opens the comment.
  cases part with
  | nil => exact absurd rfl present
  | cons slash part =>
    obtain ⟨rfl, afterSlash⟩ := List.cons_prefix_cons.mp front
    cases part with
    | nil => exact tokens_ne_ok (by rfl) tokens
    | cons star part =>
      obtain ⟨rfl, afterStar⟩ := List.cons_prefix_cons.mp afterSlash
      have stillOpen : ¬ ['*', '/'] <:+: part := fun closed => inside (closed.trans afterStar.isInfix)
      exact tokens_ne_ok (next_openBlock stillOpen .start) tokens

theorem stuck_of_scan {head : Char} {tail spoiled rest : List Char} {cause : Lexeme.Fault}
    (solid : Text.isBlank head = false) (line : ¬ ['/', '/'] <+: head :: tail) (block : ¬ ['/', '*'] <+: head :: tail)
    (scanned : Lexeme.scan head tail = .fault cause spoiled rest) : Stuck (head :: tail) := by
  intro part present front tokens
  rw [tokenize, ofText, String.toList_ofList]
  cases part with
  | nil => exact absurd rfl present
  | cons first inner =>
    obtain ⟨rfl, more, rfl⟩ := List.cons_prefix_cons.mp front
    obtain ⟨cause, spoiled, rest, faulty⟩ := Lexeme.scan_fault_of_append scanned
    have pulled := next_fault solid (fun comment => line (comment.trans front))
      (fun comment => block (comment.trans front)) faulty .start
    exact tokens_ne_ok pulled tokens

theorem next_step (cursor : Cursor) : Step cursor cursor.next := by
  obtain ⟨position, text⟩ := cursor
  obtain ⟨gap, rest, rfl, isGap, stop⟩ := Trivia.exists_gap text
  rw [next_gap isGap]
  cases stop with
  | ended => exact .finished _ (Or.inl (by simpa using isGap))
  | openLine single =>
    rw [next_openLine single]
    exact .finished _ (Or.inr ⟨gap, _, isGap, single, rfl⟩)
  | openBlock inside =>
    rw [next_openBlock inside]
    exact .fault position _ isGap ⟨_, rfl⟩ (stuck_of_openBlock inside)
  | @solid head tail solid line block =>
    cases scanned : Lexeme.scan head tail with
    | token kind lexeme rest =>
      obtain ⟨inner, rfl, rfl, kept⟩ := Lexeme.scan_takes scanned
      rw [next_lexeme scanned]
      exact .token position isGap kept
    | fault cause spoiled rest =>
      rw [next_fault solid line block scanned]
      exact .fault position _ isGap (Lexeme.opens_of_scan scanned) (stuck_of_scan solid line block scanned)

/-- Pulls through the end of a text: a gap and a lexeme for each token, and trivia behind them. -/
inductive Reads : Cursor → List Token → Prop where
  | finished {text : List Char} (position : Position) : Trivia.Closing text → Reads ⟨position, text⟩ []
  | token {gap inner rest : List Char} {head : Char} {kind : Token.Kind} {tokens : List Token} (position : Position) :
      Trivia.Gap gap →
      (∀ other, Lexeme.Replaces other rest → Lexeme.scan head (inner ++ other) = .token kind (head :: inner) other) →
      Reads ⟨(position.after gap).after (head :: inner), rest⟩ tokens →
      Reads ⟨position, gap ++ head :: (inner ++ rest)⟩ (⟨kind, position.after gap⟩ :: tokens)

theorem reads_of_tokens {cursor : Cursor} {tokens : List Token} (read : cursor.tokens = .ok tokens) :
    Reads cursor tokens := by
  fun_induction Cursor.tokens cursor generalizing tokens with
  | case1 cursor after pulled =>
    cases read
    have step := cursor.next_step
    rw [pulled] at step
    cases step with
    | finished _ closing => exact .finished _ closing
  | case2 => cases read
  | case3 cursor token after pulled _ later continued ih =>
    cases read
    have step := cursor.next_step
    rw [pulled] at step
    cases step with
    | token position isGap kept => exact .token position isGap kept (ih continued)
  | case4 => cases read

end Cursor

/-- The text is a gap and a lexeme for each of the tokens in turn. A lexeme alone is read as a token
of the same kind, and its token stands behind all that comes before it. -/
inductive Tiled : List Char → List Token → Prop where
  | nil : Tiled [] []
  | snoc {before gap lexeme : List Char} {tokens : List Token} {token : Token} : Tiled before tokens →
      Trivia.Gap gap → lexeme ≠ [] → tokenize (String.ofList lexeme) = .ok [⟨token.kind, .start⟩] →
      token.position = .behind (before ++ gap) → Tiled (before ++ gap ++ lexeme) (tokens ++ [token])

theorem tokenize_lexeme {head : Char} {inner : List Char} {kind : Token.Kind}
    (scanned : Lexeme.scan head inner = .token kind (head :: inner) []) :
    tokenize (String.ofList (head :: inner)) = .ok [⟨kind, .start⟩] := by
  have ended : ∀ position, Cursor.tokens ⟨position, []⟩ = .ok [] := by
    intro position
    rw [Cursor.tokens_eq]
    rfl
  rw [tokenize, Cursor.ofText, String.toList_ofList, Cursor.tokens_eq, Cursor.next_lexeme scanned]
  simp only [ended]

theorem Tiled.pull {before : List Char} {earlier : List Token} (tiled : Tiled before earlier) {cursor after : Cursor}
    {token : Token} (placed : cursor.position = .behind before) (pulled : cursor.next = (.token token, after)) :
    ∃ tile, cursor.rest = tile ++ after.rest ∧ Tiled (before ++ tile) (earlier ++ [token]) ∧
      after.position = .behind (before ++ tile) := by
  have step := cursor.next_step
  rw [pulled] at step
  cases step with
  | @token gap inner rest head kind position isGap kept =>
    subst placed
    have alone := kept [] (.nil rest)
    rw [List.append_nil] at alone
    rw [Position.after_behind, Position.after_behind, List.append_assoc before gap]
    refine ⟨gap ++ head :: inner, by simp, ?_, rfl⟩
    rw [← List.append_assoc]
    exact tiled.snoc isGap (by simp) (tokenize_lexeme alone) rfl

theorem Tiled.tokens {before : List Char} {earlier : List Token} (tiled : Tiled before earlier) {cursor : Cursor}
    (placed : cursor.position = .behind before) {tokens : List Token} (read : cursor.tokens = .ok tokens) :
    ∃ middle last, cursor.rest = middle ++ last ∧ Tiled (before ++ middle) (earlier ++ tokens) ∧
      Trivia.Closing last := by
  fun_induction Cursor.tokens cursor generalizing before earlier tokens with
  | case1 cursor after pulled =>
    cases read
    have step := cursor.next_step
    rw [pulled] at step
    cases step with
    | finished _ closing => exact ⟨[], _, rfl, by simpa using tiled, closing⟩
  | case2 => cases read
  | case3 cursor token after pulled _ later continued ih =>
    cases read
    obtain ⟨tile, split, tiled, placed⟩ := tiled.pull placed pulled
    obtain ⟨middle, last, rest, tiled, closing⟩ := ih tiled placed continued
    refine ⟨tile ++ middle, last, by rw [split, rest, List.append_assoc], ?_, closing⟩
    simpa using tiled
  | case4 => cases read

theorem Tiled.fault {before : List Char} {earlier : List Token} (tiled : Tiled before earlier) {cursor : Cursor}
    (placed : cursor.position = .behind before) {error : LexicalError} (failed : cursor.tokens = .error error) :
    ∃ middle gap rest tokens, cursor.rest = middle ++ gap ++ rest ∧ Tiled (before ++ middle) (earlier ++ tokens) ∧
      Trivia.Gap gap ∧ error.position = .behind (before ++ middle ++ gap) ∧ error.cause.Opens rest ∧ Stuck rest ∧
      cursor.pulls (tokens.length + 1) = tokens.map .token ++ [.fault error.position error.cause] := by
  fun_induction Cursor.tokens cursor generalizing before earlier error with
  | case1 => cases failed
  | case2 cursor position cause after pulled =>
    cases failed
    have step := cursor.next_step
    rw [pulled] at step
    cases step with
    | fault position _ isGap opens stuck =>
      subst placed
      refine ⟨[], _, _, [], rfl, by simpa using tiled, isGap, ?_, opens, stuck, ?_⟩
      · rw [Position.after_behind, List.append_nil]
      · simp [Cursor.pulls, pulled]
  | case3 => cases failed
  | case4 cursor token after pulled _ other continued ih =>
    cases failed
    obtain ⟨tile, split, tiled, placed⟩ := tiled.pull placed pulled
    obtain ⟨middle, gap, rest, tokens, remaining, tiled, isGap, position, opens, stuck, pulls⟩ := ih tiled placed continued
    refine ⟨tile ++ middle, gap, rest, token :: tokens, by simp [split, remaining], by simpa using tiled, isGap,
      by simpa using position, opens, stuck, ?_⟩
    rw [List.length_cons, Cursor.pulls, pulled]
    simp [pulls]

/-- A text that is read consists of gaps and lexemes in turn, one lexeme for each token. A text that
is not read does so up to the fault, which stands behind what was read and at the first character of
something that no part of the text completes. -/
theorem tokenize_tiles (text : String) :
    (∀ tokens, tokenize text = .ok tokens →
      ∃ before last, text.toList = before ++ last ∧ Tiled before tokens ∧ Trivia.Closing last) ∧
    (∀ error, tokenize text = .error error →
      ∃ before gap rest tokens, text.toList = before ++ gap ++ rest ∧ Tiled before tokens ∧ Trivia.Gap gap ∧
        error.position = .behind (before ++ gap) ∧ error.cause.Opens rest ∧ Stuck rest ∧
        (Cursor.ofText text).pulls (tokens.length + 1) =
          tokens.map .token ++ [.fault error.position error.cause]) := by
  constructor
  · intro tokens read
    obtain ⟨before, last, split, tiled, closing⟩ := Tiled.nil.tokens rfl read
    exact ⟨before, last, split, by simpa using tiled, closing⟩
  · intro error failed
    obtain ⟨before, gap, rest, tokens, split, tiled, isGap, position, opens, stuck, pulls⟩ := Tiled.nil.fault rfl failed
    exact ⟨before, gap, rest, tokens, split, by simpa using tiled, isGap, by simpa using position, opens, stuck, pulls⟩

/-- The comment hides a line feed, and the literal is still open at the end. -/
theorem tokenize_tiles_open :
    let text := "ab/*\n*/1. 'c"
    tokenize text = .error ⟨⟨2, 6⟩, .openString⟩ ∧
      ∃ before gap rest tokens, text.toList = before ++ gap ++ rest ∧ Tiled before tokens ∧ Trivia.Gap gap ∧
        ⟨2, 6⟩ = Position.behind (before ++ gap) ∧ Lexeme.Fault.openString.Opens rest ∧ Stuck rest ∧
        (Cursor.ofText text).pulls (tokens.length + 1) = tokens.map .token ++ [.fault ⟨2, 6⟩ .openString] := by
  intro text
  have failed : tokenize text = .error ⟨⟨2, 6⟩, .openString⟩ := by decide +kernel
  exact ⟨failed, (tokenize_tiles text).2 _ failed⟩

end SchemaMarshal
