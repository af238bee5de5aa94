import SchemaMarshal.Proofs.Concatenation

/-! One item at any place of a file.

A `Frame` is a file with a place left free among the items of a declaration. What is read at that place
decides about the file: an item joins the others, a failure is the failure of the whole.
-/

set_option autoImplicit false

namespace SchemaMarshal

namespace Parser

variable {α : Type}

theorem identifier_cons {token : Token} {text : String} (isText : token.kind = .identifier text)
    (expected : Expectation) (rest : List Token) : identifier expected (token :: rest) = .ok (text, rest) := by
  rw [identifier, next_bind_cons, isText]
  rfl

theorem symbol_cons {token : Token} {character : Char} (isSymbol : token.kind = .symbol character)
    (rest : List Token) : symbol character (token :: rest) = .ok ((), rest) := by
  have found : token.isSymbol character = true := decide_eq_true isSymbol
  rw [symbol, next_bind_cons, found]
  rfl

theorem Local.read_of_reads {reader other : Parser α} (tame : Local reader other) {own after : List Token} {value : α}
    (reads : reader.Reads (own.map (·.kind) ++ after.map (·.kind)) value (after.map (·.kind))) :
    reader (own ++ after) = .ok (value, after) := by
  obtain ⟨rest, sameRest, read⟩ := reads (List.map_append ..)
  obtain ⟨taken, split, -⟩ := tame read
  have lengths : after.length = rest.length := by simpa using congrArg List.length sameRest.symm
  rw [(List.append_inj' split lengths).2] at read ⊢
  exact read

/-- Items that were read up to a closing brace are read again before anything else. -/
theorem block_append {item : Parser α} {advances : item.Advances} (firm : Firm item item) {before : List Token}
    {close : Token} {firsts : List α} (read : block item advances (before ++ [close]) = .ok (firsts, []))
    (more : List Token) :
    block item advances (before ++ more) = (block item advances more).map (Prod.map (firsts ++ ·) id) := by
  generalize whole : before ++ [close] = tokens at read
  fun_induction block item advances tokens generalizing before firsts with
  | case1 | case3 | case5 => cases read
  | case2 head tail closes =>
    cases read
    obtain rfl : before = [] := by simpa using congrArg List.length whole
    rw [List.nil_append]
    cases block item advances more <;> rfl
  | case4 head tail inside first rest parsed _ items left continued ih =>
    cases read
    rw [Bool.not_eq_true] at inside
    obtain ⟨taken, present, split, repeats⟩ := firm parsed
    -- The closing brace is still to come, so the item takes its tokens from before it.
    rcases List.eq_nil_or_concat' rest with rfl | ⟨behind, last, rfl⟩
    · rw [block] at continued
      cases continued
    · rw [split, ← List.append_assoc] at whole
      obtain ⟨rfl, same⟩ := List.append_inj' whole rfl
      obtain ⟨opening, inner, rfl⟩ := List.exists_cons_of_ne_nil present
      rw [List.head_eq_of_cons_eq split] at inside
      have reread : item (opening :: (inner ++ (behind ++ more))) = .ok (first, behind ++ more) :=
        repeats (behind ++ more) rfl
      rw [List.append_assoc, List.cons_append, block_of_item inside reread, ih (by rw [same]) continued]
      cases block item advances more <;> rfl

/-- How a keyword begins a declaration: a name and a block follow it. -/
structure Declares (keyword : String) (item : Parser α) (advances : item.Advances)
    (make : String → List α → Statement) : Prop where
  firm : Firm item item
  opened : ∀ ⦃name : String⦄ ⦃opening : List Token⦄,
    opening.map (·.kind) = [.identifier keyword, .identifier name, .symbol '\x7b'] → ∀ packageSeen tokens,
    statement packageSeen (opening ++ tokens) =
      (do let items ← block item advances; pure (make name items) : Parser Statement) tokens
  isPackage : ∀ name items, (make name items).isPackage = false

theorem opened_of_begins {keyword : String} {expected : Expectation} {item : Parser α} {advances : item.Advances}
    {make : String → List α → Statement}
    (begins : ∀ (packageSeen : Bool) ⦃token : Token⦄, token.kind = .identifier keyword → ∀ tokens,
      statement packageSeen (token :: tokens) =
        (do
          let name ← identifier expected
          symbol '\x7b'
          let items ← block item advances
          pure (make name items) : Parser Statement) tokens)
    {name : String} {opening : List Token}
    (opens : opening.map (·.kind) = [.identifier keyword, .identifier name, .symbol '\x7b']) (packageSeen : Bool)
    (tokens : List Token) :
    statement packageSeen (opening ++ tokens) =
      (do let items ← block item advances; pure (make name items) : Parser Statement) tokens := by
  obtain ⟨word, rest, rfl, isKeyword, opens⟩ := cons_of_kinds opens
  obtain ⟨named, rest, rfl, isName, opens⟩ := cons_of_kinds opens
  obtain ⟨brace, rest, rfl, isBrace, opens⟩ := cons_of_kinds opens
  obtain rfl := List.map_eq_nil_iff.mp opens
  rw [List.cons_append, begins packageSeen isKeyword]
  exact (bind_of_ok (identifier_cons isName _ _) _).trans (bind_of_ok (symbol_cons isBrace _) _)

theorem declares_message : Declares "message" messageItem advances_messageItem .message where
  firm := firm_messageItem
  opened _ _ := opened_of_begins fun packageSeen token isKeyword tokens => by
    rw [statement, next_bind_cons, isKeyword]
    rfl
  isPackage _ _ := rfl

theorem declares_enumeration : Declares "enum" enumItem advances_enumItem .enumeration where
  firm := firm_enumItem
  opened _ _ := opened_of_begins fun packageSeen token isKeyword tokens => by
    rw [statement, next_bind_cons, isKeyword]
    rfl
  isPackage _ _ := rfl

/-- A file with a place left free among the items of one declaration: the statements `above` it, the items
`before` the place, and what comes `after`, which goes through the closing brace to the statements `below`. -/
structure Frame (keyword : String) (item : Parser α) (advances : item.Advances) where
  above : List Token
  earlier : List Statement
  opening : List Token
  name : String
  before : List Token
  firsts : List α
  after : List Token
  lasts : List α
  below : List Token
  later : List Statement
  readAbove : statements false above = .ok earlier
  opens : opening.map (·.kind) = [.identifier keyword, .identifier name, .symbol '\x7b']
  readBefore : block item advances (before ++ [⟨.symbol '\x7d', .start⟩]) = .ok (firsts, [])
  readAfter : block item advances after = .ok (lasts, below)
  readBelow : statements (earlier.any (·.isPackage)) below = .ok later

abbrev MessageFrame := Frame "message" messageItem advances_messageItem

abbrev EnumFrame := Frame "enum" enumItem advances_enumItem

namespace Frame

variable {keyword : String} {item : Parser α} {advances : item.Advances} {make : String → List α → Statement}

def alone (name : String) : Frame keyword item advances where
  above := []
  earlier := []
  opening := [.identifier keyword, .identifier name, .symbol '\x7b'].map (⟨·, .start⟩)
  name := name
  before := []
  firsts := []
  after := [⟨.symbol '\x7d', .start⟩]
  lasts := []
  below := []
  later := []
  readAbove := by rw [statements]
  opens := rfl
  readBefore := by rw [List.nil_append, block]; rfl
  readAfter := by rw [block]; rfl
  readBelow := by rw [statements]

/-- The tokens of the file with `own` at the free place. -/
def plug (frame : Frame keyword item advances) (own : List Token) : List Token :=
  frame.above ++ (frame.opening ++ (frame.before ++ (own ++ frame.after)))

/-- The statements of the file with `value` at the free place. -/
def fill (frame : Frame keyword item advances) (make : String → List α → Statement) (value : α) : List Statement :=
  frame.earlier ++ make frame.name (frame.firsts ++ value :: frame.lasts) :: frame.later

/-- What stands at the free place does not begin by closing the body. -/
def Fits (own : List Token) : Prop := ∃ head tail, own = head :: tail ∧ head.kind ≠ .symbol '\x7d'

theorem fits_of_kinds {own : List Token} {kinds : List Token.Kind} (written : own.map (·.kind) = kinds)
    (opens : ∃ kind, kinds.head? = some kind ∧ kind ≠ .symbol '\x7d') : Fits own := by
  obtain ⟨kind, opens, inside⟩ := opens
  cases own with
  | nil =>
    subst written
    cases opens
  | cons head tail =>
    subst written
    cases opens
    exact ⟨head, tail, rfl, inside⟩

variable (frame : Frame keyword item advances) (declares : Declares keyword item advances make) {own : List Token}
  (fits : Fits own)

include declares fits

theorem statement_plug {value : α} (read : item (own ++ frame.after) = .ok (value, frame.after)) (packageSeen : Bool) :
    statement packageSeen (frame.opening ++ (frame.before ++ (own ++ frame.after))) =
      .ok (make frame.name (frame.firsts ++ value :: frame.lasts), frame.below) := by
  obtain ⟨head, tail, rfl, inside⟩ := fits
  have blockRead : block item advances (frame.before ++ (head :: tail ++ frame.after)) =
      .ok (frame.firsts ++ value :: frame.lasts, frame.below) := by
    rw [List.cons_append] at read ⊢
    rw [block_append declares.firm frame.readBefore, block_cons inside read frame.readAfter]
    rfl
  rw [declares.opened frame.opens, bind_of_ok blockRead]
  rfl

theorem statement_plug_error {failure : Failure} (failed : item (own ++ frame.after) = .error failure)
    (packageSeen : Bool) :
    statement packageSeen (frame.opening ++ (frame.before ++ (own ++ frame.after))) = .error failure := by
  obtain ⟨head, tail, rfl, inside⟩ := fits
  have other : head.isSymbol '\x7d' = false := decide_eq_false inside
  have blockFailed : block item advances (frame.before ++ (head :: tail ++ frame.after)) = .error failure := by
    rw [List.cons_append] at failed ⊢
    rw [block_append declares.firm frame.readBefore, block_of_item_error other failed]
    rfl
  rw [declares.opened frame.opens, bind_of_error blockFailed]

theorem ofTokens_plug (identifier : Identifier) {value : α}
    (read : item (own ++ frame.after) = .ok (value, frame.after)) :
    SchemaFile.ofTokens identifier (frame.plug own) = .ok (.ofStatements identifier (frame.fill make value)) := by
  have stated := frame.statement_plug declares fits read (frame.earlier.any (·.isPackage))
  rw [SchemaFile.ofTokens, plug, statements_append frame.readAbove rfl, Bool.false_or, statements_of_statement stated,
    declares.isPackage, Bool.or_false, frame.readBelow]
  rfl

theorem ofTokens_plug_error (identifier : Identifier) {failure : Failure}
    (failed : item (own ++ frame.after) = .error failure) :
    SchemaFile.ofTokens identifier (frame.plug own) = .error (failure.inSource identifier) := by
  have stated := frame.statement_plug_error declares fits failed (frame.earlier.any (·.isPackage))
  obtain ⟨first, rest, opening, -, -⟩ := cons_of_kinds frame.opens
  rw [opening, List.cons_append] at stated
  rw [SchemaFile.ofTokens, plug, statements_append frame.readAbove rfl, Bool.false_or, opening, List.cons_append,
    statements_of_statement_error stated]
  rfl

end Frame

end Parser

end SchemaMarshal
