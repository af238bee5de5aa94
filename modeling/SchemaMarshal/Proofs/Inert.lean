import Mathlib.Data.List.Infix
import SchemaMarshal.Proofs.Reading

/-! Syntax that is passed over declares nothing.

`WrittenAs` says which tokens a file may be written with: those it is printed with and, wherever a
statement may stand, semicolons and reservations, and a group in brackets behind any number. All of them
are read as the same file. Skipping is done by two loops; each is shown to stop where the construct ends
and nowhere else.
-/

set_option autoImplicit false

namespace SchemaMarshal

namespace Inert

/-- How many more brackets are opened than closed. -/
def depth (kinds : List Token.Kind) : Int := kinds.count (.symbol '[') - kinds.count (.symbol ']')

/-- A group in brackets: they balance, and only its last token closes the first one. -/
structure Bracketed (kinds : List Token.Kind) : Prop where
  opens : kinds.head? = some (.symbol '[')
  balanced : depth kinds = 0
  inside : ∀ front, front <+: kinds → front ≠ [] → front ≠ kinds → 0 < depth front

theorem bracketed_iff {kinds : List Token.Kind} :
    Bracketed kinds ↔ kinds.head? = some (.symbol '[') ∧ depth kinds = 0 ∧
      ∀ front ∈ kinds.inits, front ≠ [] → front ≠ kinds → 0 < depth front := by
  simp only [List.mem_inits]
  exact ⟨fun bracketed => ⟨bracketed.opens, bracketed.balanced, bracketed.inside⟩,
    fun ⟨opens, balanced, inside⟩ => ⟨opens, balanced, inside⟩⟩

instance : DecidablePred Bracketed := fun _ => decidable_of_iff _ bracketed_iff.symm

def Attributes (kinds : List Token.Kind) : Prop := kinds = [] ∨ Bracketed kinds

/-- A semicolon, or a word of `keywords` with any tokens up to the next semicolon. -/
inductive Idle (keywords : List String) : List Token.Kind → Prop where
  | semicolon : Idle keywords [.symbol ';']
  | skipped {keyword : String} {inner : List Token.Kind} (listed : keyword ∈ keywords)
      (unended : ∀ kind ∈ inner, kind ≠ .symbol ';') : Idle keywords (.identifier keyword :: (inner ++ [.symbol ';']))

/-- The items in turn, each as `writes` has it, and any number of idle pieces before, between and
behind them. -/
inductive Padded {α : Type} (idle : List Token.Kind → Prop) (writes : α → List Token.Kind → Prop) :
    List α → List Token.Kind → Prop where
  | nil : Padded idle writes [] []
  | pad {piece kinds : List Token.Kind} {items : List α} (passed : idle piece) (later : Padded idle writes items kinds) :
      Padded idle writes items (piece ++ kinds)
  | item {own kinds : List Token.Kind} {first : α} {items : List α} (written : writes first own)
      (later : Padded idle writes items kinds) : Padded idle writes (first :: items) (own ++ kinds)

theorem padded_flatMap {α : Type} {idle : List Token.Kind → Prop} {writes : α → List Token.Kind → Prop}
    {kinds : α → List Token.Kind} {items : List α} (written : ∀ item ∈ items, writes item (kinds item)) :
    Padded idle writes items (items.flatMap kinds) := by
  induction items with
  | nil => exact .nil
  | cons first items ih =>
    rw [List.flatMap_cons]
    exact .item (written first (by simp)) (ih fun item member => written item (List.mem_cons_of_mem _ member))

end Inert

open Inert

namespace Parser

def MessageItem.WrittenAs : MessageItem → List Token.Kind → Prop
  | .field declared, kinds =>
      ∃ group, Attributes group ∧ kinds = declared.heading.flatMap Part.kinds ++ (group ++ [.symbol ';'])
  | item, kinds => kinds = item.parts.flatMap Part.kinds

def EnumItem.WrittenAs : EnumItem → List Token.Kind → Prop
  | .value declared, kinds =>
      ∃ group, Attributes group ∧ kinds = declared.heading.flatMap Part.kinds ++ (group ++ [.symbol ';'])
  | item, kinds => kinds = item.parts.flatMap Part.kinds

def Statement.WrittenAs : Statement → List Token.Kind → Prop
  | .message name items, kinds =>
      ∃ body, Padded (Idle ["reserved", "extensions"]) MessageItem.WrittenAs items body ∧
        kinds = .identifier "message" :: .identifier name :: .symbol '\x7b' :: (body ++ [.symbol '\x7d'])
  | .enumeration name items, kinds =>
      ∃ body, Padded (Idle ["reserved"]) EnumItem.WrittenAs items body ∧
        kinds = .identifier "enum" :: .identifier name :: .symbol '\x7b' :: (body ++ [.symbol '\x7d'])
  | statement, kinds => kinds = statement.parts.flatMap Part.kinds

theorem MessageItem.writtenAs_parts (item : MessageItem) : item.WrittenAs (item.parts.flatMap Part.kinds) := by
  cases item with
  | empty | setting _ => rfl
  | field declared => exact ⟨[], Or.inl rfl, by simp [parts, Field.parts]⟩

theorem EnumItem.writtenAs_parts (item : EnumItem) : item.WrittenAs (item.parts.flatMap Part.kinds) := by
  cases item with
  | empty | setting _ => rfl
  | value declared => exact ⟨[], Or.inl rfl, by simp [parts, EnumValue.parts]⟩

theorem Statement.writtenAs_parts {statement : Statement} (wellFormed : statement.WellFormed) :
    statement.WrittenAs (statement.parts.flatMap Part.kinds) := by
  cases statement with
  | empty | version _ | package _ | imported _ | setting _ => rfl
  | message name items =>
    exact ⟨_, padded_flatMap fun item _ => item.writtenAs_parts, Part.kinds_block (by decide) wellFormed.1 ..⟩
  | enumeration name items =>
    exact ⟨_, padded_flatMap fun item _ => item.writtenAs_parts, Part.kinds_block (by decide) wellFormed.1 ..⟩

end Parser

namespace SchemaFile

def WrittenAs (file : SchemaFile) (kinds : List Token.Kind) : Prop :=
  Padded (Idle []) Parser.Statement.WrittenAs file.statements kinds

theorem writtenAs_kinds {file : SchemaFile} (wellFormed : file.WellFormed) : file.WrittenAs file.kinds := by
  rw [kinds, parts, List.flatMap_assoc]
  exact padded_flatMap fun statement member => Parser.Statement.writtenAs_parts (wellFormed.statements statement member)

end SchemaFile

namespace Inert

def weight (kind : Token.Kind) : Int :=
  if kind = .symbol '[' then 1 else if kind = .symbol ']' then -1 else 0

theorem depth_cons (kind : Token.Kind) (kinds : List Token.Kind) : depth (kind :: kinds) = weight kind + depth kinds := by
  simp only [depth, weight, List.count_cons, beq_iff_eq]
  split
  · rename_i opening
    simp [opening]
    omega
  · split
    · push_cast
      omega
    · simp

end Inert

namespace Parser

-- The induction is on the tokens of the group, which by the bound on its fronts is open before each of them.
theorem reads_skipGroup {opened : Nat} {kinds : List Token.Kind} (closes : opened + 1 + depth kinds = 0)
    (inside : ∀ front, front <+: kinds → front ≠ kinds → 0 < opened + 1 + depth front) (after : List Token.Kind) :
    (skipGroup opened).Reads (kinds ++ after) () after := by
  induction kinds generalizing opened with
  | nil =>
    simp only [depth, List.count_nil] at closes
    omega
  | cons kind kinds ih =>
    rw [depth_cons] at closes
    have onwards : ∀ front, front <+: kinds → front ≠ kinds → 0 < opened + 1 + (weight kind + depth front) := by
      intro front short proper
      rw [← depth_cons]
      apply inside (kind :: front) ((List.prefix_cons_inj kind).mpr short)
      simpa using proper
    intro tokens same
    obtain ⟨token, rest, rfl, sameKind, sameRest⟩ := cons_of_kinds same
    have goesOn {next : Nat} (moved : next = opened + weight kind)
        (skips : skipGroup opened (token :: rest) = skipGroup next rest) :
        ∃ left, left.map (·.kind) = after ∧ skipGroup opened (token :: rest) = .ok ((), left) := by
      rw [skips]
      refine ih (by omega) (fun front short proper => ?_) sameRest
      have := onwards front short proper
      omega
    by_cases opening : kind = .symbol '['
    · refine @goesOn (opened + 1) (by simp [weight, opening]) ?_
      simp [skipGroup, Token.isSymbol, sameKind, opening]
    by_cases closing : kind = .symbol ']'
    · cases opened with
      | zero =>
        -- Closed here, the group has no more tokens.
        have last : kinds = [] := by
          by_contra more
          have := onwards [] List.nil_prefix (Ne.symm more)
          simp [weight, depth, closing] at this
        subst last
        exact ⟨rest, sameRest, by simp [skipGroup, Token.isSymbol, sameKind, closing]⟩
      | succ opened =>
        have lighter : weight kind = -1 := by simp [weight, closing]
        refine @goesOn opened (by omega) ?_
        simp [skipGroup, Token.isSymbol, sameKind, closing]
    · refine @goesOn opened (by simp [weight, opening, closing]) ?_
      simp [skipGroup, Token.isSymbol, sameKind, opening, closing]

theorem reads_attributes_bracketed {kinds : List Token.Kind} (bracketed : Bracketed kinds) (after : List Token.Kind) :
    attributes.Reads (kinds ++ after) () after := by
  obtain ⟨inner, rfl⟩ := List.head?_eq_some_iff.mp bracketed.opens
  have balanced := bracketed.balanced
  rw [depth_cons] at balanced
  refine (reads_skipSymbol '[' _).bind (reads_skipGroup ?_ (fun front short proper => ?_) after)
  · simpa [weight] using balanced
  · have open_ := bracketed.inside (.symbol '[' :: front) ((List.prefix_cons_inj _).mpr short) (by simp) (by simpa using proper)
    rw [depth_cons] at open_
    simpa [weight] using open_

theorem reads_attributes {group : List Token.Kind} (attached : Attributes group) (after : List Token.Kind) :
    attributes.Reads (group ++ .symbol ';' :: after) () (.symbol ';' :: after) := by
  rcases attached with rfl | bracketed
  · exact reads_attributes_absent (by simp)
  · exact reads_attributes_bracketed bracketed _

theorem reads_skipStatement {inner : List Token.Kind} (unended : ∀ kind ∈ inner, kind ≠ .symbol ';')
    (after : List Token.Kind) : skipStatement.Reads (inner ++ .symbol ';' :: after) () after := by
  induction inner with
  | nil =>
    intro tokens same
    obtain ⟨token, rest, rfl, sameKind, sameRest⟩ := cons_of_kinds same
    exact ⟨rest, sameRest, if_pos (by simp [Token.isSymbol, sameKind])⟩
  | cons kind inner ih =>
    rw [List.forall_mem_cons] at unended
    intro tokens same
    obtain ⟨token, rest, rfl, sameKind, sameRest⟩ := cons_of_kinds same
    obtain ⟨left, sameLeft, skipped⟩ := ih unended.2 sameRest
    refine ⟨left, sameLeft, ?_⟩
    rw [skipStatement, if_neg (by simpa [Token.isSymbol, sameKind] using unended.1), skipped]

section

variable {α : Type}

/-- The item is read from `own` before any tokens, and does not begin like the end of a block. -/
structure Stands (item : Parser α) (own : List Token.Kind) (value : α) : Prop where
  reads : ∀ after, item.Reads (own ++ after) value after
  opens : ∃ kind, own.head? = some kind ∧ kind ≠ .symbol '\x7d'

/-- Padding is read as empty items, so the other items are the ones that were written. -/
theorem reads_padded [DecidableEq α] {item : Parser α} (advances : item.Advances) {empty : α}
    {idle : List Token.Kind → Prop} {writes : α → List Token.Kind → Prop} {items : List α} {kinds : List Token.Kind}
    (padded : Padded idle writes items kinds) (passes : ∀ {piece}, idle piece → item.Stands piece empty)
    (stands : ∀ value ∈ items, ∀ {own}, writes value own → item.Stands own value) :
    ∃ read, read.filter (· ≠ empty) = items.filter (· ≠ empty) ∧
      ∀ after, Reads (block item advances) (kinds ++ .symbol '\x7d' :: after) read after := by
  induction padded with
  | nil => exact ⟨[], rfl, reads_block_nil advances⟩
  | pad passed _ ih =>
    obtain ⟨read, same, later⟩ := ih stands
    refine ⟨empty :: read, by simpa using same, fun after => ?_⟩
    rw [List.append_assoc]
    exact reads_block_cons ((passes passed).reads _) (passes passed).opens (later after)
  | item written _ ih =>
    rw [List.forall_mem_cons] at stands
    obtain ⟨read, same, later⟩ := ih stands.2
    have first := stands.1 written
    refine ⟨_ :: read, by rw [List.filter_cons, List.filter_cons, same], fun after => ?_⟩
    rw [List.append_assoc]
    exact reads_block_cons (first.reads _) first.opens (later after)

end

theorem messageItem_idle {piece : List Token.Kind} (idle : Idle ["reserved", "extensions"] piece) :
    messageItem.Stands piece .empty := by
  cases idle with
  | semicolon => exact ⟨reads_messageItem_empty, _, rfl, by decide⟩
  | @skipped keyword inner listed unended =>
    refine ⟨fun after => ?_, _, rfl, by simp⟩
    have opens : MessageItem.Opening.ofKind (.identifier keyword) = .skipped := by
      rcases List.mem_pair.mp listed with rfl | rfl <;> rfl
    have skips : ∀ kind ∈ Token.Kind.identifier keyword :: inner, kind ≠ .symbol ';' :=
      List.forall_mem_cons.mpr ⟨by simp, unended⟩
    refine reads_peek_bind (by simp) fun token head => ?_
    rw [← Option.some.inj head, opens, List.cons_append, List.append_assoc]
    exact (reads_skipStatement skips after).bind (reads_pure rfl after)

theorem enumItem_idle {piece : List Token.Kind} (idle : Idle ["reserved"] piece) : enumItem.Stands piece .empty := by
  cases idle with
  | semicolon => exact ⟨reads_enumItem_empty, _, rfl, by decide⟩
  | @skipped keyword inner listed unended =>
    obtain rfl : keyword = "reserved" := by simpa using listed
    refine ⟨fun after => ?_, _, rfl, by simp⟩
    rw [List.cons_append, List.append_assoc]
    refine reads_next_bind fun token same => ?_
    rw [same]
    exact (reads_skipStatement unended after).bind (reads_pure rfl after)

theorem messageItem_writtenAs {item : MessageItem} (wellFormed : item.WellFormed) {own : List Token.Kind}
    (written : item.WrittenAs own) : messageItem.Stands own item := by
  cases item with
  | field declared =>
    obtain ⟨group, attached, rfl⟩ := written
    obtain ⟨word, opens, -⟩ := head?_heading wellFormed (group ++ [.symbol ';'])
    refine ⟨fun after => ?_, _, opens, by simp⟩
    rw [List.append_assoc, List.append_assoc]
    exact reads_messageItem_field wellFormed (reads_attributes attached after)
  | empty | setting _ =>
    cases written
    exact ⟨reads_messageItem wellFormed, head?_messageItem wellFormed⟩

theorem enumItem_writtenAs {item : EnumItem} (wellFormed : item.WellFormed) {own : List Token.Kind}
    (written : item.WrittenAs own) : enumItem.Stands own item := by
  cases item with
  | value declared =>
    obtain ⟨group, attached, rfl⟩ := written
    refine ⟨fun after => ?_, .identifier declared.name, ?_, by simp⟩
    · rw [List.append_assoc, List.append_assoc]
      exact reads_enumItem_value wellFormed (reads_attributes attached after)
    · rw [EnumValue.heading, List.flatMap_cons, Part.kinds_word wellFormed.name]
      rfl
  | empty | setting _ =>
    cases written
    exact ⟨reads_enumItem wellFormed, head?_enumItem wellFormed⟩

def Statement.bare : Statement → Statement
  | .message name items => .message name (items.filter (· ≠ .empty))
  | .enumeration name items => .enumeration name (items.filter (· ≠ .empty))
  | statement => statement

def bareStatements (statements : List Statement) : List Statement :=
  (statements.map Statement.bare).filter (· ≠ .empty)

theorem Statement.isPackage_bare (statement : Statement) : statement.bare.isPackage = statement.isPackage := by
  cases statement <;> rfl

theorem reads_statement_writtenAs {packageSeen : Bool} {written : Statement} (wellFormed : written.WellFormed)
    (fresh : written.isPackage = true → packageSeen = false) {own : List Token.Kind} (writtenAs : written.WrittenAs own) :
    ∃ read, read.bare = written.bare ∧ ∀ after, (statement packageSeen).Reads (own ++ after) read after := by
  cases written with
  | message name items =>
    obtain ⟨body, padded, rfl⟩ := writtenAs
    obtain ⟨read, same, reads⟩ := reads_padded advances_messageItem padded messageItem_idle
      fun item member _ => messageItem_writtenAs (wellFormed.2 item member)
    refine ⟨.message name read, by simp only [Statement.bare, same], fun after => ?_⟩
    refine reads_next_bind fun token same => ?_
    rw [same]
    exact reads_declaration .messageName name (reads after) Statement.message
  | enumeration name items =>
    obtain ⟨body, padded, rfl⟩ := writtenAs
    obtain ⟨read, same, reads⟩ := reads_padded advances_enumItem padded enumItem_idle
      fun item member _ => enumItem_writtenAs (wellFormed.2 item member)
    refine ⟨.enumeration name read, by simp only [Statement.bare, same], fun after => ?_⟩
    refine reads_next_bind fun token same => ?_
    rw [same]
    exact reads_declaration .enumName name (reads after) Statement.enumeration
  | empty | version _ | package _ | imported _ | setting _ =>
    cases writtenAs
    exact ⟨_, rfl, reads_statement wellFormed fresh⟩

theorem statements_of_writtenAs {packageSeen : Bool} {written : List Statement} {kinds : List Token.Kind}
    (padded : Padded (Idle []) Statement.WrittenAs written kinds)
    (wellFormed : ∀ statement ∈ written, statement.WellFormed)
    (single : packageSeen.toNat + written.countP Statement.isPackage ≤ 1) :
    ∃ read, bareStatements read = bareStatements written ∧
      ∀ ⦃tokens : List Token⦄, tokens.map (·.kind) = kinds → statements packageSeen tokens = .ok read := by
  induction padded generalizing packageSeen with
  | nil =>
    refine ⟨[], rfl, fun tokens same => ?_⟩
    rw [List.map_eq_nil_iff.mp same, statements]
  | @pad piece kinds others passed _ ih =>
    cases passed with
    | skipped listed _ => cases listed
    | semicolon =>
      obtain ⟨read, same, later⟩ := ih wellFormed single
      have onwards : ∀ ⦃rest : List Token⦄, rest.map (·.kind) = kinds →
          statements (packageSeen || Statement.isPackage .empty) rest = .ok read := by
        simpa [Statement.isPackage] using later
      refine ⟨.empty :: read, same, fun tokens => statements_of_reads (reads_next_bind fun token kind => ?_) onwards⟩
      rw [kind]
      exact reads_pure rfl _
  | @item own kinds first others writtenAs _ ih =>
    rw [List.forall_mem_cons] at wellFormed
    obtain ⟨fresh, remaining⟩ := single_cons single
    obtain ⟨read, sameFirst, reads⟩ := reads_statement_writtenAs wellFormed.1 fresh writtenAs
    obtain ⟨others, same, later⟩ := ih wellFormed.2 remaining
    have package : read.isPackage = first.isPackage := by
      rw [← read.isPackage_bare, sameFirst, first.isPackage_bare]
    refine ⟨read :: others, ?_, fun tokens => statements_of_reads (reads _) (package ▸ later)⟩
    simp only [bareStatements, List.map_cons, List.filter_cons, sameFirst] at same ⊢
    rw [same]

end Parser

theorem filterMap_filter_ne {α β : Type} [DecidableEq α] {empty : α} {select : α → Option β}
    (dropped : select empty = none) (items : List α) :
    (items.filter (· ≠ empty)).filterMap select = items.filterMap select := by
  rw [List.filterMap_filter]
  apply List.filterMap_congr
  intro item _
  by_cases blank : item = empty <;> simp [blank, dropped]

theorem Message.ofItems_filter (package name : String) (items : List Parser.MessageItem) :
    Message.ofItems package name (items.filter (· ≠ .empty)) = Message.ofItems package name items := by
  rw [ofItems, filterMap_filter_ne rfl, filterMap_filter_ne rfl]
  rfl

theorem Enumeration.ofItems_filter (package name : String) (items : List Parser.EnumItem) :
    Enumeration.ofItems package name (items.filter (· ≠ .empty)) = Enumeration.ofItems package name items := by
  rw [ofItems, filterMap_filter_ne rfl, filterMap_filter_ne rfl]
  rfl

namespace SchemaFile

theorem filterMap_bareStatements {α : Type} {select : Parser.Statement → Option α} (empty : select .empty = none)
    (same : ∀ statement, select statement.bare = select statement) (statements : List Parser.Statement) :
    (Parser.bareStatements statements).filterMap select = statements.filterMap select := by
  rw [Parser.bareStatements, filterMap_filter_ne empty, List.filterMap_map]
  exact List.filterMap_congr fun statement _ => same statement

/-- Empty statements and items leave no trace in the file. -/
theorem ofStatements_bareStatements (identifier : Identifier) (statements : List Parser.Statement) :
    ofStatements identifier (Parser.bareStatements statements) = ofStatements identifier statements := by
  have package : packageOf (Parser.bareStatements statements) = packageOf statements := by
    rw [packageOf, packageOf, filterMap_bareStatements rfl fun statement => by cases statement <;> rfl]
  rw [ofStatements, ofStatements, package]
  congr 1
  · rw [filterMap_bareStatements rfl fun statement => by cases statement <;> rfl]
  · rw [filterMap_bareStatements rfl fun statement => by cases statement <;> rfl]
  · rw [filterMap_bareStatements rfl fun statement => by cases statement <;> rfl]
  · apply filterMap_bareStatements rfl
    intro statement
    cases statement with
    | message name items => simp only [Parser.Statement.bare, Message.ofItems_filter]
    | _ => rfl
  · apply filterMap_bareStatements rfl
    intro statement
    cases statement with
    | enumeration name items => simp only [Parser.Statement.bare, Enumeration.ofItems_filter]
    | _ => rfl

/-- The tokens a well-formed file is printed with may be padded in every way that `WrittenAs` allows: they
are still read as this file. -/
theorem ofTokens_of_writtenAs {file : SchemaFile} (wellFormed : file.WellFormed) :
    file.WrittenAs file.kinds ∧
      ∀ tokens : List Token, file.WrittenAs (tokens.map (·.kind)) → ofTokens file.identifier tokens = .ok file := by
  refine ⟨writtenAs_kinds wellFormed, fun tokens writtenAs => ?_⟩
  have single : Bool.toNat false + file.statements.countP Parser.Statement.isPackage ≤ 1 := by
    simpa using file.countP_isPackage_statements
  obtain ⟨read, same, complete⟩ := Parser.statements_of_writtenAs writtenAs wellFormed.statements single
  rw [ofTokens, @complete tokens rfl]
  calc Except.ok (ofStatements file.identifier read)
      = .ok (ofStatements file.identifier (Parser.bareStatements read)) := by rw [ofStatements_bareStatements]
    _ = .ok (ofStatements file.identifier file.statements) := by rw [same, ofStatements_bareStatements]
    _ = .ok file := by rw [ofStatements_statements wellFormed]

/-- Keywords, braces and semicolons inside brackets, and a reservation that opens a brace, swallow
nothing that comes after them. -/
theorem ofTokens_of_writtenAs_nested :
    let field : Field := ⟨"x", "int32", 1, .implicit⟩
    let value : EnumValue := ⟨"A", -1⟩
    let file : SchemaFile := ⟨.named "a", none, "", [], [], [⟨"M", "M", [field], []⟩], [⟨"E", "E", [value], []⟩]⟩
    let kinds : List Token.Kind :=
      [.symbol ';', .identifier "message", .identifier "M", .symbol '\x7b',
        .identifier "reserved", .symbol '\x7b', .quoted "x", .symbol ';',
        .identifier "int32", .identifier "x", .symbol '=', .integer "1",
        .symbol '[', .identifier "message", .symbol '[', .symbol ']', .symbol ';', .symbol '\x7d', .symbol ']', .symbol ';',
        .identifier "extensions", .symbol ';', .symbol '\x7d',
        .identifier "enum", .identifier "E", .symbol '\x7b', .identifier "A", .symbol '=', .symbol '-', .integer "1",
        .symbol '[', .symbol ';', .symbol ']', .symbol ';', .symbol ';', .symbol '\x7d', .symbol ';']
    file.WellFormed ∧ file.WrittenAs kinds ∧
      ofTokens (.named "a") (kinds.map fun kind => ⟨kind, .start⟩) = .ok file := by
  intro field value file kinds
  have wellFormed : file.WellFormed := by decide +kernel
  have statements : file.statements = [.message "M" [.field field], .enumeration "E" [.value value]] := by decide +kernel
  have fieldWritten : Parser.MessageItem.WrittenAs (.field field)
      [.identifier "int32", .identifier "x", .symbol '=', .integer "1", .symbol '[', .identifier "message", .symbol '[',
        .symbol ']', .symbol ';', .symbol '\x7d', .symbol ']', .symbol ';'] :=
    ⟨[.symbol '[', .identifier "message", .symbol '[', .symbol ']', .symbol ';', .symbol '\x7d', .symbol ']'],
      Or.inr (by decide), by decide +kernel⟩
  have valueWritten : Parser.EnumItem.WrittenAs (.value value)
      [.identifier "A", .symbol '=', .symbol '-', .integer "1", .symbol '[', .symbol ';', .symbol ']', .symbol ';'] :=
    ⟨[.symbol '[', .symbol ';', .symbol ']'], Or.inr (by decide), by decide +kernel⟩
  have reserved : Idle ["reserved", "extensions"] [.identifier "reserved", .symbol '\x7b', .quoted "x", .symbol ';'] :=
    @Idle.skipped _ _ [.symbol '\x7b', .quoted "x"] (by decide) (by decide)
  have extensions : Idle ["reserved", "extensions"] [.identifier "extensions", .symbol ';'] :=
    @Idle.skipped _ _ [] (by decide) (by decide)
  have body := Padded.pad reserved (.item fieldWritten (.pad extensions .nil))
  have values : Padded (Idle ["reserved"]) _ _ _ := .item valueWritten (.pad .semicolon .nil)
  have messageWritten : Parser.Statement.WrittenAs (.message "M" [.field field]) _ := ⟨_, body, rfl⟩
  have enumWritten : Parser.Statement.WrittenAs (.enumeration "E" [.value value]) _ := ⟨_, values, rfl⟩
  have written : file.WrittenAs kinds := by
    rw [WrittenAs, statements]
    exact .pad Idle.semicolon (.item messageWritten (.item enumWritten (.pad Idle.semicolon .nil)))
  exact ⟨wellFormed, written, (ofTokens_of_writtenAs wellFormed).2 _ written⟩

end SchemaFile

end SchemaMarshal
