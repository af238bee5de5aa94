import SchemaMarshal.Proofs.Reading

/-! The files that reading can return: exactly the well-formed ones.

`Yields` follows the readers as `Reads` does, but starts from any tokens whose identifiers are
words, as those of a text are, and says what is known of the value that comes out.
-/

set_option autoImplicit false

namespace SchemaMarshal

/-- Every identifier among the tokens is a word. -/
def Lawful (tokens : List Token) : Prop :=
  ∀ token ∈ tokens, ∀ text, token.kind = .identifier text → Name.isWord text.toList = true

theorem lawful_nil : Lawful [] := List.forall_mem_nil _

theorem lawful_cons_iff {token : Token} {tokens : List Token} :
    Lawful (token :: tokens) ↔
      (∀ text, token.kind = .identifier text → Name.isWord text.toList = true) ∧ Lawful tokens :=
  List.forall_mem_cons

theorem Lawful.tail {token : Token} {tokens : List Token} (lawful : Lawful (token :: tokens)) : Lawful tokens :=
  (lawful_cons_iff.mp lawful).2

theorem scan_identifier {head : Char} {tail lexeme rest : List Char} {text : String}
    (scanned : Lexeme.scan head tail = .token (.identifier text) lexeme rest) : Name.isWord text.toList = true := by
  unfold Lexeme.scan at scanned
  split at scanned
  · rename_i letter
    cases scanned
    rw [String.toList_ofList, List.takeWhile_cons_of_pos (Name.isWordPart_of_isLetter letter), Name.isWord, letter,
      Bool.true_and]
    exact List.all_takeWhile
  -- Numbers, string literals and symbols are tokens of other kinds.
  · split at scanned
    · simp only [Lexeme.scanNumber] at scanned
      split at scanned
      · cases scanned
      · split at scanned <;> cases scanned
    · split at scanned
      · rw [Lexeme.scanString] at scanned
        split at scanned <;> cases scanned
      · split at scanned <;> cases scanned

theorem next_lawful {cursor after : Cursor} {token : Token} (pulled : cursor.next = (.token token, after))
    {text : String} (same : token.kind = .identifier text) : Name.isWord text.toList = true := by
  unfold Cursor.next at pulled
  split at pulled
  · cases pulled
  · cases pulled
  · split at pulled
    · rename_i scanned
      cases pulled
      cases same
      exact scan_identifier scanned
    · cases pulled

theorem tokens_lawful {cursor : Cursor} {tokens : List Token} (read : cursor.tokens = .ok tokens) :
    Lawful tokens := by
  fun_induction Cursor.tokens cursor generalizing tokens with
  | case1 =>
    cases read
    exact lawful_nil
  | case2 => cases read
  | case3 cursor token after pulled _ later continued ih =>
    cases read
    exact lawful_cons_iff.mpr ⟨fun text same => next_lawful pulled same, ih continued⟩
  | case4 => cases read

namespace Parser

variable {α β : Type}

/-- From allowed tokens, the value that is read satisfies `holds` and lawful tokens are left. -/
def Yields (allowed : List Token → Prop) (parser : Parser α) (holds : α → Prop) : Prop :=
  ∀ ⦃tokens : List Token⦄ ⦃value : α⦄ ⦃rest : List Token⦄,
    allowed tokens → parser tokens = .ok (value, rest) → holds value ∧ Lawful rest

theorem yields_pure {value : α} {holds : α → Prop} (valid : holds value) : Yields Lawful (pure value) holds := by
  intro tokens result rest lawful success
  cases success
  exact ⟨valid, lawful⟩

theorem yields_fail {allowed : List Token → Prop} (failure : Failure) (holds : α → Prop) :
    Yields allowed (fail failure) holds := by
  intro tokens result rest _ success
  cases success

theorem Yields.bind {allowed : List Token → Prop} {parser : Parser α} {following : α → Parser β}
    {first : α → Prop} {second : β → Prop} (yields : Yields allowed parser first)
    (continues : ∀ value, first value → Yields Lawful (following value) second) :
    Yields allowed (parser >>= following) second := by
  intro tokens result rest lawful success
  obtain ⟨value, middle, parsed, continued⟩ := bind_eq_ok.mp success
  obtain ⟨valid, lawfulMiddle⟩ := yields lawful parsed
  exact continues value valid lawfulMiddle continued

theorem Yields.weaken {allowed stronger : List Token → Prop} {parser : Parser α} {holds : α → Prop}
    (yields : Yields allowed parser holds) (implied : ∀ tokens, stronger tokens → allowed tokens) :
    Yields stronger parser holds :=
  fun _ _ _ strong success => yields (implied _ strong) success

theorem Yields.imp {allowed : List Token → Prop} {parser : Parser α} {holds weaker : α → Prop}
    (yields : Yields allowed parser holds) (implied : ∀ value, holds value → weaker value) :
    Yields allowed parser weaker :=
  fun _ _ _ strong success => (yields strong success).imp_left (implied _)

theorem yields_require (condition : Bool) (failure : Failure) :
    Yields Lawful (require condition failure) fun _ => condition = true := by
  unfold require
  split
  · exact yields_pure (by assumption)
  · exact yields_fail _ _

theorem yields_demand (value? : Option α) (failure : Failure) :
    Yields Lawful (demand value? failure) fun value => value? = some value := by
  unfold demand
  split
  · exact yields_pure rfl
  · exact yields_fail _ _

/-- A token that is looked at is still the first one. -/
theorem yields_peek_bind {allowed : List Token → Prop} {expected : Expectation} {following : Token → Parser α}
    {holds : α → Prop}
    (continues : ∀ token, Yields (fun tokens => allowed tokens ∧ tokens.head? = some token) (following token) holds) :
    Yields allowed (peek expected >>= following) holds := by
  intro tokens result rest lawful success
  obtain ⟨token, middle, parsed, continued⟩ := bind_eq_ok.mp success
  cases tokens with
  | nil => cases parsed
  | cons head tail =>
    cases parsed
    exact continues token ⟨lawful, rfl⟩ continued

theorem yields_next (expected : Expectation) :
    Yields Lawful (next expected) fun token =>
      ∀ text, token.kind = .identifier text → Name.isWord text.toList = true := by
  intro tokens result rest lawful success
  cases tokens with
  | nil => cases success
  | cons head tail =>
    cases success
    exact lawful_cons_iff.mp lawful

theorem yields_of_step {parser : Parser α} (atEnd : ∀ value rest, parser [] = .ok (value, rest) → rest = [])
    (step : ∀ head tail value rest, parser (head :: tail) = .ok (value, rest) → rest = tail ∨ rest = head :: tail) :
    Yields Lawful parser fun _ => True := by
  intro tokens value rest lawful success
  refine ⟨trivial, ?_⟩
  cases tokens with
  | nil =>
    rw [atEnd value rest success]
    exact lawful
  | cons head tail =>
    rcases step head tail value rest success with rfl | rfl
    · exact lawful.tail
    · exact lawful

theorem yields_skipSymbol (character : Char) : Yields Lawful (skipSymbol character) fun _ => True := by
  apply yields_of_step
  · intro value rest success
    cases success
    rfl
  · intro head tail value rest success
    rw [skipSymbol] at success
    split at success <;> cases success
    · exact Or.inl rfl
    · exact Or.inr rfl

theorem yields_skipWord (words : List String) : Yields Lawful (skipWord words) fun _ => True := by
  apply yields_of_step
  · intro value rest success
    cases success
    rfl
  · intro head tail value rest success
    rw [skipWord] at success
    split at success <;> cases success
    · exact Or.inl rfl
    · exact Or.inr rfl

theorem yields_nextIs (character : Char) : Yields Lawful (nextIs character) fun _ => True := by
  apply yields_of_step
  · intro value rest success
    cases success
    rfl
  · intro head tail value rest success
    cases success
    exact Or.inr rfl

theorem yields_symbol (character : Char) : Yields Lawful (symbol character) fun _ => True :=
  (yields_next _).bind fun _ _ => (yields_require _ _).imp fun _ _ => trivial

theorem yields_identifier (expected : Expectation) :
    Yields Lawful (identifier expected) fun text => Name.isWord text.toList = true :=
  (yields_next _).bind fun token lawful => by
    split
    · rename_i text same
      exact yields_pure (lawful text same)
    · exact yields_fail _ _

theorem yields_quoted (expected : Expectation) : Yields Lawful (quoted expected) fun _ => True :=
  (yields_next _).bind fun _ _ => by
    split
    · exact yields_pure trivial
    · exact yields_fail _ _

theorem yields_nameParts (expected : Expectation) :
    Yields Lawful (nameParts expected) fun parts => Name.isContinuation parts.toList = true := by
  intro tokens
  fun_induction nameParts expected tokens with
  | case1 | case3 | case7 =>
    intro _ _ lawful success
    cases success
    exact ⟨rfl, lawful⟩
  | case2 | case5 | case6 =>
    intro _ _ _ success
    cases success
  | case4 token part rest _ text same parts left parsed ih =>
    intro _ _ lawful success
    cases success
    obtain ⟨valid, lawfulLeft⟩ := ih lawful.tail.tail parsed
    refine ⟨?_, lawfulLeft⟩
    have word := (lawful_cons_iff.mp lawful.tail).1 text same
    obtain ⟨words, wordsValid, continued⟩ := Name.isContinuation_iff.mp valid
    refine Name.isContinuation_iff.mpr ⟨text.toList :: words, List.forall_mem_cons.mpr ⟨word, wordsValid⟩, ?_⟩
    rw [String.toList_append, String.toList_append, continued]
    rfl

theorem isPath_append {first parts : String} (word : Name.isWord first.toList = true)
    (continued : Name.isContinuation parts.toList = true) : Name.isPath (first ++ parts).toList = true := by
  obtain ⟨words, wordsValid, same⟩ := Name.isContinuation_iff.mp continued
  refine Name.isPath_iff.mpr ⟨first.toList, words, List.forall_mem_cons.mpr ⟨word, wordsValid⟩, ?_⟩
  rw [String.toList_append, same]

theorem yields_dottedName (expected : Expectation) :
    Yields Lawful (dottedName expected) fun name => Name.isReference name.toList = true :=
  (yields_skipSymbol '.').bind fun absolute _ => (yields_identifier expected).bind fun first word =>
    (yields_nameParts expected).bind fun parts continued => by
      have path := isPath_append word continued
      apply yields_pure
      rw [Name.isReference_iff, String.append_assoc, String.toList_append]
      cases absolute with
      | false => exact Or.inl path
      | true => exact Or.inr ⟨_, path, rfl⟩

theorem yields_settingName : Yields Lawful settingName fun name => Name.isSettingName name.toList = true :=
  (yields_skipSymbol '(').bind fun custom _ => by
    split
    · refine (yields_dottedName _).bind fun name reference => (yields_symbol ')').bind fun _ _ =>
        (yields_nameParts _).bind fun parts continued => yields_pure ?_
      obtain ⟨words, wordsValid, same⟩ := Name.isContinuation_iff.mp continued
      refine Name.isSettingName_iff.mpr (Or.inr ⟨name.toList, words, reference, wordsValid, ?_⟩)
      simp [String.toList_append, same]
    · exact (yields_identifier _).bind fun name word => (yields_nameParts _).bind fun parts continued =>
        yields_pure (Name.isSettingName_iff.mpr (Or.inl (isPath_append word continued)))

theorem yields_adjacentStrings : Yields Lawful adjacentStrings fun _ => True := by
  intro tokens
  fun_induction adjacentStrings tokens with
  | case1 | case4 =>
    intro _ _ lawful success
    cases success
    exact ⟨trivial, lawful⟩
  | case2 token rest value _ values left parsed ih =>
    intro _ _ lawful success
    cases success
    exact ih lawful.tail parsed
  | case3 =>
    intro _ _ _ success
    cases success

theorem yields_unsigned : Yields Lawful unsigned fun _ => True :=
  (yields_next _).bind fun token _ => by
    split
    · exact yields_pure trivial
    · exact yields_pure trivial
    · exact (yields_require _ _).bind fun _ _ => yields_pure trivial
    · exact yields_fail _ _

theorem yields_constant : Yields Lawful constant fun _ => True :=
  (yields_next _).bind fun token _ => by
    split
    · exact yields_adjacentStrings.bind fun _ _ => yields_pure trivial
    · exact yields_pure trivial
    · exact yields_pure trivial
    · exact yields_pure trivial
    · exact yields_unsigned.bind fun _ _ => yields_pure trivial
    · exact yields_unsigned.bind fun _ _ => yields_pure trivial
    · exact yields_fail _ _
    · exact yields_fail _ _

theorem yields_integer (expected : Expectation) : Yields Lawful (integer expected) fun _ => True :=
  (yields_skipSymbol _).bind fun _ _ => (yields_next _).bind fun token _ => by
    split
    · exact (yields_demand _ _).bind fun _ _ => yields_pure trivial
    · exact yields_fail _ _

theorem yields_skipGroup (depth : Nat) : Yields Lawful (skipGroup depth) fun _ => True := by
  intro tokens
  fun_induction skipGroup depth tokens with
  | case1 =>
    intro _ _ _ success
    cases success
  | case3 =>
    intro _ _ lawful success
    cases success
    exact ⟨trivial, lawful.tail⟩
  | case2 _ _ _ _ ih | case4 _ _ _ _ _ ih | case5 _ _ _ _ _ ih =>
    intro _ _ lawful success
    exact ih lawful.tail success

theorem yields_attributes : Yields Lawful attributes fun _ => True :=
  (yields_skipSymbol _).bind fun opened _ => by
    split
    · exact yields_skipGroup 0
    · exact yields_pure trivial

theorem yields_skipStatement : Yields Lawful skipStatement fun _ => True := by
  intro tokens
  fun_induction skipStatement tokens with
  | case1 =>
    intro _ _ _ success
    cases success
  | case2 =>
    intro _ _ lawful success
    cases success
    exact ⟨trivial, lawful.tail⟩
  | case3 _ _ _ ih =>
    intro _ _ lawful success
    exact ih lawful.tail success

theorem yields_setting : Yields Lawful setting Setting.WellFormed :=
  yields_settingName.bind fun _ name => (yields_symbol '=').bind fun _ _ => yields_constant.bind fun _ _ =>
    (yields_symbol ';').bind fun _ _ => yields_pure name

/-- An implicit label leaves the word at the head, which is then no keyword of a label. -/
theorem yields_label_bind {token : Token} {word : String} (kind : token.kind = .identifier word)
    {following : Label → Parser α} {holds : α → Prop}
    (continues : ∀ label, (label = .implicit → Label.ofKeyword? word = none) →
      Yields (fun tokens => Lawful tokens ∧ (label = .implicit → tokens.head? = some token)) (following label) holds) :
    Yields (fun tokens => Lawful tokens ∧ tokens.head? = some token) (label >>= following) holds := by
  intro tokens result rest ⟨lawful, opens⟩ success
  obtain ⟨declared, middle, parsed, continued⟩ := bind_eq_ok.mp success
  obtain ⟨tail, rfl⟩ := List.head?_eq_some_iff.mp opens
  simp only [label, kind] at parsed
  split at parsed
  · rename_i keyword
    cases parsed
    have labelled : declared ≠ .implicit := by
      rintro rfl
      exact absurd (List.mem_of_find?_eq_some keyword) (by decide)
    exact continues declared (fun implicit => absurd implicit labelled)
      ⟨lawful.tail, fun implicit => absurd implicit labelled⟩ continued
  · rename_i plain
    cases parsed
    exact continues .implicit (fun _ => plain) ⟨lawful, fun _ => rfl⟩ continued

/-- A name that begins with an identifier has it as its first word. -/
theorem yields_dottedName_head {token : Token} {word : String} (kind : token.kind = .identifier word)
    (condition : Prop) (expected : Expectation) :
    Yields (fun tokens => Lawful tokens ∧ (condition → tokens.head? = some token)) (dottedName expected)
      fun name => Name.isReference name.toList = true ∧ (condition → Name.isWord word.toList = true ∧
        ∃ others, (∀ other ∈ others, Name.isWord other = true) ∧
          name.toList = word.toList ++ Name.continuation others) := by
  intro tokens name rest ⟨lawful, opens⟩ success
  obtain ⟨reference, lawfulRest⟩ := yields_dottedName expected lawful success
  refine ⟨⟨reference, fun holds => ?_⟩, lawfulRest⟩
  obtain ⟨tail, rfl⟩ := List.head?_eq_some_iff.mp (opens holds)
  -- Where an identifier comes first there is no leading point, and that identifier is taken.
  have plain : skipSymbol '.' (token :: tail) = .ok (false, token :: tail) := by
    simp [skipSymbol, Token.isSymbol, kind]
  have taken : identifier expected (token :: tail) = .ok (word, tail) :=
    bind_eq_ok.mpr ⟨token, tail, rfl, by rw [kind]; rfl⟩
  obtain ⟨absolute, afterPoint, skipped, parsed⟩ := bind_eq_ok.mp success
  cases plain.symm.trans skipped
  obtain ⟨first, afterFirst, identified, parsed⟩ := bind_eq_ok.mp parsed
  cases taken.symm.trans identified
  obtain ⟨parts, left, continued, finished⟩ := bind_eq_ok.mp parsed
  cases finished
  obtain ⟨others, valid, same⟩ := Name.isContinuation_iff.mp (yields_nameParts expected lawful.tail continued).1
  refine ⟨(lawful_cons_iff.mp lawful).1 word kind, others, valid, ?_⟩
  simp [same]

theorem one_le_of_number? {written : Int64} {number : UInt32} (numbered : Field.number? written = some number) :
    1 ≤ number.toNat := by
  rw [Field.number?] at numbered
  split at numbered
  · rename_i range
    cases numbered
    have fits : written.toInt.toNat < UInt32.size := by omega
    rw [UInt32.toNat_ofNat_of_lt' fits]
    omega
  · cases numbered

theorem unlabelled_of_head {type word : String} {others : List (List Char)}
    (wordValid : Name.isWord word.toList = true) (valid : ∀ other ∈ others, Name.isWord other = true)
    (same : type.toList = word.toList ++ Name.continuation others) (free : word ∉ Field.takenWords) :
    type.toList.head? ≠ some '.' ∧ ∀ first ∈ (Text.segments '.' type).head?, first ∉ Field.takenWords := by
  have words : ∀ other ∈ word.toList :: others, Name.isWord other = true :=
    List.forall_mem_cons.mpr ⟨wordValid, valid⟩
  constructor
  · have absent : '.' ∉ word.toList := Name.not_mem_of_isWord wordValid (by decide)
    rw [same]
    cases letters : word.toList with
    | nil =>
      rw [letters] at wordValid
      cases wordValid
    | cons letter _ =>
      rw [letters] at absent
      intro point
      cases point
      exact absent List.mem_cons_self
  · rw [Text.segments, same, Name.splitAt_path words, List.map_cons, List.head?_cons, String.ofList_toList]
    intro first first_eq
    cases first_eq
    exact free

theorem yields_field {token : Token} {word : String} (kind : token.kind = .identifier word)
    (free : word ∉ Field.itemWords) :
    Yields (fun tokens => Lawful tokens ∧ tokens.head? = some token) field Field.WellFormed := by
  refine yields_label_bind kind fun label plain => yields_peek_bind fun _ => ?_
  refine ((yields_dottedName_head kind (label = .implicit) .fieldType).weaken fun _ => And.left).bind
    fun type ⟨reference, relative⟩ => ?_
  refine (yields_nextIs '<').bind fun parameters _ => (yields_require _ _).bind fun _ supported => ?_
  refine (yields_identifier .fieldName).bind fun name nameWord => (yields_symbol '=').bind fun _ _ => ?_
  refine yields_peek_bind fun _ => ((yields_integer .fieldNumber).weaken fun _ => And.left).bind fun written _ => ?_
  refine (yields_demand _ _).bind fun number numbered => yields_attributes.bind fun _ _ => ?_
  refine (yields_symbol ';').bind fun _ _ => yields_pure ?_
  refine ⟨nameWord, reference, ?_, ?_, one_le_of_number? numbered⟩
  · simp only [Bool.and_eq_true, decide_eq_true_eq] at supported
    exact supported.1
  · intro implicit
    obtain ⟨wordValid, others, valid, same⟩ := relative implicit
    refine unlabelled_of_head wordValid valid same ?_
    rw [Field.mem_takenWords_iff, not_or, not_not]
    exact ⟨free, plain implicit⟩

theorem yields_enumValue {name : String} (word : Name.isWord name.toList = true) (notSetting : name ≠ "option")
    (notReserved : name ≠ "reserved") : Yields Lawful (enumValue name) EnumValue.WellFormed :=
  (yields_symbol '=').bind fun _ _ => yields_peek_bind fun _ => ((yields_integer _).weaken fun _ => And.left).bind
    fun _ _ => (yields_demand _ _).bind fun _ _ => yields_attributes.bind fun _ _ => (yields_symbol ';').bind
    fun _ _ => yields_pure ⟨word, notSetting, notReserved⟩

theorem yields_messageItem : Yields Lawful messageItem MessageItem.WellFormed := by
  refine yields_peek_bind fun first => ?_
  cases opens : MessageItem.Opening.ofKind first.kind with
  | empty => exact ((yields_symbol ';').weaken fun _ => And.left).bind fun _ _ => yields_pure trivial
  | setting =>
    exact ((yields_next _).weaken fun _ => And.left).bind fun _ _ => yields_setting.bind fun _ valid =>
      yields_pure valid
  | skipped => exact (yields_skipStatement.weaken fun _ => And.left).bind fun _ _ => yields_pure trivial
  | nested keyword => exact yields_fail _ _
  | field =>
    obtain ⟨word, kind, free⟩ := MessageItem.Opening.ofKind_eq_field_iff.mp opens
    exact (yields_field kind free).bind fun _ valid => yields_pure valid
  | other => exact yields_fail _ _

theorem yields_enumItem : Yields Lawful enumItem EnumItem.WellFormed := by
  refine (yields_next _).bind fun first lawful => ?_
  cases opens : EnumItem.Opening.ofKind first.kind with
  | empty => exact yields_pure trivial
  | setting => exact yields_setting.bind fun _ valid => yields_pure valid
  | skipped => exact yields_skipStatement.bind fun _ _ => yields_pure trivial
  | value name =>
    obtain ⟨kind, notSetting, notReserved⟩ := EnumItem.Opening.ofKind_eq_value_iff.mp opens
    exact (yields_enumValue (lawful name kind) notSetting notReserved).bind fun _ valid => yields_pure valid
  | other => exact yields_fail _ _

theorem yields_block {item : Parser α} (advances : item.Advances) {holds : α → Prop}
    (yields : Yields Lawful item holds) :
    Yields Lawful (block item advances) fun items => ∀ value ∈ items, holds value := by
  intro tokens
  fun_induction block item advances tokens with
  | case1 | case3 | case5 =>
    intro _ _ _ success
    cases success
  | case2 =>
    intro _ _ lawful success
    cases success
    exact ⟨List.forall_mem_nil _, lawful.tail⟩
  | case4 head tail _ first rest parsed _ items left continued ih =>
    intro _ _ lawful success
    cases success
    obtain ⟨valid, lawfulRest⟩ := yields lawful parsed
    obtain ⟨others, lawfulLeft⟩ := ih lawfulRest continued
    exact ⟨List.forall_mem_cons.mpr ⟨valid, others⟩, lawfulLeft⟩

theorem yields_statementAs (packageSeen : Bool) (first : Token) (opening : Statement.Opening) :
    Yields Lawful (statementAs packageSeen first opening) Statement.WellFormed := by
  cases opening with
  | empty => exact yields_pure trivial
  | version =>
    exact (yields_symbol '=').bind fun _ _ => (yields_quoted _).bind fun _ _ => (yields_symbol ';').bind fun _ _ =>
      yields_pure trivial
  | package =>
    exact (yields_require _ _).bind fun _ _ => (yields_dottedName _).bind fun _ valid =>
      (yields_symbol ';').bind fun _ _ => yields_pure valid
  | imported =>
    exact (yields_skipWord _).bind fun _ _ => (yields_quoted _).bind fun _ _ =>
      (yields_symbol ';').bind fun _ _ => yields_pure trivial
  | setting => exact yields_setting.bind fun _ valid => yields_pure valid
  | message =>
    exact (yields_identifier _).bind fun _ name => (yields_symbol _).bind fun _ _ =>
      (yields_block _ yields_messageItem).bind fun _ items => yields_pure ⟨name, items⟩
  | enumeration =>
    exact (yields_identifier _).bind fun _ name => (yields_symbol _).bind fun _ _ =>
      (yields_block _ yields_enumItem).bind fun _ items => yields_pure ⟨name, items⟩
  | unsupported keyword => exact yields_fail _ _
  | other => exact yields_fail _ _

theorem yields_statement (packageSeen : Bool) : Yields Lawful (statement packageSeen) Statement.WellFormed :=
  (yields_next _).bind fun first _ => yields_statementAs packageSeen first _

theorem statements_wellFormed {packageSeen : Bool} {tokens : List Token} (lawful : Lawful tokens)
    {read : List Statement} (parsed : statements packageSeen tokens = .ok read) :
    ∀ statement ∈ read, statement.WellFormed := by
  fun_induction statements packageSeen tokens generalizing read with
  | case1 =>
    cases parsed
    exact List.forall_mem_nil _
  | case2 => cases parsed
  | case3 packageSeen head tail first rest parsedFirst _ others continued ih =>
    cases parsed
    obtain ⟨valid, lawfulRest⟩ := yields_statement packageSeen lawful parsedFirst
    exact List.forall_mem_cons.mpr ⟨valid, ih lawfulRest continued⟩
  | case4 => cases parsed

end Parser

theorem Message.ofItems_wellFormed (package : String) {name : String} {items : List Parser.MessageItem}
    (word : Name.isWord name.toList = true) (valid : ∀ item ∈ items, item.WellFormed) :
    (Message.ofItems package name items).WellFormed package := by
  refine ⟨word, rfl, List.forall_mem_filterMap.mpr ?_, List.forall_mem_filterMap.mpr ?_⟩
  · intro item member setting selected
    cases item <;> cases selected
    exact valid _ member
  · intro item member field selected
    cases item <;> cases selected
    exact valid _ member

theorem Enumeration.ofItems_wellFormed (package : String) {name : String} {items : List Parser.EnumItem}
    (word : Name.isWord name.toList = true) (valid : ∀ item ∈ items, item.WellFormed) :
    (Enumeration.ofItems package name items).WellFormed package := by
  refine ⟨word, rfl, List.forall_mem_filterMap.mpr ?_, List.forall_mem_filterMap.mpr ?_⟩
  · intro item member setting selected
    cases item <;> cases selected
    exact valid _ member
  · intro item member value selected
    cases item <;> cases selected
    exact valid _ member

namespace SchemaFile

theorem packageOf_eq_or {statements : List Parser.Statement}
    (valid : ∀ statement ∈ statements, statement.WellFormed) :
    packageOf statements = "" ∨ Name.isReference (packageOf statements).toList = true := by
  rw [packageOf]
  cases last : (statements.filterMap _).getLast? with
  | none => exact Or.inl rfl
  | some name =>
    obtain ⟨statement, member, selected⟩ := List.mem_filterMap.mp (List.mem_of_getLast? last)
    cases statement <;> cases selected
    exact Or.inr (valid _ member)

theorem ofStatements_wellFormed (identifier : Identifier) {statements : List Parser.Statement}
    (valid : ∀ statement ∈ statements, statement.WellFormed) : (ofStatements identifier statements).WellFormed := by
  refine ⟨packageOf_eq_or valid, List.forall_mem_filterMap.mpr ?_, List.forall_mem_filterMap.mpr ?_,
    List.forall_mem_filterMap.mpr ?_⟩
  · intro statement member setting selected
    cases statement <;> cases selected
    exact valid _ member
  · intro statement member message selected
    cases statement <;> cases selected
    obtain ⟨word, items⟩ := valid _ member
    exact Message.ofItems_wellFormed _ word items
  · intro statement member enumeration selected
    cases statement <;> cases selected
    obtain ⟨word, items⟩ := valid _ member
    exact Enumeration.ofItems_wellFormed _ word items

theorem wellFormed_of_parse {identifier : Identifier} {text : String} {file : SchemaFile}
    (parsed : parse identifier text = .ok file) : file.identifier = identifier ∧ file.WellFormed := by
  obtain ⟨tokens, statements, tokenized, read, rfl⟩ := parse_eq_ok_iff.mp parsed
  exact ⟨rfl, ofStatements_wellFormed identifier (Parser.statements_wellFormed (tokens_lawful tokenized) read)⟩

/-- Reading returns well-formed files only, and each of them is read from its own text. So writing
out what was read from any text and reading it again changes nothing. -/
theorem parse_rightInverse :
    (∀ identifier text file, parse identifier text = .ok file → file.identifier = identifier ∧ file.WellFormed) ∧
      (∀ file : SchemaFile, file.WellFormed → parse file.identifier file.print = .ok file) ∧
      ∀ identifier text file, parse identifier text = .ok file → parse identifier file.print = .ok file := by
  refine ⟨fun _ _ _ => wellFormed_of_parse, fun _ => parse_print, ?_⟩
  intro identifier text file parsed
  obtain ⟨rfl, wellFormed⟩ := wellFormed_of_parse parsed
  exact parse_print wellFormed

theorem parse_rightInverse_extremes :
    let file : SchemaFile :=
      { identifier := .anonymous 0
        syntaxVersion := some "quote \" slash \\ feed \n"
        package := ".a.b"
        imports := ["", "c\t"]
        settings := [⟨"(.d.e).f", "-1"⟩]
        messages :=
          [{ name := "message"
             fullName := ".a.b.message"
             fields := [⟨"group", "optionals.x", 4294967295, .implicit⟩, ⟨"option", ".group", 1, .repeated⟩]
             settings := [⟨"option.option", ""⟩] }]
        enumerations :=
          [{ name := "E"
             fullName := ".a.b.E"
             values := [⟨"least", -2147483648⟩, ⟨"greatest", 2147483647⟩]
             settings := [] }] }
    file.WellFormed ∧ parse file.identifier file.print = .ok file := by
  intro file
  have wellFormed : file.WellFormed := by decide
  exact ⟨wellFormed, parse_rightInverse.2.1 file wellFormed⟩

end SchemaFile

end SchemaMarshal
