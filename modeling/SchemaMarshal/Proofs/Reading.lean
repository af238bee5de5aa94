import SchemaMarshal.Proofs.FullNames
import SchemaMarshal.Proofs.Numerals
import SchemaMarshal.Proofs.Printing

/-! What the readers make of the tokens that a file is written with.

`Reads` fixes the kinds of the tokens and leaves their positions open, so it composes along a
reader: one lemma for each reader, in the order in which the readers use each other.
-/

set_option autoImplicit false

namespace SchemaMarshal

namespace Parser

variable {α β : Type}

/-- From tokens of the kinds `before`, wherever they stand, `value` is read and tokens of the kinds
`after` are left. -/
def Reads (parser : Parser α) (before : List Token.Kind) (value : α) (after : List Token.Kind) : Prop :=
  ∀ ⦃tokens : List Token⦄, tokens.map (·.kind) = before →
    ∃ rest, rest.map (·.kind) = after ∧ parser tokens = .ok (value, rest)

theorem reads_pure {computed value : α} (equal : computed = value) (kinds : List Token.Kind) :
    Reads (pure computed) kinds value kinds := by
  subst equal
  exact fun tokens same => ⟨tokens, same, rfl⟩

theorem Reads.bind {parser : Parser α} {following : α → Parser β} {before middle after : List Token.Kind}
    {first : α} {value : β} (reads : parser.Reads before first middle)
    (continues : (following first).Reads middle value after) : (parser >>= following).Reads before value after := by
  intro tokens same
  obtain ⟨rest, sameRest, parsed⟩ := reads same
  obtain ⟨left, sameLeft, continued⟩ := continues sameRest
  exact ⟨left, sameLeft, bind_eq_ok.mpr ⟨first, rest, parsed, continued⟩⟩

theorem cons_of_kinds {tokens : List Token} {kind : Token.Kind} {kinds : List Token.Kind}
    (same : tokens.map (·.kind) = kind :: kinds) :
    ∃ token rest, tokens = token :: rest ∧ token.kind = kind ∧ rest.map (·.kind) = kinds := by
  obtain ⟨token, rest, rfl, sameKind, sameRest⟩ := List.map_eq_cons_iff.mp same
  exact ⟨token, rest, rfl, sameKind, sameRest⟩

-- What is read may depend on the token, but not on where it stands.
theorem reads_next_bind {expected : Expectation} {following : Token → Parser α} {kind : Token.Kind}
    {before after : List Token.Kind} {value : α}
    (continues : ∀ token, token.kind = kind → (following token).Reads before value after) :
    (next expected >>= following).Reads (kind :: before) value after := by
  intro tokens same
  obtain ⟨token, rest, rfl, sameKind, sameRest⟩ := cons_of_kinds same
  obtain ⟨left, sameLeft, continued⟩ := continues token sameKind sameRest
  exact ⟨left, sameLeft, bind_eq_ok.mpr ⟨token, rest, rfl, continued⟩⟩

theorem reads_peek_bind {expected : Expectation} {following : Token → Parser α}
    {before after : List Token.Kind} {value : α} (present : before ≠ [])
    (continues : ∀ token, before.head? = some token.kind → (following token).Reads before value after) :
    (peek expected >>= following).Reads before value after := by
  obtain ⟨kind, others, rfl⟩ := List.exists_cons_of_ne_nil present
  intro tokens same
  obtain ⟨token, rest, rfl, sameKind, sameRest⟩ := cons_of_kinds same
  obtain ⟨left, sameLeft, continued⟩ := continues token (by rw [sameKind]; rfl) same
  exact ⟨left, sameLeft, bind_eq_ok.mpr ⟨token, token :: rest, rfl, continued⟩⟩

theorem reads_require {condition : Bool} (holds : condition = true) (failure : Failure) (kinds : List Token.Kind) :
    (require condition failure).Reads kinds () kinds := by
  rw [require, if_pos holds]
  exact reads_pure rfl kinds

theorem reads_demand {value? : Option α} {value : α} (present : value? = some value) (failure : Failure)
    (kinds : List Token.Kind) : (demand value? failure).Reads kinds value kinds := by
  subst present
  exact reads_pure rfl kinds

theorem reads_symbol (character : Char) (after : List Token.Kind) :
    (symbol character).Reads (.symbol character :: after) () after := by
  apply reads_next_bind
  intro token same
  exact reads_require (by simp [Token.isSymbol, same]) _ after

theorem reads_identifier (expected : Expectation) (text : String) (after : List Token.Kind) :
    (identifier expected).Reads (.identifier text :: after) text after := by
  apply reads_next_bind
  intro token same
  rw [same]
  exact reads_pure rfl after

theorem reads_quoted (expected : Expectation) (value : String) (after : List Token.Kind) :
    (quoted expected).Reads (.quoted value :: after) value after := by
  apply reads_next_bind
  intro token same
  rw [same]
  exact reads_pure rfl after

theorem reads_skipSymbol (character : Char) (after : List Token.Kind) :
    (skipSymbol character).Reads (.symbol character :: after) true after := by
  intro tokens same
  obtain ⟨token, rest, rfl, sameKind, sameRest⟩ := cons_of_kinds same
  exact ⟨rest, sameRest, by simp [skipSymbol, Token.isSymbol, sameKind]⟩

theorem reads_of_absent {parser : Parser α} {character : Char} {value : α} (atEnd : parser [] = .ok (value, []))
    (before : ∀ token rest, token.kind ≠ .symbol character → parser (token :: rest) = .ok (value, token :: rest))
    {kinds : List Token.Kind} (absent : kinds.head? ≠ some (.symbol character)) : parser.Reads kinds value kinds := by
  intro tokens same
  refine ⟨tokens, same, ?_⟩
  subst same
  cases tokens with
  | nil => exact atEnd
  | cons token rest => exact before token rest fun found => absent (by rw [List.map_cons, List.head?_cons, found])

theorem reads_skipSymbol_absent {character : Char} {kinds : List Token.Kind}
    (absent : kinds.head? ≠ some (.symbol character)) : (skipSymbol character).Reads kinds false kinds := by
  apply reads_of_absent rfl _ absent
  intro token rest other
  simp [skipSymbol, Token.isSymbol, other]

theorem reads_nextIs_absent {character : Char} {kinds : List Token.Kind}
    (absent : kinds.head? ≠ some (.symbol character)) : (nextIs character).Reads kinds false kinds := by
  apply reads_of_absent rfl _ absent
  intro token rest other
  simp [nextIs, Token.isSymbol, other]

theorem reads_attributes_absent {kinds : List Token.Kind} (absent : kinds.head? ≠ some (.symbol '[')) :
    attributes.Reads kinds () kinds :=
  (reads_skipSymbol_absent absent).bind (reads_pure rfl kinds)

theorem reads_nameParts_absent (expected : Expectation) {kinds : List Token.Kind}
    (absent : kinds.head? ≠ some (.symbol '.')) : (nameParts expected).Reads kinds "" kinds := by
  apply reads_of_absent rfl _ absent
  intro token rest other
  cases rest <;> simp [nameParts, Token.isSymbol, other]

theorem reads_nameParts (expected : Expectation) {words : List (List Char)}
    (valid : ∀ word ∈ words, Name.isWord word = true) {after : List Token.Kind}
    (ends : after.head? ≠ some (.symbol '.')) :
    (nameParts expected).Reads (Name.kinds (Name.continuation words) ++ after)
      (String.ofList (Name.continuation words)) after := by
  rw [Name.kinds_continuation valid]
  clear valid
  induction words with
  | nil => exact reads_nameParts_absent expected ends
  | cons word words ih =>
    intro tokens same
    obtain ⟨point, _, rfl, pointKind, same⟩ := cons_of_kinds same
    obtain ⟨part, rest, rfl, partKind, same⟩ := cons_of_kinds same
    obtain ⟨left, sameLeft, parsed⟩ := ih same
    refine ⟨left, sameLeft, ?_⟩
    have joined : "." ++ String.ofList word ++ String.ofList (Name.continuation words) =
        String.ofList (Name.continuation (word :: words)) := by
      rw [← String.toList_inj]
      simp [Name.continuation]
    simp only [nameParts, Token.isSymbol, pointKind, partKind, parsed, decide_true, if_true, joined]

-- A path is read in two places, which put its word and its parts together in their own ways.
theorem reads_path (expected : Expectation) {path : List Char} (valid : Name.isPath path = true)
    {after : List Token.Kind} (ends : after.head? ≠ some (.symbol '.')) {combine : String → String → String}
    {name : String} (combined : ∀ first parts, first ++ parts = String.ofList path → combine first parts = name) :
    Reads (do let first ← identifier expected; let parts ← nameParts expected; pure (combine first parts))
      (Name.kinds path ++ after) name after := by
  obtain ⟨first, others, words, rfl⟩ := Name.isPath_iff.mp valid
  have later := reads_nameParts expected (fun word member => words word (List.mem_cons_of_mem _ member)) ends
  rw [Name.kinds_path words]
  exact (reads_identifier expected _ _).bind
    (later.bind (reads_pure (combined _ _ String.ofList_append.symm) _))

theorem reads_dottedName (expected : Expectation) {name : String} (valid : Name.isReference name.toList = true)
    {after : List Token.Kind} (ends : after.head? ≠ some (.symbol '.')) :
    (dottedName expected).Reads (Name.kinds name.toList ++ after) name after := by
  rcases Name.isReference_iff.mp valid with path | ⟨path, valid, same⟩
  · have plain : (Name.kinds name.toList ++ after).head? ≠ some (.symbol '.') := by
      obtain ⟨first, others, words, same⟩ := Name.isPath_iff.mp path
      rw [same, Name.kinds_path words]
      simp
    refine (reads_skipSymbol_absent plain).bind (reads_path expected path ends ?_)
    intro first parts joined
    rw [String.ofList_toList] at joined
    rw [← joined]
    simp
  · rw [same, Name.kinds_symbol (by decide)]
    refine (reads_skipSymbol '.' _).bind (reads_path expected valid ends ?_)
    intro first parts joined
    rw [← String.toList_inj, same, if_pos rfl, String.append_assoc, joined]
    simp

theorem reads_settingName {name : String} (valid : Name.isSettingName name.toList = true)
    {after : List Token.Kind} (ends : after.head? ≠ some (.symbol '.')) :
    settingName.Reads (Name.kinds name.toList ++ after) name after := by
  rcases Name.isSettingName_iff.mp valid with path | ⟨reference, words, extension, wordsValid, same⟩
  · have plain : (Name.kinds name.toList ++ after).head? ≠ some (.symbol '(') := by
      obtain ⟨first, others, words, same⟩ := Name.isPath_iff.mp path
      rw [same, Name.kinds_path words]
      simp
    refine (reads_skipSymbol_absent plain).bind (reads_path .settingName path ends ?_)
    intro first parts joined
    rw [joined, String.ofList_toList]
  · have inner : Name.isReference (String.ofList reference).toList = true := by
      rwa [String.toList_ofList]
    have kinds : Name.kinds name.toList ++ after = .symbol '(' :: (Name.kinds (String.ofList reference).toList ++
        (.symbol ')' :: (Name.kinds (Name.continuation words) ++ after))) := by
      rw [same, Name.kinds_symbol (by decide), Name.kinds_append _ (breaks_cons (by decide)),
        Name.kinds_symbol (by decide)]
      simp
    have joined : "(" ++ String.ofList reference ++ ")" ++ String.ofList (Name.continuation words) = name := by
      rw [← String.toList_inj, same]
      simp
    rw [kinds]
    exact (reads_skipSymbol '(' _).bind ((reads_dottedName _ inner (by simp)).bind
      ((reads_symbol ')' _).bind ((reads_nameParts _ wordsValid ends).bind (reads_pure joined _))))

theorem reads_constant (value : String) (after : List Token.Kind) :
    constant.Reads (.quoted value :: .symbol ';' :: after) value (.symbol ';' :: after) := by
  apply reads_next_bind
  intro token same
  have single : adjacentStrings.Reads (.symbol ';' :: after) "" (.symbol ';' :: after) := by
    intro tokens sameTokens
    obtain ⟨first, rest, rfl, firstKind, sameRest⟩ := cons_of_kinds sameTokens
    exact ⟨first :: rest, sameTokens, by simp only [adjacentStrings, firstKind]⟩
  rw [same]
  exact single.bind (reads_pure String.append_empty _)

theorem reads_integer (expected : Expectation) {written : Int} (small : written.natAbs ≤ 2 ^ 63 - 1)
    {value : Int64} (holds : value.toInt = written) (after : List Token.Kind) :
    (integer expected).Reads ((Part.number written).kinds ++ after) value after := by
  have magnitude := Numeral.value?_toDigits small
  rw [Part.kinds]
  split
  · have negated : -Int64.ofNat written.natAbs = value := by
      rw [← Int64.toInt_inj, holds, Int64.toInt_neg_ofNat_of_le (by omega)]
      omega
    refine (reads_skipSymbol '-' _).bind (reads_next_bind fun token same => ?_)
    rw [same]
    exact (reads_demand magnitude _ after).bind (reads_pure (by rw [if_pos rfl, negated]) after)
  · have plain : Int64.ofNat written.natAbs = value := by
      rw [← Int64.toInt_inj, holds, Int64.toInt_ofNat_of_lt (by omega)]
      omega
    refine (reads_skipSymbol_absent (by simp)).bind (reads_next_bind fun token same => ?_)
    rw [same]
    exact (reads_demand magnitude _ after).bind (reads_pure (by rw [if_neg Bool.false_ne_true, plain]) after)

theorem reads_setting {declared : Setting} (wellFormed : declared.WellFormed) (after : List Token.Kind) :
    setting.Reads (declared.assignment.flatMap Part.kinds ++ after) declared after := by
  have kinds : declared.assignment.flatMap Part.kinds ++ after =
      Name.kinds declared.name.toList ++ (.symbol '=' :: .quoted declared.value :: .symbol ';' :: after) := by
    simp [Setting.assignment, Part.kinds]
  rw [kinds]
  exact (reads_settingName wellFormed (by simp)).bind ((reads_symbol '=' _).bind
    ((reads_constant _ after).bind ((reads_symbol ';' after).bind (reads_pure rfl after))))

theorem reads_label (declared : Label) {after : List Token.Kind}
    (plain : declared = .implicit → ∀ text, after.head? = some (.identifier text) → Label.ofKeyword? text = none) :
    label.Reads (declared.parts.flatMap Part.kinds ++ after) declared after := by
  intro tokens same
  cases declared with
  | implicit =>
    refine ⟨tokens, same, ?_⟩
    cases tokens with
    | nil => rfl
    | cons token rest =>
      cases sameKind : token.kind with
      | identifier text =>
        have unlabelled := plain rfl text (by rw [← sameKind, ← same.trans (List.nil_append after)]; rfl)
        simp only [label, sameKind, unlabelled]
      | _ => simp only [label, sameKind]
  | optional | required | repeated =>
    obtain ⟨token, rest, rfl, sameKind, sameRest⟩ := cons_of_kinds same
    exact ⟨rest, sameRest, by simp only [label, sameKind]; rfl⟩

/-- Without a label, the first word of the type is not taken for one. -/
theorem ofKeyword?_of_type {declared : Field} (wellFormed : declared.WellFormed) (after : List Token.Kind)
    (implicit : declared.label = .implicit) (text : String)
    (head : ((Part.name declared.typeName).kinds ++ after).head? = some (.identifier text)) :
    Label.ofKeyword? text = none := by
  obtain ⟨first, others, words, same, free⟩ := wellFormed.type_of_implicit implicit
  rw [Part.kinds, same, Name.kinds_path words] at head
  cases head
  exact not_not.mp fun keyword => free (Field.mem_takenWords_iff.mpr (Or.inr keyword))

/-- A field begins with a label or with the first word of its type. -/
theorem head?_heading {declared : Field} (wellFormed : declared.WellFormed) (after : List Token.Kind) :
    ∃ word, (declared.heading.flatMap Part.kinds ++ after).head? = some (.identifier word) ∧
      word ∉ Field.itemWords := by
  cases labelled : declared.label with
  | implicit =>
    obtain ⟨first, others, words, same, free⟩ := wellFormed.type_of_implicit labelled
    refine ⟨String.ofList first, ?_, ?_⟩
    · rw [Field.heading, labelled, Label.parts, List.nil_append, List.flatMap_cons, Part.kinds, same,
        Name.kinds_path words]
      rfl
    · exact fun item => free (Field.mem_takenWords_iff.mpr (Or.inl item))
  | optional | required | repeated =>
    refine ⟨declared.label.text, ?_, ?_⟩
    · rw [Field.heading, labelled]
      rfl
    · rw [labelled]
      decide

theorem reads_field {declared : Field} (wellFormed : declared.WellFormed) {between after : List Token.Kind}
    (skipped : attributes.Reads between () (.symbol ';' :: after)) :
    field.Reads (declared.heading.flatMap Part.kinds ++ between) declared after := by
  have bounded := declared.number.toNat_lt
  have written : (Int64.ofNat declared.number.toNat).toInt = declared.number.toNat :=
    Int64.toInt_ofNat_of_lt (by omega)
  have number : Field.number? (Int64.ofNat declared.number.toNat) = some declared.number := by
    have positive := wellFormed.positive
    rw [Field.number?, written, if_pos ⟨by omega, Int.ofNat_lt.mpr declared.number.toNat_lt_size⟩]
    simp
  have kinds : declared.heading.flatMap Part.kinds ++ between = declared.label.parts.flatMap Part.kinds ++
      ((Part.name declared.typeName).kinds ++ (.identifier declared.name :: .symbol '=' ::
        ((Part.number declared.number.toNat).kinds ++ between))) := by
    simp [Field.heading, Part.kinds_word wellFormed.name]
  rw [kinds]
  refine (reads_label declared.label (ofKeyword?_of_type wellFormed _)).bind (reads_peek_bind (by simp) fun _ _ => ?_)
  refine (reads_dottedName .fieldType wellFormed.type (by simp)).bind ?_
  refine (reads_nextIs_absent (by simp)).bind ((reads_require (by simp [wellFormed.notGroup]) _ _).bind ?_)
  refine (reads_identifier _ _ _).bind ((reads_symbol '=' _).bind (reads_peek_bind ?_ fun _ _ => ?_))
  · simp [Part.kinds_number_ne_nil]
  exact (reads_integer .fieldNumber (by omega) written between).bind ((reads_demand number _ between).bind
    (skipped.bind ((reads_symbol ';' after).bind (reads_pure rfl after))))

theorem reads_enumValue (declared : EnumValue) {between after : List Token.Kind}
    (skipped : attributes.Reads between () (.symbol ';' :: after)) :
    (enumValue declared.name).Reads (.symbol '=' :: ((Part.number declared.ordinal.toInt).kinds ++ between))
      declared after := by
  have low := declared.ordinal.le_toInt
  have high := declared.ordinal.toInt_lt
  have written : (Int64.ofInt declared.ordinal.toInt).toInt = declared.ordinal.toInt :=
    Int64.toInt_ofInt_of_le (by omega) (by omega)
  have ordinal : EnumValue.ordinal? (Int64.ofInt declared.ordinal.toInt) = some declared.ordinal := by
    rw [EnumValue.ordinal?, written, if_pos ⟨declared.ordinal.minValue_le_toInt, declared.ordinal.toInt_le⟩,
      Int32.ofInt_toInt]
  refine (reads_symbol '=' _).bind (reads_peek_bind ?_ fun _ _ => ?_)
  · simp [Part.kinds_number_ne_nil]
  exact (reads_integer .enumOrdinal (by omega) written between).bind ((reads_demand ordinal _ between).bind
    (skipped.bind ((reads_symbol ';' after).bind (reads_pure rfl after))))

theorem reads_messageItem_empty (after : List Token.Kind) :
    messageItem.Reads (.symbol ';' :: after) .empty after := by
  refine reads_peek_bind (by simp) fun token head => ?_
  rw [← Option.some.inj head]
  exact (reads_symbol ';' after).bind (reads_pure rfl after)

theorem reads_messageItem_setting {declared : Setting} (wellFormed : declared.WellFormed) (after : List Token.Kind) :
    messageItem.Reads (declared.parts.flatMap Part.kinds ++ after) (.setting declared) after := by
  rw [declared.kinds_parts, List.cons_append]
  refine reads_peek_bind (by simp) fun token head => ?_
  rw [← Option.some.inj head]
  exact reads_next_bind fun _ _ => (reads_setting wellFormed after).bind (reads_pure rfl after)

theorem MessageItem.Opening.ofKind_eq_field_iff {kind : Token.Kind} :
    ofKind kind = .field ↔ ∃ word, kind = .identifier word ∧ word ∉ Field.itemWords := by
  constructor
  · intro opens
    unfold ofKind at opens
    split at opens
    · cases opens
    · rename_i word
      refine ⟨word, rfl, ?_⟩
      simp only [Field.itemWords, List.mem_cons, not_or]
      repeat' split at opens
      all_goals simp_all
    · cases opens
  · rintro ⟨word, rfl, free⟩
    simp only [Field.itemWords, List.mem_cons, not_or] at free
    simp [ofKind, free]

theorem EnumItem.Opening.ofKind_eq_value_iff {kind : Token.Kind} {name : String} :
    ofKind kind = .value name ↔ kind = .identifier name ∧ name ≠ "option" ∧ name ≠ "reserved" := by
  constructor
  · intro opens
    unfold ofKind at opens
    split at opens
    · cases opens
    · repeat' split at opens
      all_goals cases opens
      exact ⟨rfl, by assumption, by assumption⟩
    · cases opens
  · rintro ⟨rfl, notSetting, notReserved⟩
    simp [ofKind, notSetting, notReserved]

theorem messageItem_of_word {token : Token} {word : String} (isWord : token.kind = .identifier word)
    (free : word ∉ Field.itemWords) (tokens : List Token) :
    messageItem (token :: tokens) = (do let field ← field; pure (.field field) : Parser MessageItem) (token :: tokens) := by
  have peeked : peek (.symbol '\x7d') (token :: tokens) = .ok (token, token :: tokens) := rfl
  rw [messageItem, bind_of_ok peeked, MessageItem.Opening.ofKind_eq_field_iff.mpr ⟨word, isWord, free⟩]
  rfl

-- The attributes of a field are left open here; written fields have none.
theorem reads_messageItem_field {declared : Field} (wellFormed : declared.WellFormed)
    {between after : List Token.Kind} (skipped : attributes.Reads between () (.symbol ';' :: after)) :
    messageItem.Reads (declared.heading.flatMap Part.kinds ++ between) (.field declared) after := by
  intro tokens same
  obtain ⟨word, opens, free⟩ := head?_heading wellFormed between
  rw [← same, List.head?_map, Option.map_eq_some_iff] at opens
  obtain ⟨token, first, isWord⟩ := opens
  obtain ⟨others, rfl⟩ := List.head?_eq_some_iff.mp first
  have reads : Reads (do let field ← field; pure (.field field)) (declared.heading.flatMap Part.kinds ++ between)
      (MessageItem.field declared) after := (reads_field wellFormed skipped).bind (reads_pure rfl after)
  rw [messageItem_of_word isWord free]
  exact reads same

theorem reads_messageItem {item : MessageItem} (wellFormed : item.WellFormed) (after : List Token.Kind) :
    messageItem.Reads (item.parts.flatMap Part.kinds ++ after) item after := by
  cases item with
  | empty => exact reads_messageItem_empty after
  | setting declared => exact reads_messageItem_setting wellFormed after
  | field declared =>
    rw [MessageItem.parts, Field.parts, List.flatMap_append, List.append_assoc]
    exact reads_messageItem_field wellFormed (reads_attributes_absent (by simp))

theorem reads_enumItem_empty (after : List Token.Kind) : enumItem.Reads (.symbol ';' :: after) .empty after := by
  refine reads_next_bind fun token same => ?_
  rw [same]
  exact reads_pure rfl after

theorem reads_enumItem_setting {declared : Setting} (wellFormed : declared.WellFormed) (after : List Token.Kind) :
    enumItem.Reads (declared.parts.flatMap Part.kinds ++ after) (.setting declared) after := by
  rw [declared.kinds_parts, List.cons_append]
  refine reads_next_bind fun token same => ?_
  rw [same]
  exact (reads_setting wellFormed after).bind (reads_pure rfl after)

theorem reads_enumItem_value {declared : EnumValue} (wellFormed : declared.WellFormed)
    {between after : List Token.Kind} (skipped : attributes.Reads between () (.symbol ';' :: after)) :
    enumItem.Reads (declared.heading.flatMap Part.kinds ++ between) (.value declared) after := by
  have kinds : declared.heading.flatMap Part.kinds ++ between = .identifier declared.name ::
      (.symbol '=' :: ((Part.number declared.ordinal.toInt).kinds ++ between)) := by
    simp [EnumValue.heading, Part.kinds_word wellFormed.name]
  rw [kinds]
  refine reads_next_bind fun token same => ?_
  rw [EnumItem.Opening.ofKind_eq_value_iff.mpr ⟨same, wellFormed.notSetting, wellFormed.notReserved⟩]
  exact (reads_enumValue declared skipped).bind (reads_pure rfl after)

theorem reads_enumItem {item : EnumItem} (wellFormed : item.WellFormed) (after : List Token.Kind) :
    enumItem.Reads (item.parts.flatMap Part.kinds ++ after) item after := by
  cases item with
  | empty => exact reads_enumItem_empty after
  | setting declared => exact reads_enumItem_setting wellFormed after
  | value declared =>
    rw [EnumItem.parts, EnumValue.parts, List.flatMap_append, List.append_assoc]
    exact reads_enumItem_value wellFormed (reads_attributes_absent (by simp))

theorem head?_messageItem {item : MessageItem} (wellFormed : item.WellFormed) :
    ∃ kind, (item.parts.flatMap Part.kinds).head? = some kind ∧ kind ≠ .symbol '\x7d' := by
  cases item with
  | empty => exact ⟨.symbol ';', rfl, by decide⟩
  | setting declared =>
    rw [MessageItem.parts, declared.kinds_parts]
    exact ⟨.identifier "option", rfl, by simp⟩
  | field declared =>
    obtain ⟨word, opens, _⟩ := head?_heading wellFormed [.symbol ';']
    rw [MessageItem.parts, Field.parts, List.flatMap_append]
    exact ⟨.identifier word, opens, by simp⟩

theorem head?_enumItem {item : EnumItem} (wellFormed : item.WellFormed) :
    ∃ kind, (item.parts.flatMap Part.kinds).head? = some kind ∧ kind ≠ .symbol '\x7d' := by
  cases item with
  | empty => exact ⟨.symbol ';', rfl, by decide⟩
  | setting declared =>
    rw [EnumItem.parts, declared.kinds_parts]
    exact ⟨.identifier "option", rfl, by simp⟩
  | value declared =>
    rw [EnumItem.parts, EnumValue.parts, EnumValue.heading, List.cons_append, List.flatMap_cons,
      Part.kinds_word wellFormed.name]
    exact ⟨.identifier declared.name, rfl, by simp⟩

theorem block_of_item_error {item : Parser α} {advances : item.Advances} {head : Token} {tail : List Token}
    {failure : Failure} (inside : head.isSymbol '\x7d' = false) (failed : item (head :: tail) = .error failure) :
    block item advances (head :: tail) = .error failure := by
  rw [block, if_neg (by simp [inside])]
  split <;> rename_i again <;> rw [failed] at again <;> cases again
  rfl

theorem block_of_item {item : Parser α} {advances : item.Advances} {head : Token} {tail rest : List Token} {first : α}
    (inside : head.isSymbol '\x7d' = false) (parsed : item (head :: tail) = .ok (first, rest)) :
    block item advances (head :: tail) = (block item advances rest).map (Prod.map (first :: ·) id) := by
  rw [block, if_neg (by simp [inside])]
  split <;> rename_i again <;> rw [parsed] at again <;> cases again
  cases block item advances rest <;> rfl

theorem block_cons {item : Parser α} {advances : item.Advances} {head : Token} {tail rest left : List Token}
    {first : α} {items : List α} (inside : head.kind ≠ .symbol '\x7d')
    (parsed : item (head :: tail) = .ok (first, rest)) (continued : block item advances rest = .ok (items, left)) :
    block item advances (head :: tail) = .ok (first :: items, left) := by
  rw [block_of_item (by simpa [Token.isSymbol] using inside) parsed, continued]
  rfl

theorem reads_block_nil {item : Parser α} (advances : item.Advances) (after : List Token.Kind) :
    Reads (block item advances) (.symbol '\x7d' :: after) [] after := by
  intro tokens same
  obtain ⟨token, rest, rfl, sameKind, sameRest⟩ := cons_of_kinds same
  refine ⟨rest, sameRest, ?_⟩
  rw [block, if_pos (by simp [Token.isSymbol, sameKind])]

theorem reads_block_cons {item : Parser α} {advances : item.Advances} {own behind after : List Token.Kind} {first : α}
    {items : List α} (reads : item.Reads (own ++ behind) first behind)
    (opens : ∃ kind, own.head? = some kind ∧ kind ≠ .symbol '\x7d')
    (later : Reads (block item advances) behind items after) :
    Reads (block item advances) (own ++ behind) (first :: items) after := by
  intro tokens same
  obtain ⟨rest, sameRest, parsed⟩ := reads same
  obtain ⟨left, sameLeft, continued⟩ := later sameRest
  -- The block goes on only because the item does not start with its closing brace.
  obtain ⟨kind, head, inside⟩ := opens
  obtain ⟨others, split⟩ := List.head?_eq_some_iff.mp head
  rw [split] at same
  obtain ⟨token, tail, rfl, sameKind, _⟩ := cons_of_kinds same
  exact ⟨left, sameLeft, block_cons (by rwa [sameKind]) parsed continued⟩

theorem reads_block {item : Parser α} (advances : item.Advances) {kinds : α → List Token.Kind} {items : List α}
    (reads : ∀ value ∈ items, ∀ after, item.Reads (kinds value ++ after) value after)
    (opens : ∀ value ∈ items, ∃ kind, (kinds value).head? = some kind ∧ kind ≠ .symbol '\x7d')
    (after : List Token.Kind) :
    Reads (block item advances) (items.flatMap kinds ++ .symbol '\x7d' :: after) items after := by
  induction items with
  | nil => exact reads_block_nil advances after
  | cons first items ih =>
    rw [List.flatMap_cons, List.append_assoc]
    apply reads_block_cons (reads first (by simp) _) (opens first (by simp))
    exact ih (fun value member => reads value (List.mem_cons_of_mem _ member))
      (fun value member => opens value (List.mem_cons_of_mem _ member))

theorem reads_declaration (expected : Expectation) (name : String) {item : Parser α} {advances : item.Advances}
    {body after : List Token.Kind} {items : List α}
    (reads : Reads (block item advances) (body ++ .symbol '\x7d' :: after) items after)
    (make : String → List α → β) :
    Reads
      (do
        let name ← identifier expected
        symbol '\x7b'
        let items ← block item advances
        pure (make name items))
      (.identifier name :: .symbol '\x7b' :: (body ++ [.symbol '\x7d'] ++ after)) (make name items) after := by
  rw [List.append_assoc]
  exact (reads_identifier expected name _).bind ((reads_symbol '\x7b' _).bind (reads.bind (reads_pure rfl after)))

theorem reads_skipWord_quoted (words : List String) (value : String) (after : List Token.Kind) :
    (skipWord words).Reads (.quoted value :: after) () (.quoted value :: after) := by
  intro tokens same
  obtain ⟨token, rest, rfl, sameKind, sameRest⟩ := cons_of_kinds same
  refine ⟨token :: rest, same, ?_⟩
  have absent : words.any token.isIdentifier = false := by simp [Token.isIdentifier, sameKind]
  rw [skipWord, if_neg (by simp [absent])]

theorem reads_statement_version (packageSeen : Bool) (text : String) (after : List Token.Kind) :
    (statement packageSeen).Reads ((Statement.version text).parts.flatMap Part.kinds ++ after)
      (.version text) after := by
  have keyword : (Part.name "syntax").kinds = [.identifier "syntax"] := Part.kinds_word (by decide)
  have kinds : (Statement.version text).parts.flatMap Part.kinds ++ after =
      .identifier "syntax" :: .symbol '=' :: .quoted text :: .symbol ';' :: after := by
    simp [Statement.parts, keyword]
  rw [kinds]
  refine reads_next_bind fun token same => ?_
  rw [same]
  exact (reads_symbol '=' _).bind ((reads_quoted _ text _).bind ((reads_symbol ';' after).bind (reads_pure rfl after)))

theorem reads_statement_package {name : String} (valid : Name.isReference name.toList = true)
    (after : List Token.Kind) :
    (statement false).Reads ((Statement.package name).parts.flatMap Part.kinds ++ after) (.package name) after := by
  have keyword : (Part.name "package").kinds = [.identifier "package"] := Part.kinds_word (by decide)
  have kinds : (Statement.package name).parts.flatMap Part.kinds ++ after =
      .identifier "package" :: ((Part.name name).kinds ++ (.symbol ';' :: after)) := by
    simp [Statement.parts, keyword]
  rw [kinds]
  refine reads_next_bind fun token same => ?_
  rw [same]
  exact (reads_require rfl _ _).bind ((reads_dottedName _ valid (by simp)).bind
    ((reads_symbol ';' after).bind (reads_pure rfl after)))

theorem reads_statement_imported (packageSeen : Bool) (path : String) (after : List Token.Kind) :
    (statement packageSeen).Reads ((Statement.imported path).parts.flatMap Part.kinds ++ after)
      (.imported path) after := by
  have keyword : (Part.name "import").kinds = [.identifier "import"] := Part.kinds_word (by decide)
  have kinds : (Statement.imported path).parts.flatMap Part.kinds ++ after =
      .identifier "import" :: .quoted path :: .symbol ';' :: after := by
    simp [Statement.parts, keyword]
  rw [kinds]
  refine reads_next_bind fun token same => ?_
  rw [same]
  exact (reads_skipWord_quoted _ path _).bind ((reads_quoted _ path _).bind
    ((reads_symbol ';' after).bind (reads_pure rfl after)))

theorem reads_statement {packageSeen : Bool} {written : Statement} (wellFormed : written.WellFormed)
    (fresh : written.isPackage = true → packageSeen = false) (after : List Token.Kind) :
    (statement packageSeen).Reads (written.parts.flatMap Part.kinds ++ after) written after := by
  cases written with
  | empty =>
    refine reads_next_bind fun token same => ?_
    rw [same]
    exact reads_pure rfl after
  | version text => exact reads_statement_version packageSeen text after
  | package name =>
    rw [fresh rfl]
    exact reads_statement_package wellFormed after
  | imported path => exact reads_statement_imported packageSeen path after
  | setting declared =>
    rw [Statement.parts, declared.kinds_parts, List.cons_append]
    refine reads_next_bind fun token same => ?_
    rw [same]
    exact (reads_setting wellFormed after).bind (reads_pure rfl after)
  | message name items =>
    rw [Statement.parts, Part.kinds_block (by decide) wellFormed.1]
    refine reads_next_bind fun token same => ?_
    rw [same]
    exact reads_declaration .messageName name
      (reads_block _ (fun item member => reads_messageItem (wellFormed.2 item member))
        (fun item member => head?_messageItem (wellFormed.2 item member)) after) Statement.message
  | enumeration name items =>
    rw [Statement.parts, Part.kinds_block (by decide) wellFormed.1]
    refine reads_next_bind fun token same => ?_
    rw [same]
    exact reads_declaration .enumName name
      (reads_block _ (fun item member => reads_enumItem (wellFormed.2 item member))
        (fun item member => head?_enumItem (wellFormed.2 item member)) after) Statement.enumeration

theorem statements_cons {packageSeen : Bool} {head : Token} {tail rest : List Token} {first : Statement}
    {others : List Statement} (parsed : statement packageSeen (head :: tail) = .ok (first, rest))
    (continued : statements (packageSeen || first.isPackage) rest = .ok others) :
    statements packageSeen (head :: tail) = .ok (first :: others) := by
  rw [statements]
  split <;> rename_i again <;> rw [parsed] at again <;> cases again
  simp only [continued]

theorem statements_of_reads {packageSeen : Bool} {own behind : List Token.Kind} {first : Statement}
    {others : List Statement} (reads : (statement packageSeen).Reads (own ++ behind) first behind)
    (later : ∀ ⦃rest : List Token⦄, rest.map (·.kind) = behind →
      statements (packageSeen || first.isPackage) rest = .ok others)
    {tokens : List Token} (same : tokens.map (·.kind) = own ++ behind) :
    statements packageSeen tokens = .ok (first :: others) := by
  obtain ⟨rest, sameRest, parsed⟩ := reads same
  -- A statement has at least one token, so the tokens are not at their end.
  cases tokens with
  | nil => exact absurd (advances_statement packageSeen parsed) (Nat.not_lt_zero _)
  | cons head tail => exact statements_cons parsed (later sameRest)

/-- Where the package statements before and among those to come are at most one, the next one may be a
package statement only if none came before. -/
theorem single_cons {packageSeen : Bool} {first : Statement} {others : List Statement}
    (single : packageSeen.toNat + (first :: others).countP Statement.isPackage ≤ 1) :
    (first.isPackage = true → packageSeen = false) ∧
      (packageSeen || first.isPackage).toNat + others.countP Statement.isPackage ≤ 1 := by
  rw [List.countP_cons] at single
  constructor
  · intro package
    rw [package] at single
    cases packageSeen with
    | false => rfl
    | true => simp at single
  · cases packageSeen <;> cases package : first.isPackage <;> simp [package] at single ⊢ <;> omega

theorem statements_of_kinds {packageSeen : Bool} {written : List Statement}
    (wellFormed : ∀ statement ∈ written, statement.WellFormed)
    (single : packageSeen.toNat + written.countP Statement.isPackage ≤ 1) {tokens : List Token}
    (same : tokens.map (·.kind) = written.flatMap fun statement => statement.parts.flatMap Part.kinds) :
    statements packageSeen tokens = .ok written := by
  induction written generalizing packageSeen tokens with
  | nil =>
    obtain rfl : tokens = [] := List.map_eq_nil_iff.mp same
    rw [statements]
  | cons first others ih =>
    obtain ⟨fresh, remaining⟩ := single_cons single
    rw [List.flatMap_cons] at same
    apply statements_of_reads (reads_statement (wellFormed first (by simp)) fresh _) _ same
    intro rest sameRest
    exact ih (fun statement member => wellFormed statement (List.mem_cons_of_mem _ member)) remaining sameRest

end Parser

namespace SchemaFile

theorem countP_isPackage_statements (file : SchemaFile) :
    file.statements.countP Parser.Statement.isPackage ≤ 1 := by
  have none {α : Type} (items : List α) {statement : α → Parser.Statement}
      (other : ∀ item, (statement item).isPackage = false) :
      (items.map statement).countP Parser.Statement.isPackage = 0 := by
    rw [List.countP_map, List.countP_eq_zero]
    intro item _
    simp [other]
  simp only [statements, List.countP_append]
  rw [none _ fun _ => rfl, none _ fun _ => rfl, none _ fun _ => rfl, none _ fun _ => rfl, none _ fun _ => rfl]
  split
  · simp
  · simp [Parser.Statement.isPackage]

theorem parse_print {file : SchemaFile} (wellFormed : file.WellFormed) :
    parse file.identifier file.print = .ok file := by
  obtain ⟨tokens, tokenized, kinds⟩ := tokenize_print wellFormed
  rw [SchemaFile.kinds, parts, List.flatMap_assoc] at kinds
  have parsed : Parser.statements false tokens = .ok file.statements :=
    Parser.statements_of_kinds wellFormed.statements (by simpa using file.countP_isPackage_statements) kinds
  exact parse_eq_ok_iff.mpr ⟨tokens, file.statements, tokenized, parsed, (ofStatements_statements wellFormed).symm⟩

end SchemaFile

end SchemaMarshal
