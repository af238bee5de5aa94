import SchemaMarshal.Proofs.Bodies
import SchemaMarshal.Proofs.Inert
import SchemaMarshal.Proofs.Tiling

/-! Numbers of fields and ordinals of enumeration values.

A literal is one token, and decides alone what becomes of the declaration it stands in: `verdict` is the number,
or the failure with its place. The rest of the file only has to be readable.
-/

set_option autoImplicit false

namespace SchemaMarshal

namespace Numeral

theorem forall_letters {base : Nat} {p : Char → Bool}
    (table : ∀ digit < base, p digit.digitChar = true ∧ p digit.digitChar.toUpper = true) {letters : List Char}
    {digits : List Nat} (read : List.Forall₂ (IsDigit base) letters digits) : ∀ c ∈ letters, p c = true := by
  induction read with
  | nil => simp
  | cons isDigit _ ih =>
    rw [List.forall_mem_cons]
    refine ⟨?_, ih⟩
    obtain ⟨below, rfl | rfl⟩ := isDigit
    · exact (table _ below).1
    · exact (table _ below).2

theorem Denotes.scanNumber {letters : List Char} {value : Nat} (denotes : Denotes letters value) {rest : List Char}
    (breaks : Breaks rest) (point : rest.head? ≠ some '.') :
    Lexeme.scanNumber (letters ++ rest) = .token (.integer (String.ofList letters)) letters rest := by
  cases denotes with
  | zero =>
    have decimal : ∀ c ∈ ['0'], c.isDigit = true := List.forall_mem_singleton.mpr (by decide)
    exact scanNumber_digits decimal breaks point
  | decimal present plain read => exact scanNumber_digits (forall_letters (by decide) read) breaks point
  | octal present read =>
    refine scanNumber_digits ?_ breaks point
    rw [List.forall_mem_cons]
    exact ⟨by decide, forall_letters (by decide) read⟩
  | @hexadecimal mark letters digits marked present read =>
    have isMark : Lexeme.isWordPart mark = true := by rcases marked with rfl | rfl <;> decide
    have parts : ∀ c ∈ '0' :: mark :: letters, Lexeme.isWordPart c = true := by
      rw [List.forall_mem_cons, List.forall_mem_cons]
      exact ⟨by decide, isMark, forall_letters (by decide) read⟩
    have hexadecimal : Lexeme.isHexadecimal ('0' :: mark :: letters) = true := by
      rcases marked with rfl | rfl <;> rfl
    unfold Lexeme.scanNumber
    simp only [takeWhile_word parts breaks, dropWhile_word parts breaks, hexadecimal, if_true]

theorem Denotes.head {letters : List Char} {value : Nat} (denotes : Denotes letters value) :
    ∃ head tail, letters = head :: tail ∧ head.isDigit = true := by
  cases denotes with
  | zero => exact ⟨'0', [], rfl, by decide⟩
  | decimal present plain read =>
    obtain ⟨head, tail, rfl⟩ := List.exists_cons_of_ne_nil present
    exact ⟨head, tail, rfl, forall_letters (p := Char.isDigit) (by decide) read head (by simp)⟩
  | octal present read => exact ⟨'0', _, rfl, by decide⟩
  | hexadecimal marked present read => exact ⟨'0', _, rfl, by decide⟩

theorem Denotes.tokenize {literal : String} {value : Nat} (denotes : Denotes literal.toList value) :
    tokenize literal = .ok [⟨.integer literal, .start⟩] := by
  have ended : Breaks [] := by simp [Breaks]
  have scanned := denotes.scanNumber ended (by simp)
  obtain ⟨head, tail, letters, isDigit⟩ := denotes.head
  rw [List.append_nil] at scanned
  rw [← literal.ofList_toList, letters]
  apply tokenize_lexeme
  simp only [Lexeme.scan, not_isLetter_of_isDigit isDigit, isDigit, Bool.false_eq_true, if_false, if_true]
  rw [← letters, scanned]

end Numeral

/-- An integer literal of a file, with the place of its sign if it has one. -/
structure Literal where
  sign : Option Position
  position : Position
  text : String

namespace Literal

def tokens (literal : Literal) : List Token :=
  literal.sign.toList.map (⟨.symbol '-', ·⟩) ++ [⟨.integer literal.text, literal.position⟩]

def start (literal : Literal) : Position := literal.sign.getD literal.position

def signed (literal : Literal) (magnitude : Nat) : Int :=
  if literal.sign.isSome then -(magnitude : Int) else magnitude

/-- The literal is readable and stands for `value`. -/
def Means (literal : Literal) (value : Int) : Prop :=
  ∃ magnitude, Numeral.Denotes literal.text.toList magnitude ∧ magnitude ≤ 2 ^ 63 - 1 ∧ literal.signed magnitude = value

def read (literal : Literal) : Except Failure Int64 :=
  match Numeral.value? literal.text with
  | some magnitude => .ok (if literal.sign.isSome then -magnitude else magnitude)
  | none => .error (.malformed literal.position (.invalidInteger literal.text))

/-- The sign of a magnitude that was read never leads out of the range of 64 bits. -/
theorem read_of_denotes {literal : Literal} {magnitude : Nat} (denotes : Numeral.Denotes literal.text.toList magnitude)
    (small : magnitude ≤ 2 ^ 63 - 1) :
    ∃ value : Int64, literal.read = .ok value ∧ value.toInt = literal.signed magnitude := by
  have found : Numeral.value? literal.text = some (Int64.ofNat magnitude) :=
    Numeral.value?_eq_some_iff.mpr ⟨magnitude, denotes, small, rfl⟩
  refine ⟨_, by rw [read, found], ?_⟩
  unfold signed
  split
  · exact Int64.toInt_neg_ofNat_of_le (by omega)
  · exact Int64.toInt_ofNat_of_lt (by omega)

theorem exists_read {literal : Literal} {value : Int} (means : literal.Means value) :
    ∃ read : Int64, literal.read = .ok read ∧ read.toInt = value := by
  obtain ⟨magnitude, denotes, small, rfl⟩ := means
  exact read_of_denotes denotes small

theorem read_eq_ok_iff {literal : Literal} {value : Int64} :
    literal.read = .ok value ↔ literal.Means value.toInt := by
  constructor
  · intro success
    rw [read] at success
    split at success
    · rename_i word found
      obtain ⟨magnitude, denotes, small, -⟩ := Numeral.value?_eq_some_iff.mp found
      obtain ⟨again, read, same⟩ := read_of_denotes denotes small
      rw [Literal.read, found] at read
      cases success.symm.trans read
      exact ⟨magnitude, denotes, small, same.symm⟩
    · cases success
  · intro means
    obtain ⟨read, success, same⟩ := exists_read means
    rw [success, Int64.toInt_inj.mp same]

theorem read_eq_error {literal : Literal} (unreadable : ¬ ∃ value, literal.Means value) :
    literal.read = .error (.malformed literal.position (.invalidInteger literal.text)) := by
  cases found : Numeral.value? literal.text with
  | none => rw [read, found]
  | some magnitude =>
    have success : literal.read = .ok (if literal.sign.isSome then -magnitude else magnitude) := by rw [read, found]
    exact absurd ⟨_, read_eq_ok_iff.mp success⟩ unreadable

theorem integer_tokens (literal : Literal) (expected : Expectation) (rest : List Token) :
    Parser.integer expected (literal.tokens ++ rest) = literal.read.map (·, rest) := by
  have skipped : Parser.skipSymbol '-' (literal.tokens ++ rest) =
      .ok (literal.sign.isSome, ⟨.integer literal.text, literal.position⟩ :: rest) := by
    obtain ⟨sign, position, text⟩ := literal
    cases sign <;> rfl
  rw [Parser.integer, Parser.bind_of_ok skipped, Parser.next_bind_cons]
  change (Parser.demand (Numeral.value? literal.text) _ >>= _ : Parser Int64) rest = _
  unfold read
  cases Numeral.value? literal.text <;> rfl

/-- The number that the literal gives a declaration, or why it gives none. -/
def verdict {β : Type} (literal : Literal) (narrow : Int64 → Option β) (refuse : Int64 → Malformation) : Except Failure β :=
  match literal.read with
  | .error failure => .error failure
  | .ok written =>
      match narrow written with
      | some number => .ok number
      | none => .error (.malformed literal.start (refuse written))

/-- The numbers from `low` to `high` are admitted, each as the value that stands for it. -/
structure Admits {β : Type} (narrow : Int64 → Option β) (toInt : β → Int) (low high : Int) : Prop where
  some_iff : ∀ written number, narrow written = some number ↔
    toInt number = written.toInt ∧ low ≤ written.toInt ∧ written.toInt ≤ high
  none_iff : ∀ written, narrow written = none ↔ ¬ (low ≤ written.toInt ∧ written.toInt ≤ high)

theorem admits_number? : Admits Field.number? (fun number => number.toNat) 1 (2 ^ 32 - 1) where
  some_iff written number := by
    have bound := number.toNat_lt
    simp only [Field.number?, Option.ite_none_right_eq_some, Option.some.injEq, UInt32.size]
    constructor
    · rintro ⟨range, rfl⟩
      have small : written.toInt.toNat < UInt32.size := (Int.toNat_lt (by omega)).mpr range.2
      rw [UInt32.toNat_ofNat_of_lt' small]
      omega
    · rintro ⟨same, low, high⟩
      rw [← same]
      exact ⟨by omega, by simp⟩
  none_iff written := by
    simp only [Field.number?, ite_eq_right_iff, reduceCtorEq, imp_false, UInt32.size]
    omega

theorem admits_ordinal? : Admits EnumValue.ordinal? Int32.toInt (-2 ^ 31) (2 ^ 31 - 1) where
  some_iff written ordinal := by
    simp only [EnumValue.ordinal?, Option.ite_none_right_eq_some, Option.some.injEq, Int32.toInt_minValue,
      Int32.toInt_maxValue]
    constructor
    · rintro ⟨range, rfl⟩
      rw [Int32.toInt_ofInt_of_le (by omega) (by omega)]
      omega
    · rintro ⟨same, low, high⟩
      rw [← same]
      exact ⟨by omega, by simp⟩
  none_iff written := by
    simp only [EnumValue.ordinal?, ite_eq_right_iff, reduceCtorEq, imp_false, Int32.toInt_minValue,
      Int32.toInt_maxValue]

section

variable {β : Type} {narrow : Int64 → Option β} {toInt : β → Int} {low high : Int} (admits : Admits narrow toInt low high)

include admits

theorem verdict_eq_ok_iff (literal : Literal) (refuse : Int64 → Malformation) (number : β) :
    literal.verdict narrow refuse = .ok number ↔
      literal.Means (toInt number) ∧ low ≤ toInt number ∧ toInt number ≤ high := by
  have narrowed : literal.verdict narrow refuse = .ok number ↔
      ∃ written, literal.read = .ok written ∧ narrow written = some number := by
    rw [verdict]
    cases literal.read with
    | error failure => simp
    | ok written => cases admitted : narrow written <;> simp [admitted]
  rw [narrowed]
  constructor
  · rintro ⟨written, read, admitted⟩
    obtain ⟨same, range⟩ := (admits.some_iff written number).mp admitted
    rw [same]
    exact ⟨read_eq_ok_iff.mp read, range⟩
  · rintro ⟨means, range⟩
    obtain ⟨written, read, same⟩ := exists_read means
    exact ⟨written, read, (admits.some_iff written number).mpr ⟨same.symm, by rwa [same]⟩⟩

theorem verdict_of_outside {literal : Literal} {written : Int64} (means : literal.Means written.toInt)
    (outside : ¬ (low ≤ written.toInt ∧ written.toInt ≤ high)) (refuse : Int64 → Malformation) :
    literal.verdict narrow refuse = .error (.malformed literal.start (refuse written)) := by
  simp only [verdict, read_eq_ok_iff.mpr means, (admits.none_iff written).mpr outside]

end

theorem verdict_of_unreadable {β : Type} {literal : Literal} (unreadable : ¬ ∃ value, literal.Means value)
    (narrow : Int64 → Option β) (refuse : Int64 → Malformation) :
    literal.verdict narrow refuse = .error (.malformed literal.position (.invalidInteger literal.text)) := by
  simp only [verdict, read_eq_error unreadable]

end Literal

namespace Parser

variable {α β : Type}

/-- The end of a declaration: at most one group in brackets, and a semicolon. -/
def Closing (closing : List Token) : Prop :=
  ∃ group, Inert.Attributes group ∧ closing.map (·.kind) = group ++ [.symbol ';']

theorem closing_read {closing : List Token} (closes : Closing closing) (value : α) (after : List Token) :
    (do attributes; symbol ';'; pure value : Parser α) (closing ++ after) = .ok (value, after) := by
  obtain ⟨group, attached, kinds⟩ := closes
  have tame : Local (do attributes; symbol ';'; pure value : Parser α) (do attributes; symbol ';'; pure value) :=
    local_attributes.bind fun _ => (firm_symbol ';').local.bind fun _ => (free_pure value).local
  apply tame.read_of_reads
  rw [kinds, List.append_assoc]
  exact (reads_attributes attached _).bind ((reads_symbol ';' _).bind (reads_pure rfl _))

def numbered (expected : Expectation) (narrow : Int64 → Option β) (refuse : Int64 → Malformation) (make : β → α) :
    Parser α := do
  let token ← peek expected
  let written ← integer expected
  let number ← demand (narrow written) (.malformed token.position (refuse written))
  attributes
  symbol ';'
  pure (make number)

theorem numbered_tokens (expected : Expectation) (narrow : Int64 → Option β) (refuse : Int64 → Malformation) (make : β → α)
    (literal : Literal) {closing : List Token} (closes : Closing closing) (after : List Token) :
    numbered expected narrow refuse make (literal.tokens ++ (closing ++ after)) =
      (literal.verdict narrow refuse).map fun number => (make number, after) := by
  obtain ⟨token, place, peeked⟩ : ∃ token, token.position = literal.start ∧
      peek expected (literal.tokens ++ (closing ++ after)) = .ok (token, literal.tokens ++ (closing ++ after)) := by
    obtain ⟨sign, position, text⟩ := literal
    cases sign with
    | none => exact ⟨_, rfl, rfl⟩
    | some place => exact ⟨_, rfl, rfl⟩
  have read := literal.integer_tokens expected (closing ++ after)
  -- A number out of range is reported at the token that was seen before it was read.
  rw [numbered, bind_of_ok peeked, Literal.verdict]
  cases outcome : literal.read with
  | error failure =>
    rw [outcome] at read
    exact bind_of_error read _
  | ok written =>
    rw [outcome] at read
    rw [bind_of_ok read, place]
    dsimp only
    cases narrow written with
    | none => rfl
    | some number => exact closing_read closes (make number) after

def Holds (lead : List Token.Kind) (literal : Literal) (own : List Token) : Prop :=
  ∃ opening closing, own = opening ++ (literal.tokens ++ closing) ∧ opening.map (·.kind) = lead ∧ Closing closing

theorem map_of_read {γ : Type} {reader : Parser α} {tokens after : List Token} {outcome : Except Failure β}
    {make : β → α} (read : reader tokens = outcome.map fun number => (make number, after)) (wrap : α → γ) :
    (do let value ← reader; pure (wrap value) : Parser γ) tokens =
      outcome.map fun number => (wrap (make number), after) := by
  cases outcome with
  | error failure => exact bind_of_error read _
  | ok number => exact bind_of_ok read _

end Parser

def Field.lead (field : Field) : List Token.Kind :=
  (field.label.parts ++ [Part.name field.typeName, .name field.name, .symbol '=']).flatMap Part.kinds

def EnumValue.lead (value : EnumValue) : List Token.Kind := [Part.name value.name, .symbol '='].flatMap Part.kinds

theorem EnumValue.lead_eq {value : EnumValue} (wellFormed : value.WellFormed) :
    value.lead = [.identifier value.name, .symbol '='] := by
  simp [lead, Part.kinds_word wellFormed.name]

namespace Parser

theorem head?_lead {declared : Field} (wellFormed : declared.WellFormed) :
    ∃ word, declared.lead.head? = some (.identifier word) ∧ word ∉ Field.itemWords := by
  obtain ⟨word, opens, free⟩ := head?_heading wellFormed []
  have kinds : declared.heading.flatMap Part.kinds ++ [] =
      declared.lead ++ (Part.number declared.number.toNat).kinds := by
    simp [Field.heading, Field.lead]
  have present : declared.lead ≠ [] := by simp [Field.lead, Part.kinds]
  rw [kinds, List.head?_append_of_ne_nil _ present] at opens
  exact ⟨word, opens, free⟩

theorem field_lead {declared : Field} (wellFormed : declared.WellFormed) {opening : List Token}
    (leads : opening.map (·.kind) = declared.lead) (rest : List Token) :
    field (opening ++ rest) =
      numbered .fieldNumber Field.number? .fieldNumberOutOfRange (fun number => { declared with number }) rest := by
  have kinds : declared.lead = declared.label.parts.flatMap Part.kinds ++
      ((Part.name declared.typeName).kinds ++ [.identifier declared.name, .symbol '=']) := by
    simp [Field.lead, Part.kinds_word wellFormed.name]
  rw [kinds] at leads
  obtain ⟨labelTokens, others, rfl, isLabel, leads⟩ := List.map_eq_append_iff.mp leads
  obtain ⟨typeTokens, others, rfl, isType, leads⟩ := List.map_eq_append_iff.mp leads
  obtain ⟨named, others, rfl, isName, leads⟩ := cons_of_kinds leads
  obtain ⟨equals, others, rfl, isEquals, leads⟩ := cons_of_kinds leads
  obtain rfl := List.map_eq_nil_iff.mp leads
  -- Label and type look one token ahead: at the type and at the name.
  have labelRead : label (labelTokens ++ (typeTokens ++ named :: equals :: rest)) =
      .ok (declared.label, typeTokens ++ named :: equals :: rest) := by
    apply local_label.read_of_reads
    rw [isLabel, List.map_append, isType]
    exact reads_label declared.label (ofKeyword?_of_type wellFormed _)
  have typeRead : dottedName .fieldType (typeTokens ++ named :: equals :: rest) =
      .ok (declared.typeName, named :: equals :: rest) := by
    apply (local_dottedName .fieldType).read_of_reads
    rw [isType]
    exact reads_dottedName .fieldType wellFormed.type (by simp [isName])
  obtain ⟨typeToken, peeked⟩ : ∃ token, peek .fieldType (typeTokens ++ named :: equals :: rest) =
      .ok (token, typeTokens ++ named :: equals :: rest) := by
    cases typeTokens with
    | nil => exact ⟨named, rfl⟩
    | cons token others => exact ⟨token, rfl⟩
  have plain : nextIs '<' (named :: equals :: rest) = .ok (false, named :: equals :: rest) := by
    rw [nextIs, Token.isSymbol, isName]
    rfl
  have supported : require (declared.typeName ≠ "group" && !(declared.typeName = "map" && false))
      (.unsupported typeToken.position.line declared.typeName) (named :: equals :: rest) =
      .ok ((), named :: equals :: rest) := by
    simp [require, wellFormed.notGroup, pure]
  have split : labelTokens ++ (typeTokens ++ [named, equals]) ++ rest =
      labelTokens ++ (typeTokens ++ named :: equals :: rest) := by simp
  rw [split, field, bind_of_ok labelRead, bind_of_ok peeked, bind_of_ok typeRead,
    bind_of_ok plain, bind_of_ok supported, bind_of_ok (identifier_cons isName _ _),
    bind_of_ok (symbol_cons isEquals _)]
  rfl

theorem messageItem_holds {declared : Field} (wellFormed : declared.WellFormed) {literal : Literal} {own : List Token}
    (holds : Holds declared.lead literal own) (after : List Token) :
    messageItem (own ++ after) = (literal.verdict Field.number? .fieldNumberOutOfRange).map
      fun number => (.field { declared with number }, after) := by
  obtain ⟨opening, closing, rfl, leads, closes⟩ := holds
  have read : field (opening ++ (literal.tokens ++ (closing ++ after))) =
      (literal.verdict Field.number? .fieldNumberOutOfRange).map fun number => ({ declared with number }, after) := by
    rw [field_lead wellFormed leads, numbered_tokens _ _ _ _ literal closes]
  obtain ⟨word, opens, free⟩ := head?_lead wellFormed
  rw [← leads, List.head?_map, Option.map_eq_some_iff] at opens
  obtain ⟨token, first, isWord⟩ := opens
  obtain ⟨others, rfl⟩ := List.head?_eq_some_iff.mp first
  rw [List.append_assoc, List.append_assoc]
  exact (messageItem_of_word isWord free _).trans (map_of_read read MessageItem.field)

theorem enumItem_holds {declared : EnumValue} (wellFormed : declared.WellFormed) {literal : Literal} {own : List Token}
    (holds : Holds declared.lead literal own) (after : List Token) :
    enumItem (own ++ after) = (literal.verdict EnumValue.ordinal? .ordinalOutOfRange).map
      fun ordinal => (.value { declared with ordinal }, after) := by
  obtain ⟨opening, closing, rfl, leads, closes⟩ := holds
  rw [EnumValue.lead_eq wellFormed] at leads
  obtain ⟨named, others, rfl, isName, leads⟩ := cons_of_kinds leads
  obtain ⟨equals, others, rfl, isEquals, leads⟩ := cons_of_kinds leads
  obtain rfl := List.map_eq_nil_iff.mp leads
  have read : enumValue declared.name (equals :: (literal.tokens ++ (closing ++ after))) =
      (literal.verdict EnumValue.ordinal? .ordinalOutOfRange).map fun ordinal => ({ declared with ordinal }, after) := by
    rw [enumValue, bind_of_ok (symbol_cons isEquals _)]
    exact numbered_tokens _ _ _ _ literal closes after
  rw [List.append_assoc, List.append_assoc, List.cons_append, List.cons_append, enumItem, next_bind_cons,
    EnumItem.Opening.ofKind_eq_value_iff.mpr ⟨isName, wellFormed.notSetting, wellFormed.notReserved⟩]
  exact map_of_read read EnumItem.value

theorem Holds.fits {lead : List Token.Kind} {literal : Literal} {own : List Token} (holds : Holds lead literal own)
    {word : String} (opens : lead.head? = some (.identifier word)) : Frame.Fits own := by
  obtain ⟨opening, closing, rfl, leads, -⟩ := holds
  refine Frame.fits_of_kinds (List.map_append ..) ⟨.identifier word, ?_, by simp⟩
  rw [leads, List.head?_append, opens]
  rfl

end Parser

theorem filterMap_middle {α β : Type} {pick : α → Option β} {before after : List α} {first second : α} {one other : β}
    (same : (before ++ first :: after).filterMap pick = (before ++ second :: after).filterMap pick)
    (isFirst : pick first = some one) (isSecond : pick second = some other) : one = other := by
  rw [List.filterMap_append, List.filterMap_append, List.filterMap_cons_some isFirst,
    List.filterMap_cons_some isSecond] at same
  exact (List.cons.inj (List.append_cancel_left same)).1

namespace SchemaFile

theorem fill_field_injective (identifier : Identifier) (frame : Parser.MessageFrame) :
    Function.Injective fun field => ofStatements identifier (frame.fill .message (.field field)) := by
  intro first second same
  -- Full names depend on the package, which no field changes.
  have package : packageOf (frame.fill .message (.field first)) = packageOf (frame.fill .message (.field second)) :=
    congrArg SchemaFile.package same
  have messages := congrArg SchemaFile.messages same
  simp only [ofStatements, package] at messages
  have fields := congrArg Message.fields (filterMap_middle messages rfl rfl)
  exact filterMap_middle fields rfl rfl

theorem fill_value_injective (identifier : Identifier) (frame : Parser.EnumFrame) :
    Function.Injective fun value => ofStatements identifier (frame.fill .enumeration (.value value)) := by
  intro first second same
  have package : packageOf (frame.fill .enumeration (.value first)) =
      packageOf (frame.fill .enumeration (.value second)) := congrArg SchemaFile.package same
  have enumerations := congrArg SchemaFile.enumerations same
  simp only [ofStatements, package] at enumerations
  have values := congrArg Enumeration.values (filterMap_middle enumerations rfl rfl)
  exact filterMap_middle values rfl rfl

end SchemaFile

namespace Literal

/-- What becomes of a file whose `toInt`-valued number is given by the literal: it is `file` of the number that
the literal stands for, if that is in range, and otherwise the literal is refused at its place. -/
structure Settles {β : Type} (literal : Literal) (toInt : β → Int) (low high : Int) (refuse : Int64 → Malformation)
    (identifier : Identifier) (file : β → SchemaFile) (outcome : Except ParseError SchemaFile) : Prop where
  accepted_iff : ∀ number, outcome = .ok (file number) ↔
    literal.Means (toInt number) ∧ low ≤ toInt number ∧ toInt number ≤ high
  outside : ∀ written, literal.Means written.toInt → ¬ (low ≤ written.toInt ∧ written.toInt ≤ high) →
    outcome = .error (.malformed identifier literal.start (refuse written))
  unreadable : (¬ ∃ written, literal.Means written) →
    outcome = .error (.malformed identifier literal.position (.invalidInteger literal.text))

end Literal

namespace Parser

theorem Frame.settles {α β : Type} {keyword : String} {item : Parser α} {advances : item.Advances}
    {make : String → List α → Statement} (frame : Frame keyword item advances)
    (declares : Declares keyword item advances make) {own : List Token} (fits : Fits own) {narrow : Int64 → Option β}
    {toInt : β → Int} {low high : Int} (admits : Literal.Admits narrow toInt low high) {literal : Literal}
    {refuse : Int64 → Malformation} {wrap : β → α}
    (read : item (own ++ frame.after) = (literal.verdict narrow refuse).map fun number => (wrap number, frame.after))
    (identifier : Identifier)
    (injective : Function.Injective fun number => SchemaFile.ofStatements identifier (frame.fill make (wrap number))) :
    literal.Settles toInt low high refuse identifier
      (fun number => .ofStatements identifier (frame.fill make (wrap number)))
      (SchemaFile.ofTokens identifier (frame.plug own)) where
  accepted_iff number := by
    rw [← Literal.verdict_eq_ok_iff admits literal refuse]
    cases outcome : literal.verdict narrow refuse with
    | error failure =>
      rw [outcome] at read
      simp [frame.ofTokens_plug_error declares fits identifier read]
    | ok other =>
      rw [outcome] at read
      rw [frame.ofTokens_plug declares fits identifier read, Except.ok.injEq, Except.ok.injEq]
      exact injective.eq_iff
  outside written means outside := by
    rw [Literal.verdict_of_outside admits means outside refuse] at read
    exact frame.ofTokens_plug_error declares fits identifier read
  unreadable none := by
    rw [Literal.verdict_of_unreadable none] at read
    exact frame.ofTokens_plug_error declares fits identifier read

end Parser

/-- Integer literals are read exactly. Whatever denotes a number is one token. If the number has at most 63 bits, its
sign is applied in 64 bits without overflow; exactly then it is read. A field or an enumeration value takes the number
exactly if it is in range. Otherwise the file is refused: at the sign, if there is one, for a number out of range, and
at the digits for a literal that is not readable. -/
theorem Literal.read_exactly (literal : Literal) :
    (∀ magnitude, Numeral.Denotes literal.text.toList magnitude →
      tokenize literal.text = .ok [⟨.integer literal.text, .start⟩] ∧
        (magnitude ≤ 2 ^ 63 - 1 → ∀ expected rest, ∃ value : Int64,
          Parser.integer expected (literal.tokens ++ rest) = .ok (value, rest) ∧
            value.toInt = literal.signed magnitude)) ∧
    (∀ expected rest,
      (∀ value, Parser.integer expected (literal.tokens ++ rest) = .ok (value, rest) ↔ literal.Means value.toInt) ∧
        ((¬ ∃ value, literal.Means value) → Parser.integer expected (literal.tokens ++ rest) =
          .error (.malformed literal.position (.invalidInteger literal.text)))) ∧
    (∀ (identifier : Identifier) (frame : Parser.MessageFrame) (declared : Field) (own : List Token),
      declared.WellFormed → Parser.Holds declared.lead literal own →
      literal.Settles (fun number : UInt32 => number.toNat) 1 (2 ^ 32 - 1) .fieldNumberOutOfRange identifier
        (fun number => .ofStatements identifier (frame.fill .message (.field { declared with number })))
        (SchemaFile.ofTokens identifier (frame.plug own))) ∧
    (∀ (identifier : Identifier) (frame : Parser.EnumFrame) (declared : EnumValue) (own : List Token),
      declared.WellFormed → Parser.Holds declared.lead literal own →
      literal.Settles Int32.toInt (-2 ^ 31) (2 ^ 31 - 1) .ordinalOutOfRange identifier
        (fun ordinal => .ofStatements identifier (frame.fill .enumeration (.value { declared with ordinal })))
        (SchemaFile.ofTokens identifier (frame.plug own))) := by
  refine ⟨?_, ?_, ?_, ?_⟩
  · intro magnitude denotes
    refine ⟨denotes.tokenize, fun small expected rest => ?_⟩
    obtain ⟨value, read, same⟩ := read_of_denotes denotes small
    exact ⟨value, by rw [literal.integer_tokens, read]; rfl, same⟩
  · intro expected rest
    rw [literal.integer_tokens]
    constructor
    · intro value
      rw [← read_eq_ok_iff]
      cases literal.read <;> simp [Except.map]
    · intro unreadable
      rw [read_eq_error unreadable]
      rfl
  · intro identifier frame declared own wellFormed holds
    obtain ⟨word, opens, -⟩ := Parser.head?_lead wellFormed
    refine frame.settles Parser.declares_message (holds.fits opens) admits_number?
      (Parser.messageItem_holds wellFormed holds frame.after) identifier ?_
    intro first second same
    have fields := SchemaFile.fill_field_injective identifier frame same
    exact congrArg Field.number fields
  · intro identifier frame declared own wellFormed holds
    have opens : declared.lead.head? = some (.identifier declared.name) := by rw [EnumValue.lead_eq wellFormed]; rfl
    refine frame.settles Parser.declares_enumeration (holds.fits opens) admits_ordinal?
      (Parser.enumItem_holds wellFormed holds frame.after) identifier ?_
    intro first second same
    have values := SchemaFile.fill_value_injective identifier frame same
    exact congrArg EnumValue.ordinal values

/-- The greatest field number in hexadecimal, and an ordinal one below the least in octal. -/
theorem Literal.read_exactly_limits :
    SchemaFile.ofTokens (.named "a") (Parser.Frame.plug (.alone "M" : Parser.MessageFrame)
        ([.identifier "T", .identifier "x", .symbol '=', .integer "0XfFFFFFFF", .symbol '[', .symbol ']',
          .symbol ';'].map (⟨·, .start⟩))) =
      .ok ⟨.named "a", none, "", [], [], [⟨"M", "M", [⟨"x", "T", 4294967295, .implicit⟩], []⟩], []⟩ ∧
    SchemaFile.ofTokens (.named "a") (Parser.Frame.plug (.alone "E" : Parser.EnumFrame)
        [⟨.identifier "A", ⟨1, 10⟩⟩, ⟨.symbol '=', ⟨1, 12⟩⟩, ⟨.symbol '-', ⟨1, 14⟩⟩, ⟨.integer "020000000001", ⟨1, 15⟩⟩,
          ⟨.symbol ';', ⟨1, 27⟩⟩]) =
      .error (.malformed (.named "a") ⟨1, 14⟩ (.ordinalOutOfRange (-2147483649))) := by
  have greatest : Numeral.Denotes "0XfFFFFFFF".toList 4294967295 :=
    Numeral.denotes_of_spelled? (by decide +kernel)
  have below : Numeral.Denotes "020000000001".toList 2147483649 := Numeral.denotes_of_spelled? (by decide +kernel)
  have field := (Literal.read_exactly ⟨none, .start, "0XfFFFFFFF"⟩).2.2.1 (.named "a") (.alone "M")
    ⟨"x", "T", 1, .implicit⟩ ([.identifier "T", .identifier "x", .symbol '=', .integer "0XfFFFFFFF", .symbol '[',
      .symbol ']', .symbol ';'].map (⟨·, .start⟩)) (by decide +kernel)
    ⟨[.identifier "T", .identifier "x", .symbol '='].map (⟨·, .start⟩),
      [.symbol '[', .symbol ']', .symbol ';'].map (⟨·, .start⟩), rfl, by decide +kernel, [.symbol '[', .symbol ']'],
      Or.inr (by decide), rfl⟩
  have value := (Literal.read_exactly ⟨some ⟨1, 14⟩, ⟨1, 15⟩, "020000000001"⟩).2.2.2 (.named "a") (.alone "E")
    ⟨"A", 0⟩ [⟨.identifier "A", ⟨1, 10⟩⟩, ⟨.symbol '=', ⟨1, 12⟩⟩, ⟨.symbol '-', ⟨1, 14⟩⟩,
      ⟨.integer "020000000001", ⟨1, 15⟩⟩, ⟨.symbol ';', ⟨1, 27⟩⟩] (by decide +kernel)
    ⟨[⟨.identifier "A", ⟨1, 10⟩⟩, ⟨.symbol '=', ⟨1, 12⟩⟩], [⟨.symbol ';', ⟨1, 27⟩⟩], rfl, by decide +kernel, [],
      Or.inl rfl, rfl⟩
  constructor
  · rw [(field.accepted_iff 4294967295).mpr ⟨⟨4294967295, greatest, by decide, rfl⟩, by decide, by decide⟩]
    decide +kernel
  · exact value.outside (-2147483649) ⟨2147483649, below, by decide, by decide⟩ (by decide)

end SchemaMarshal
