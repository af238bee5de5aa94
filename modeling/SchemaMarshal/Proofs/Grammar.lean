import Mathlib.Tactic.MkIffOfInductiveProp
import SchemaMarshal.Schema.Parser
import SchemaMarshal.Text.Segments

/-! Which schema files can be written as text.

The forms of names are given on characters, each beside the words it is made of. `WellFormed` asks
for them where a file has names; it leaves strings and values of settings free.
-/

set_option autoImplicit false

namespace SchemaMarshal

namespace Name

/-- A letter or underscore, then letters, digits and underscores. -/
def isWord : List Char → Bool
  | [] => false
  | head :: tail => Lexeme.isLetter head && tail.all Lexeme.isWordPart

/-- Words with points between them. -/
def isPath (text : List Char) : Bool := (Text.splitAt '.' text).all isWord

/-- A path, perhaps after a leading point. -/
def isReference : List Char → Bool
  | '.' :: rest => isPath rest
  | text => isPath text

def isContinuation : List Char → Bool
  | [] => true
  | '.' :: rest => isPath rest
  | _ => false

/-- A path, or a reference in parentheses with a continuation. -/
def isSettingName : List Char → Bool
  | '(' :: rest =>
      match rest.dropWhile (· ≠ ')') with
      | ')' :: continuation => isReference (rest.takeWhile (· ≠ ')')) && isContinuation continuation
      | _ => false
  | text => isPath text

def continuation (words : List (List Char)) : List Char := words.flatMap ('.' :: ·)

theorem isWordPart_of_isLetter {c : Char} (letter : Lexeme.isLetter c = true) : Lexeme.isWordPart c = true := by
  simp only [Lexeme.isLetter, Lexeme.isWordPart, Char.isAlphanum, Bool.or_eq_true] at letter ⊢
  rcases letter with alpha | underscore
  · exact Or.inl (Or.inl alpha)
  · exact Or.inr underscore

theorem isWordPart_of_mem {word : List Char} (valid : isWord word = true) :
    ∀ c ∈ word, Lexeme.isWordPart c = true := by
  cases word with
  | nil => cases valid
  | cons head tail =>
    simp only [isWord, Bool.and_eq_true, List.all_eq_true] at valid
    intro c member
    rcases List.mem_cons.mp member with same | later
    · subst same
      exact isWordPart_of_isLetter valid.1
    · exact valid.2 c later

theorem not_mem_of_isWord {word : List Char} (valid : isWord word = true) {c : Char}
    (outside : Lexeme.isWordPart c = false) : c ∉ word := by
  intro member
  rw [isWordPart_of_mem valid c member] at outside
  cases outside

theorem splitAt_of_not_mem {separator : Char} {word : List Char} (absent : separator ∉ word) :
    Text.splitAt separator word = [word] := by
  induction word with
  | nil => rfl
  | cons head tail ih =>
    simp only [List.mem_cons, not_or] at absent
    rw [Text.splitAt, if_neg (Ne.symm absent.1), ih absent.2]

theorem splitAt_append_separator {separator : Char} {word : List Char} (rest : List Char)
    (absent : separator ∉ word) :
    Text.splitAt separator (word ++ separator :: rest) = word :: Text.splitAt separator rest := by
  induction word with
  | nil => simp [Text.splitAt]
  | cons head tail ih =>
    simp only [List.mem_cons, not_or] at absent
    rw [List.cons_append, Text.splitAt, if_neg (Ne.symm absent.1), ih absent.2]

theorem splitAt_append_continuation {first : List Char} {others : List (List Char)}
    (absent : ∀ word ∈ first :: others, '.' ∉ word) :
    Text.splitAt '.' (first ++ continuation others) = first :: others := by
  induction others generalizing first with
  | nil =>
    simp only [continuation, List.flatMap_nil, List.append_nil]
    exact splitAt_of_not_mem (absent first (by simp))
  | cons second others ih =>
    have later := ih fun word member => absent word (List.mem_cons_of_mem _ member)
    rw [show first ++ continuation (second :: others) = first ++ '.' :: (second ++ continuation others) from rfl,
      splitAt_append_separator _ (absent first (by simp)), later]

theorem joinChars_eq_append_continuation (first : List Char) (others : List (List Char)) :
    Text.joinChars '.' (first :: others) = first ++ continuation others := by
  induction others generalizing first with
  | nil => simp [Text.joinChars, continuation]
  | cons second others ih =>
    rw [Text.joinChars, ih]
    rfl

theorem splitAt_path {first : List Char} {others : List (List Char)}
    (valid : ∀ word ∈ first :: others, isWord word = true) :
    Text.splitAt '.' (first ++ continuation others) = first :: others :=
  splitAt_append_continuation fun word member => not_mem_of_isWord (valid word member) (by decide)

theorem isPath_iff {text : List Char} :
    isPath text = true ↔
      ∃ first others, (∀ word ∈ first :: others, isWord word = true) ∧ text = first ++ continuation others := by
  constructor
  · intro path
    cases parts : Text.splitAt '.' text with
    | nil => exact absurd parts (Text.splitAt_ne_nil '.' text)
    | cons first others =>
      rw [isPath, parts, List.all_eq_true] at path
      refine ⟨first, others, path, ?_⟩
      rw [← joinChars_eq_append_continuation, ← parts, Text.joinChars_splitAt]
  · intro written
    obtain ⟨first, others, valid, rfl⟩ := written
    rw [isPath, splitAt_path valid, List.all_eq_true]
    exact valid

theorem isContinuation_iff {text : List Char} :
    isContinuation text = true ↔ ∃ words, (∀ word ∈ words, isWord word = true) ∧ text = continuation words := by
  constructor
  · intro valid
    unfold isContinuation at valid
    split at valid
    · exact ⟨[], by simp, rfl⟩
    · rename_i rest
      obtain ⟨first, others, words, rfl⟩ := isPath_iff.mp valid
      exact ⟨first :: others, words, rfl⟩
    · cases valid
  · intro written
    obtain ⟨words, valid, rfl⟩ := written
    cases words with
    | nil => rfl
    | cons first others => exact isPath_iff.mpr ⟨first, others, valid, rfl⟩

-- The two cases of a leading point exclude each other, since no word starts with one.
theorem isReference_iff {text : List Char} :
    isReference text = true ↔ isPath text = true ∨ ∃ path, isPath path = true ∧ text = '.' :: path := by
  constructor
  · intro valid
    unfold isReference at valid
    split at valid
    · rename_i rest
      exact Or.inr ⟨rest, valid, rfl⟩
    · exact Or.inl valid
  · intro valid
    rcases valid with path | ⟨path, valid, rfl⟩
    · unfold isReference
      split
      · rename_i rest
        simp [isPath, Text.splitAt, isWord] at path
      · exact path
    · exact valid

theorem isReference_of_isWord {word : List Char} (valid : isWord word = true) : isReference word = true :=
  isReference_iff.mpr (Or.inl (isPath_iff.mpr ⟨word, [], by simpa using valid, by simp [continuation]⟩))

theorem mem_path {path : List Char} (valid : isPath path = true) {c : Char} (member : c ∈ path) :
    c = '.' ∨ Lexeme.isWordPart c = true := by
  obtain ⟨first, others, words, rfl⟩ := isPath_iff.mp valid
  simp only [continuation, List.mem_append, List.mem_flatMap, List.mem_cons] at member
  rcases member with inFirst | ⟨word, listed, point | inWord⟩
  · exact Or.inr (isWordPart_of_mem (words first (by simp)) c inFirst)
  · exact Or.inl point
  · exact Or.inr (isWordPart_of_mem (words word (List.mem_cons_of_mem _ listed)) c inWord)

theorem not_mem_reference {reference : List Char} (valid : isReference reference = true) {c : Char}
    (point : c ≠ '.') (outside : Lexeme.isWordPart c = false) : c ∉ reference := by
  intro member
  rcases isReference_iff.mp valid with path | ⟨path, valid, rfl⟩
  · rcases mem_path path member with same | part
    · exact point same
    · rw [part] at outside
      cases outside
  · rcases mem_path valid ((List.mem_cons.mp member).resolve_left point) with same | part
    · exact point same
    · rw [part] at outside
      cases outside

theorem isSettingName_iff {text : List Char} :
    isSettingName text = true ↔ isPath text = true ∨ ∃ reference words, isReference reference = true ∧
      (∀ word ∈ words, isWord word = true) ∧ text = '(' :: (reference ++ ')' :: continuation words) := by
  constructor
  · intro valid
    unfold isSettingName at valid
    split at valid
    · rename_i rest
      split at valid
      · rename_i continued after
        rw [Bool.and_eq_true] at valid
        obtain ⟨words, wordsValid, rfl⟩ := isContinuation_iff.mp valid.2
        refine Or.inr ⟨_, words, valid.1, wordsValid, ?_⟩
        rw [← after, List.takeWhile_append_dropWhile]
      · cases valid
    · exact Or.inl valid
  · intro valid
    rcases valid with path | ⟨reference, words, valid, wordsValid, rfl⟩
    · unfold isSettingName
      split
      · rename_i rest
        rcases mem_path path List.mem_cons_self with point | part
        · exact absurd point (by decide)
        · exact absurd part (by decide)
      · exact path
    · have inside : ∀ c ∈ reference, decide (c ≠ ')') = true := by
        intro c member
        apply decide_eq_true
        rintro rfl
        exact not_mem_reference valid (by decide) (by decide) member
      simp only [isSettingName]
      rw [List.dropWhile_append_of_pos inside, List.takeWhile_append_of_pos inside]
      simp [valid, isContinuation_iff.mpr ⟨words, wordsValid, rfl⟩]

end Name

theorem head?_ne_point_of_isWord {word : List Char} (valid : Name.isWord word = true) (rest : List Char) :
    (word ++ rest).head? ≠ some '.' := by
  cases word with
  | nil => cases valid
  | cons head tail =>
    intro same
    cases same
    exact Name.not_mem_of_isWord valid (by decide : Lexeme.isWordPart '.' = false) (by simp)

theorem head?_ne_point_of_isPath {path : List Char} (valid : Name.isPath path = true) (rest : List Char) :
    (path ++ rest).head? ≠ some '.' := by
  obtain ⟨first, others, words, rfl⟩ := Name.isPath_iff.mp valid
  rw [List.append_assoc]
  exact head?_ne_point_of_isWord (words first (by simp)) _

def Setting.WellFormed (setting : Setting) : Prop := Name.isSettingName setting.name.toList = true

instance : DecidablePred Setting.WellFormed :=
  fun setting => inferInstanceAs (Decidable (Name.isSettingName setting.name.toList = true))

/-- Words that do not begin the type of a field: they begin another item or are a label. -/
def Field.takenWords : List String :=
  ["option", "reserved", "extensions", "message", "enum", "oneof", "extend", "optional", "required", "repeated"]

def Field.itemWords : List String := "option" :: "reserved" :: "extensions" :: Parser.nestedKeywords

theorem Field.mem_takenWords_iff {word : String} :
    word ∈ takenWords ↔ word ∈ itemWords ∨ Label.ofKeyword? word ≠ none := by
  have keyword : Label.ofKeyword? word ≠ none ↔ word ∈ ["optional", "required", "repeated"] := by
    constructor
    · intro present
      obtain ⟨label, found⟩ := Option.ne_none_iff_exists'.mp present
      have labels : ∀ label ∈ [Label.optional, .required, .repeated],
          label.text ∈ ["optional", "required", "repeated"] := by decide
      have same : label.text = word := by simpa using List.find?_some found
      rw [← same]
      exact labels label (List.mem_of_find?_eq_some found)
    · have found : ∀ word ∈ ["optional", "required", "repeated"], Label.ofKeyword? word ≠ none := by decide
      exact found word
  rw [keyword, ← List.mem_append]
  rfl

@[mk_iff]
structure Field.WellFormed (field : Field) : Prop where
  name : Name.isWord field.name.toList = true
  type : Name.isReference field.typeName.toList = true
  notGroup : field.typeName ≠ "group"
  unlabelled : field.label = .implicit → field.typeName.toList.head? ≠ some '.' ∧
    ∀ first ∈ (Text.segments '.' field.typeName).head?, first ∉ takenWords
  positive : 1 ≤ field.number.toNat

instance : DecidablePred Field.WellFormed := fun field => decidable_of_iff _ (field.wellFormed_iff).symm

/-- Without a label, the type begins with a word that begins nothing else. -/
theorem Field.WellFormed.type_of_implicit {field : Field} (wellFormed : field.WellFormed)
    (implicit : field.label = .implicit) :
    ∃ first others, (∀ word ∈ first :: others, Name.isWord word = true) ∧
      field.typeName.toList = first ++ Name.continuation others ∧ String.ofList first ∉ takenWords := by
  obtain ⟨relative, free⟩ := wellFormed.unlabelled implicit
  rcases Name.isReference_iff.mp wellFormed.type with path | ⟨path, _, absolute⟩
  · obtain ⟨first, others, words, same⟩ := Name.isPath_iff.mp path
    refine ⟨first, others, words, same, free _ ?_⟩
    rw [Text.segments, same, Name.splitAt_path words]
    rfl
  · rw [absolute] at relative
    exact absurd rfl relative

@[mk_iff]
structure EnumValue.WellFormed (value : EnumValue) : Prop where
  name : Name.isWord value.name.toList = true
  notSetting : value.name ≠ "option"
  notReserved : value.name ≠ "reserved"

instance : DecidablePred EnumValue.WellFormed := fun value => decidable_of_iff _ (value.wellFormed_iff).symm

@[mk_iff]
structure Message.WellFormed (package : String) (message : Message) : Prop where
  name : Name.isWord message.name.toList = true
  fullName : message.fullName = qualify package message.name
  settings : ∀ setting ∈ message.settings, setting.WellFormed
  fields : ∀ field ∈ message.fields, field.WellFormed

instance (package : String) : DecidablePred (Message.WellFormed package) :=
  fun message => decidable_of_iff _ (message.wellFormed_iff package).symm

@[mk_iff]
structure Enumeration.WellFormed (package : String) (enumeration : Enumeration) : Prop where
  name : Name.isWord enumeration.name.toList = true
  fullName : enumeration.fullName = qualify package enumeration.name
  settings : ∀ setting ∈ enumeration.settings, setting.WellFormed
  values : ∀ value ∈ enumeration.values, value.WellFormed

instance (package : String) : DecidablePred (Enumeration.WellFormed package) :=
  fun enumeration => decidable_of_iff _ (enumeration.wellFormed_iff package).symm

@[mk_iff]
structure SchemaFile.WellFormed (file : SchemaFile) : Prop where
  package : file.package = "" ∨ Name.isReference file.package.toList = true
  settings : ∀ setting ∈ file.settings, setting.WellFormed
  messages : ∀ message ∈ file.messages, message.WellFormed file.package
  enumerations : ∀ enumeration ∈ file.enumerations, enumeration.WellFormed file.package

instance : DecidablePred SchemaFile.WellFormed := fun file => decidable_of_iff _ (file.wellFormed_iff).symm

end SchemaMarshal
