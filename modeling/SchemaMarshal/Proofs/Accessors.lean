import SchemaMarshal.Proofs.References

/-! Which fields of a marshaller share an accessor of the target class.

An accessor is called by the name of its field with the first letter in upper case, so names that differ
in the case of this letter alone are one name to the target class. Fields of a message have different
names, but validation takes the case of a letter for a difference.
-/

set_option autoImplicit false

namespace SchemaMarshal

theorem toNat_lt_of_isLetter {c : Char} (letter : Lexeme.isLetter c = true) : c.toNat < 128 := by
  rw [Lexeme.isLetter, Bool.or_eq_true, isAlpha_iff_toNat, decide_eq_true_eq] at letter
  rcases letter with alpha | rfl
  · omega
  · decide

-- Each case can be told from the other, so either of them decides whether two letters are the same.
theorem toUpper_eq_iff {c d : Char} (first : Lexeme.isLetter c = true) (second : Lexeme.isLetter d = true) :
    c.toUpper = d.toUpper ↔ c.toLower = d.toLower := by
  have table : ∀ code < 128, (Char.ofNat code).toUpper.toLower = (Char.ofNat code).toLower ∧
      (Char.ofNat code).toLower.toUpper = (Char.ofNat code).toUpper := by decide +kernel
  have there : ∀ {e : Char}, Lexeme.isLetter e = true → e.toUpper.toLower = e.toLower ∧ e.toLower.toUpper = e.toUpper := by
    intro e letter
    have entry := table e.toNat (toNat_lt_of_isLetter letter)
    rwa [Char.ofNat_toNat] at entry
  constructor
  · intro same
    rw [← (there first).1, ← (there second).1, same]
  · intro same
    rw [← (there first).2, ← (there second).2, same]

namespace Name

/-- Names that differ at most in the case of their first letter. -/
def SameButForCase (first second : String) : Prop :=
  first.toList.head?.map Char.toLower = second.toList.head?.map Char.toLower ∧
    first.toList.tail = second.toList.tail

instance (first second : String) : Decidable (SameButForCase first second) :=
  inferInstanceAs (Decidable (_ ∧ _))

theorem exists_letter_of_isWord {word : List Char} (valid : isWord word = true) :
    ∃ initial rest, word = initial :: rest ∧ Lexeme.isLetter initial = true := by
  cases word with
  | nil => cases valid
  | cons initial rest =>
    rw [isWord, Bool.and_eq_true] at valid
    exact ⟨initial, rest, rfl, valid.1⟩

end Name

theorem Text.toList_capitalize {text : String} {initial : Char} {rest : List Char}
    (letters : text.toList = initial :: rest) (letter : Lexeme.isLetter initial = true) :
    (capitalize text).toList = initial.toUpper :: rest := by
  unfold capitalize
  rw [letters]
  simp only [upper, toNat_lt_of_isLetter letter, if_true, String.toList_ofList, List.singleton_append]

section

variable {first second : String} (firstWord : Name.isWord first.toList = true)
  (secondWord : Name.isWord second.toList = true)
include firstWord secondWord

theorem Text.capitalize_eq_iff : capitalize first = capitalize second ↔ Name.SameButForCase first second := by
  obtain ⟨initial, rest, letters, letter⟩ := Name.exists_letter_of_isWord firstWord
  obtain ⟨other, otherRest, otherLetters, otherLetter⟩ := Name.exists_letter_of_isWord secondWord
  rw [← String.toList_inj, toList_capitalize letters letter, toList_capitalize otherLetters otherLetter,
    List.cons.injEq, toUpper_eq_iff letter otherLetter, Name.SameButForCase, letters, otherLetters]
  simp

theorem Naming.setter_eq_iff : setter first = setter second ↔ Name.SameButForCase first second := by
  rw [← Text.capitalize_eq_iff firstWord secondWord, setter, setter, String.append_right_inj]

/-- Getters of one form agree as setters do, and the two forms begin with different letters. -/
theorem Access.getter_eq_iff (access other : Access) :
    access.getter first = other.getter second ↔
      Name.SameButForCase first second ∧ (access = .scalar .bool ↔ other = .scalar .bool) := by
  have different : ∀ left right : String, Naming.booleanGetter left ≠ Naming.getter right := by
    intro left right same
    have heads := congrArg (fun text => text.toList.head?) same
    simp [Naming.booleanGetter, Naming.getter, String.toList_append] at heads
  rw [← Text.capitalize_eq_iff firstWord secondWord, getter, getter]
  by_cases boolean : access = .scalar .bool <;> by_cases otherBoolean : other = .scalar .bool
  · simp [boolean, otherBoolean, Naming.booleanGetter]
  · simp [boolean, otherBoolean, different]
  · simp [boolean, otherBoolean, (different _ _).symm]
  · simp [boolean, otherBoolean, Naming.getter]

end

structure Accessor.Named (accessor : Accessor) : Prop where
  word : Name.isWord accessor.fieldName.toList = true
  getter : accessor.getter = accessor.access.getter accessor.fieldName
  setter : accessor.setter = Naming.setter accessor.fieldName

theorem named_of_classify {table : SymbolTable} {packageOption : String} {file : SchemaFile} {message : Message}
    {field : Field} {accessor : Accessor} (word : Name.isWord field.name.toList = true)
    (classified : classify table packageOption file message field = .ok accessor) : accessor.Named := by
  unfold classify at classified
  split at classified
  · cases classified
    exact ⟨word, rfl, rfl⟩
  · cases classified

section

variable {options : GatherOptions} {tree : FileTree} {sources : List Source} {table : SymbolTable}
  {conventions : Conventions} {marshaller : MessageMarshaller}

theorem named_of_generated (texts : ∀ source ∈ sources, source.IsText)
    (gathered : SymbolTable.gather options tree sources = .ok table)
    (made : .message marshaller ∈ (generate table conventions).marshallers) :
    ∀ field ∈ marshaller.fields, field.Named := by
  obtain ⟨file, user, message, declared, made⟩ := messageMarshaller_of_mem made
  have wellFormed := SymbolTable.wellFormed_of_gather texts gathered (List.mem_filter.mp user).1
  intro accessor member
  obtain ⟨field, listed, classified⟩ := exists_left_of_forall₂ (messageMarshaller_eq_ok made).2.2 member
  exact named_of_classify ((wellFormed.messages message declared).fields field listed).name classified

/-- No two fields are set through the same accessor exactly if no two names differ only in the case of
their first letter. No two are read through the same one exactly if, of any two with such names, one is
a single boolean and the other is not. -/
theorem MessageMarshaller.accessors_nodup_iff (texts : ∀ source ∈ sources, source.IsText)
    (gathered : SymbolTable.gather options tree sources = .ok table)
    (made : .message marshaller ∈ (generate table conventions).marshallers) :
    ((marshaller.fields.map (·.setter)).Nodup ↔
      marshaller.fields.Pairwise fun first second => ¬ Name.SameButForCase first.fieldName second.fieldName) ∧
    ((marshaller.fields.map (·.getter)).Nodup ↔
      marshaller.fields.Pairwise fun first second => Name.SameButForCase first.fieldName second.fieldName →
        ¬ (first.access = .scalar .bool ↔ second.access = .scalar .bool)) := by
  have named := named_of_generated texts gathered made
  constructor
  · rw [List.Nodup, List.pairwise_map]
    refine List.Pairwise.iff_of_mem fun {first second} member otherMember => not_congr ?_
    rw [(named first member).setter, (named second otherMember).setter]
    exact Naming.setter_eq_iff (named first member).word (named second otherMember).word
  · rw [List.Nodup, List.pairwise_map]
    refine List.Pairwise.iff_of_mem fun {first second} member otherMember => ?_
    rw [ne_eq, (named first member).getter, (named second otherMember).getter,
      Access.getter_eq_iff (named first member).word (named second otherMember).word, not_and]

end

/-- Two fields that are set through one accessor and read through two, since one of them is a boolean. -/
theorem MessageMarshaller.accessors_nodup_iff_boolean :
    let tree : FileTree := ⟨.directory .empty, []⟩
    let source : Source := .text (.named "a")
      "package p; message M \x7b bool done = 1; string Done = 2; repeated bool _done = 3; \x7d"
    let marshaller : MessageMarshaller :=
      ⟨"MMessageMarshaller", "p", "p.M", "p.M",
        [⟨"done", "isDone", "setDone", .scalar .bool⟩, ⟨"Done", "getDone", "setDone", .scalar .string⟩,
         ⟨"_done", "get_done", "set_done", .collection "Boolean"⟩]⟩
    ∃ table, SymbolTable.gather {} tree [source] = .ok table ∧
      .message marshaller ∈ (generate table {}).marshallers ∧
      ¬ (marshaller.fields.map (·.setter)).Nodup ∧ (marshaller.fields.map (·.getter)).Nodup := by
  intro tree source marshaller
  let file : SchemaFile :=
    ⟨.named "a", none, "p", [], [], [⟨"M", "p.M",
      [⟨"done", "bool", 1, .implicit⟩, ⟨"Done", "string", 2, .implicit⟩, ⟨"_done", "bool", 3, .repeated⟩], []⟩], []⟩
  have loaded : source.load tree [] = .ok file := Source.load_ofList (by decide +kernel) (by decide +kernel)
  let table : SymbolTable := SymbolTable.wellKnown.append file
  have registered : SymbolTable.wellKnown.register file = .ok (.added table) := by decide +kernel
  have gathered := SymbolTable.gather_single loaded registered
  have made : .message marshaller ∈ (generate table {}).marshallers := by decide +kernel
  have texts : ∀ other ∈ [source], other.IsText := by simp [source]
  obtain ⟨setters, getters⟩ := accessors_nodup_iff texts gathered made
  exact ⟨table, gathered, made, mt setters.mp (by decide), getters.mpr (by decide)⟩

/-- Two names that are one name to the target class pass validation. -/
theorem MessageMarshaller.accessors_shared :
    let tree : FileTree := ⟨.directory .empty, []⟩
    let source : Source := .text (.named "a") "package p; message M \x7b int32 a = 1; int32 A = 2; \x7d"
    let marshaller : MessageMarshaller :=
      ⟨"MMessageMarshaller", "p", "p.M", "p.M",
        [⟨"a", "getA", "setA", .scalar .int32⟩, ⟨"A", "getA", "setA", .scalar .int32⟩]⟩
    ∃ table, SymbolTable.gather {} tree [source] = .ok table ∧
      .message marshaller ∈ (generate table {}).marshallers ∧
      ¬ (marshaller.fields.map (·.setter)).Nodup ∧ ¬ (marshaller.fields.map (·.getter)).Nodup := by
  intro tree source marshaller
  let file : SchemaFile :=
    ⟨.named "a", none, "p", [], [],
      [⟨"M", "p.M", [⟨"a", "int32", 1, .implicit⟩, ⟨"A", "int32", 2, .implicit⟩], []⟩], []⟩
  have loaded : source.load tree [] = .ok file := Source.load_ofList (by decide +kernel) (by decide +kernel)
  let table : SymbolTable := SymbolTable.wellKnown.append file
  have registered : SymbolTable.wellKnown.register file = .ok (.added table) := by decide +kernel
  have made : .message marshaller ∈ (generate table {}).marshallers := by decide +kernel
  exact ⟨table, SymbolTable.gather_single loaded registered, made, by decide, by decide⟩

end SchemaMarshal
