import Mathlib.Data.List.Nodup
import SchemaMarshal.Schema.Validity

/-! A file that passes validation repeats no name and no number. -/

set_option autoImplicit false

namespace SchemaMarshal

theorem firstRepeat?_eq_none_iff {α : Type} [DecidableEq α] (earlier later : List α) :
    firstRepeat? earlier later = none ↔ later.Nodup ∧ ∀ value ∈ later, value ∉ earlier := by
  induction later generalizing earlier with
  | nil => simp [firstRepeat?]
  | cons head tail ih =>
    unfold firstRepeat?
    by_cases repeated : head ∈ earlier
    · simp [repeated]
    · rw [if_neg repeated, ih, List.nodup_cons]
      simp only [List.mem_cons, not_or, forall_eq_or_imp]
      constructor
      · rintro ⟨distinct, fresh⟩
        exact ⟨⟨fun again => (fresh head again).1 rfl, distinct⟩, repeated,
          fun value member => (fresh value member).2⟩
      · rintro ⟨⟨first, distinct⟩, -, fresh⟩
        exact ⟨distinct, fun value member => ⟨fun same => first (same ▸ member), fresh value member⟩⟩

section

variable {α β : Type} [DecidableEq β]

/-- The first name, or else number, that occurs among the earlier ones. Fields and values of
enumerations are both searched in this way. -/
def clashAfter? (name : α → String) (number : α → β) (onName : String → Duplicate) (onNumber : β → Duplicate)
    (earlier : List α) : List α → Option Duplicate
  | [] => none
  | value :: rest =>
      if name value ∈ earlier.map name then some (onName (name value))
      else if number value ∈ earlier.map number then some (onNumber (number value))
      else clashAfter? name number onName onNumber (value :: earlier) rest

-- Names and numbers are looked at together, so neither list can be treated by itself.
theorem clashAfter?_eq_none_iff (name : α → String) (number : α → β) (onName : String → Duplicate)
    (onNumber : β → Duplicate) (earlier later : List α) :
    clashAfter? name number onName onNumber earlier later = none ↔
      ((later.map name).Nodup ∧ ∀ value ∈ later, name value ∉ earlier.map name) ∧
        (later.map number).Nodup ∧ ∀ value ∈ later, number value ∉ earlier.map number := by
  induction later generalizing earlier with
  | nil => simp [clashAfter?]
  | cons value rest ih =>
    unfold clashAfter?
    by_cases named : name value ∈ earlier.map name
    · rw [if_pos named]
      simp only [reduceCtorEq, List.mem_cons, forall_eq_or_imp, false_iff]
      exact fun free => free.1.2.1 named
    · rw [if_neg named]
      by_cases numbered : number value ∈ earlier.map number
      · rw [if_pos numbered]
        simp only [reduceCtorEq, List.mem_cons, forall_eq_or_imp, false_iff]
        exact fun free => free.2.2.1 numbered
      · rw [if_neg numbered, ih]
        grind

end

namespace Message

theorem duplicateAfter?_eq (message : String) (earlier later : List Field) :
    duplicateAfter? message earlier later =
      clashAfter? (·.name) (·.number) (.field message) (.fieldNumber message) earlier later := by
  induction later generalizing earlier with
  | nil => rfl
  | cons field rest ih => simp only [duplicateAfter?, clashAfter?, ih]

theorem duplicate?_eq_none_iff (message : Message) :
    message.duplicate? = none ↔
      (message.fields.map (·.name)).Nodup ∧ (message.fields.map (·.number)).Nodup := by
  simp [duplicate?, duplicateAfter?_eq, clashAfter?_eq_none_iff]

end Message

namespace Enumeration

theorem duplicateAfter?_eq (enumeration : String) (earlier later : List EnumValue) :
    duplicateAfter? enumeration earlier later =
      clashAfter? (·.name) (·.ordinal) (.enumValue enumeration) (.enumOrdinal enumeration) earlier later := by
  induction later generalizing earlier with
  | nil => rfl
  | cons value rest ih => simp only [duplicateAfter?, clashAfter?, ih]

theorem duplicate?_eq_none_iff (enumeration : Enumeration) :
    enumeration.duplicate? = none ↔
      (enumeration.values.map (·.name)).Nodup ∧ (enumeration.values.map (·.ordinal)).Nodup := by
  simp [duplicate?, duplicateAfter?_eq, clashAfter?_eq_none_iff]

end Enumeration

namespace SchemaFile

theorem duplicate?_eq_none_iff (file : SchemaFile) :
    file.duplicate? = none ↔
      file.typeNames.Nodup ∧ (∀ message ∈ file.messages, message.duplicate? = none) ∧
        ∀ enumeration ∈ file.enumerations, enumeration.duplicate? = none := by
  have types := firstRepeat?_eq_none_iff [] file.typeNames
  unfold duplicate?
  split
  · rename_i name repeated
    rw [repeated] at types
    simp only [reduceCtorEq, List.not_mem_nil, not_false_eq_true, implies_true, and_true, false_iff] at types
    simp [types]
  · rename_i distinct
    rw [distinct] at types
    have names : file.typeNames.Nodup := (types.mp rfl).1
    split
    · rename_i duplicate found
      have offence : ¬ ∀ message ∈ file.messages, message.duplicate? = none := by
        rw [← List.findSome?_eq_none_iff, found]
        exact fun absent => nomatch absent
      simp only [reduceCtorEq, false_iff]
      exact fun free => offence free.2.1
    · rename_i absent
      rw [List.findSome?_eq_none_iff] at absent ⊢
      exact ⟨fun free => ⟨names, absent, free⟩, fun free => free.2.2⟩

theorem validate_eq_ok_iff (file : SchemaFile) : file.validate = .ok () ↔ file.duplicate? = none := by
  unfold validate
  split <;> rename_i found <;> simp [found]

end SchemaFile

end SchemaMarshal
