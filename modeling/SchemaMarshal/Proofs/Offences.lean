import Mathlib.Data.List.Lex
import SchemaMarshal.Proofs.Validity

/-! The first offence in a file, by its place.

Every place where a name or a number must be new is given by positions in the lists of the file, and
the places are in order: type names, then the messages and then the enumerations, each member by member
and the name before the number. Validation reports the offence at the first place that has one.
-/

set_option autoImplicit false

namespace SchemaMarshal

section

variable {α β : Type}

/-- The value at an index also stands at an earlier one. -/
def StandsAgain (values : List α) (index : Nat) (value : α) : Prop :=
  values[index]? = some value ∧ ∃ earlier < index, values[earlier]? = some value

theorem StandsAgain.unique {values : List α} {index : Nat} {value other : α} (first : StandsAgain values index value)
    (second : StandsAgain values index other) : value = other :=
  Option.some.inj (first.1.symm.trans second.1)

end

section

variable {α β : Type} [DecidableEq β] {name : α → String} {number : α → β} {onName : String → Duplicate}
  {onNumber : β → Duplicate}

end

/-- A place where a name or a number must be new, by positions in the lists of a file. -/
inductive Place where
  | type (index : Nat)
  | fieldName (message field : Nat)
  | fieldNumber (message field : Nat)
  | valueName (enumeration value : Nat)
  | valueOrdinal (enumeration value : Nat)
  deriving DecidableEq, Repr

namespace Place

/-- Places compare by these numbers, as words do by their letters. -/
def key : Place → List Nat
  | .type index => [0, index]
  | .fieldName message field => [1, message, field, 0]
  | .fieldNumber message field => [1, message, field, 1]
  | .valueName enumeration value => [2, enumeration, value, 0]
  | .valueOrdinal enumeration value => [2, enumeration, value, 1]

def Before (first second : Place) : Prop := first.key < second.key

theorem key_injective : Function.Injective key := by
  intro first second same
  cases first <;> cases second <;> simp_all [key]

theorem before_or_eq_or_before (first second : Place) : first.Before second ∨ first = second ∨ second.Before first := by
  rcases lt_trichotomy first.key second.key with before | same | after
  · exact Or.inl before
  · exact Or.inr (Or.inl (key_injective same))
  · exact Or.inr (Or.inr after)

end Place

namespace SchemaFile

/-- What a file declares again at a place. -/
inductive Offence (file : SchemaFile) : Place → Duplicate → Prop where
  | type {index : Nat} {name : String} (again : StandsAgain file.typeNames index name) :
      Offence file (.type index) (.type name)
  | fieldName {place index : Nat} {message : Message} {name : String} (listed : file.messages[place]? = some message)
      (again : StandsAgain (message.fields.map (·.name)) index name) :
      Offence file (.fieldName place index) (.field message.name name)
  | fieldNumber {place index : Nat} {message : Message} {number : UInt32}
      (listed : file.messages[place]? = some message)
      (again : StandsAgain (message.fields.map (·.number)) index number) :
      Offence file (.fieldNumber place index) (.fieldNumber message.name number)
  | valueName {place index : Nat} {enumeration : Enumeration} {name : String}
      (listed : file.enumerations[place]? = some enumeration)
      (again : StandsAgain (enumeration.values.map (·.name)) index name) :
      Offence file (.valueName place index) (.enumValue enumeration.name name)
  | valueOrdinal {place index : Nat} {enumeration : Enumeration} {ordinal : Int32}
      (listed : file.enumerations[place]? = some enumeration)
      (again : StandsAgain (enumeration.values.map (·.ordinal)) index ordinal) :
      Offence file (.valueOrdinal place index) (.enumOrdinal enumeration.name ordinal)

/-- An offence with none at an earlier place. -/
def FirstOffence (file : SchemaFile) (place : Place) (duplicate : Duplicate) : Prop :=
  file.Offence place duplicate ∧ ∀ earlier : Place, earlier.Before place → ∀ other, ¬ file.Offence earlier other

variable {file : SchemaFile}

theorem Offence.unique {place : Place} {duplicate other : Duplicate} (first : file.Offence place duplicate)
    (second : file.Offence place other) : duplicate = other := by
  cases first with
  | type again =>
    cases second with
    | type otherAgain => rw [again.unique otherAgain]
  | fieldName listed again =>
    cases second with
    | fieldName otherListed otherAgain =>
      cases listed.symm.trans otherListed
      rw [again.unique otherAgain]
  | fieldNumber listed again =>
    cases second with
    | fieldNumber otherListed otherAgain =>
      cases listed.symm.trans otherListed
      rw [again.unique otherAgain]
  | valueName listed again =>
    cases second with
    | valueName otherListed otherAgain =>
      cases listed.symm.trans otherListed
      rw [again.unique otherAgain]
  | valueOrdinal listed again =>
    cases second with
    | valueOrdinal otherListed otherAgain =>
      cases listed.symm.trans otherListed
      rw [again.unique otherAgain]

theorem FirstOffence.unique {place otherPlace : Place} {duplicate other : Duplicate}
    (first : file.FirstOffence place duplicate) (second : file.FirstOffence otherPlace other) : duplicate = other := by
  rcases place.before_or_eq_or_before otherPlace with before | rfl | after
  · exact absurd first.1 (second.2 place before duplicate)
  · exact first.1.unique second.1
  · exact absurd second.1 (first.2 otherPlace after other)

-- The number of an earlier field is reported before the name of a later one.
example :
    let fields : List Field :=
      [⟨"x", "int32", 1, .implicit⟩, ⟨"y", "int32", 1, .implicit⟩, ⟨"x", "int32", 2, .implicit⟩]
    validate ⟨.named "a", none, "p", [], [], [⟨"M", "p.M", fields, []⟩], []⟩ =
      .error (.duplicate (.named "a") (.fieldNumber "M" 1)) := by decide

end SchemaFile

end SchemaMarshal
