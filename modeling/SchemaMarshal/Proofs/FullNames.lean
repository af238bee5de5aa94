import Mathlib.Data.List.TakeWhile
import SchemaMarshal.Proofs.Registration
import SchemaMarshal.Proofs.Validity
import SchemaMarshal.Schema.Parser

/-! Full names in files that were read from text.

There a full name is the package and the simple name, so a file that passes validation repeats none.
Where simple names have no point, they can be read off the full names.
-/

set_option autoImplicit false

namespace SchemaMarshal

theorem qualify_injective (package : String) : Function.Injective (qualify package) := by
  intro first second same
  unfold qualify at same
  split at same
  · exact same
  · rw [← String.toList_inj] at same ⊢
    simpa only [String.toList_append, List.append_cancel_left_eq] using same

theorem qualify_package_injective (name : String) : Function.Injective (qualify · name) := by
  intro first second same
  simp only [qualify] at same
  -- A name is never as long as one that is put behind a package.
  have longer : ∀ package : String, name ≠ package ++ "." ++ name := by
    intro package equal
    have lengths := congrArg (fun text => text.toList.length) equal
    simp only [String.toList_append, List.length_append] at lengths
    have point : ".".toList.length = 1 := rfl
    omega
  split at same
  · rename_i firstEmpty
    split at same
    · rename_i secondEmpty
      rw [firstEmpty, secondEmpty]
    · exact absurd same (longer second)
  · split at same
    · exact absurd same.symm (longer first)
    · rw [← String.toList_inj] at same ⊢
      simpa only [String.toList_append, List.append_cancel_right_eq] using same

theorem toList_qualify (package name : String) :
    (qualify package name).toList = name.toList ∨
      (qualify package name).toList = package.toList ++ '.' :: name.toList := by
  unfold qualify
  split
  · exact Or.inl rfl
  · right
    simp [String.toList_append]

theorem qualify_eq_self {package name : String} (simple : '.' ∉ (qualify package name).toList) :
    qualify package name = name := by
  rcases toList_qualify package name with same | pointed
  · exact String.toList_inj.mp same
  · rw [pointed] at simple
    simp at simple

/-- A simple name is what follows the last point of a full name. -/
theorem takeWhile_reverse_qualify (package : String) {name : String} (simple : '.' ∉ name.toList) :
    (qualify package name).toList.reverse.takeWhile (· ≠ '.') = name.toList.reverse := by
  have kept : ∀ c ∈ name.toList.reverse, decide (c ≠ '.') = true := by
    intro c member
    apply decide_eq_true
    rintro rfl
    exact simple (List.mem_reverse.mp member)
  rcases toList_qualify package name with bare | pointed
  · rw [bare, List.takeWhile_eq_self_iff.mpr kept]
  · rw [pointed, List.reverse_append, List.reverse_cons, List.append_assoc, List.takeWhile_append_of_pos kept]
    simp

theorem name_eq_of_qualify_eq {package other first second : String} (firstSimple : '.' ∉ first.toList)
    (secondSimple : '.' ∉ second.toList) (same : qualify package first = qualify other second) :
    first = second := by
  have reversed := takeWhile_reverse_qualify package firstSimple
  rw [same, takeWhile_reverse_qualify other secondSimple, List.reverse_inj] at reversed
  exact (String.toList_inj.mp reversed).symm

namespace SchemaFile

theorem fullName_of_mem_messages {identifier : Identifier} {statements : List Parser.Statement}
    {message : Message} (member : message ∈ (ofStatements identifier statements).messages) :
    message.fullName = qualify (ofStatements identifier statements).package message.name := by
  obtain ⟨statement, -, made⟩ := List.mem_filterMap.mp member
  split at made
  · cases made
    rfl
  · cases made

theorem fullName_of_mem_enumerations {identifier : Identifier} {statements : List Parser.Statement}
    {enumeration : Enumeration} (member : enumeration ∈ (ofStatements identifier statements).enumerations) :
    enumeration.fullName = qualify (ofStatements identifier statements).package enumeration.name := by
  obtain ⟨statement, -, made⟩ := List.mem_filterMap.mp member
  split at made
  · cases made
    rfl
  · cases made

theorem parse_eq_ok_iff {identifier : Identifier} {text : String} {file : SchemaFile} :
    parse identifier text = .ok file ↔
      ∃ tokens statements, tokenize text = .ok tokens ∧ Parser.statements false tokens = .ok statements ∧
        file = ofStatements identifier statements := by
  unfold parse
  cases tokenize text with
  | error error => simp
  | ok tokens =>
    cases parsed : Parser.statements false tokens with
    | error failure => simp [ofTokens, parsed]
    | ok statements =>
      simp only [ofTokens, parsed, Except.ok.injEq]
      constructor
      · rintro rfl
        exact ⟨tokens, statements, rfl, parsed, rfl⟩
      · rintro ⟨_, _, rfl, again, rfl⟩
        rw [parsed, Except.ok.injEq] at again
        rw [again]

theorem fullNames_of_parse {identifier : Identifier} {text : String} {file : SchemaFile}
    (parsed : parse identifier text = .ok file) :
    file.fullNames = file.typeNames.map (qualify file.package) := by
  obtain ⟨tokens, statements, -, -, rfl⟩ := parse_eq_ok_iff.mp parsed
  rw [fullNames_eq, typeNames, List.map_append, List.map_map, List.map_map]
  congr 1
  · exact List.map_congr_left fun message member => fullName_of_mem_messages member
  · exact List.map_congr_left fun enumeration member => fullName_of_mem_enumerations member

theorem fullNames_nodup_of_parse {identifier : Identifier} {text : String} {file : SchemaFile}
    (parsed : parse identifier text = .ok file) (valid : file.validate = .ok ()) : file.fullNames.Nodup := by
  rw [fullNames_of_parse parsed]
  have names := ((duplicate?_eq_none_iff file).mp ((validate_eq_ok_iff file).mp valid)).1
  exact names.map (qualify_injective file.package)

end SchemaFile

end SchemaMarshal
