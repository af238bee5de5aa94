import SchemaMarshal.Marshaller.Run
import SchemaMarshal.Proofs.Declarations
import SchemaMarshal.Proofs.Generation

/-! Enumerations translate between names and ordinals, one to one.

Both directions take the first case that matches. They are inverse to each other because validation
lets neither a name nor an ordinal occur twice, whatever kind of source an enumeration comes from.
-/

set_option autoImplicit false

namespace SchemaMarshal

/-- Where keys are distinct, the first match of a key is the only one. -/
theorem find?_map_eq_some_iff {α β γ : Type} [DecidableEq β] {key : α → β} (content : α → γ) {values : List α}
    (distinct : (values.map key).Nodup) {wanted : β} {found : γ} :
    (values.find? fun value => key value = wanted).map content = some found ↔
      ∃ value ∈ values, key value = wanted ∧ content value = found := by
  rw [Option.map_eq_some_iff]
  constructor
  · rintro ⟨value, first, same⟩
    exact ⟨value, List.mem_of_find?_eq_some first, by simpa using List.find?_some first, same⟩
  · rintro ⟨value, member, rfl, same⟩
    exact ⟨value, find?_key_of_mem distinct member, same⟩

theorem find?_eq_none_of_not_mem {α β : Type} [DecidableEq β] {key : α → β} {values : List α} {wanted : β}
    (absent : wanted ∉ values.map key) : (values.find? fun value => key value = wanted) = none := by
  rw [List.find?_eq_none]
  intro value member same
  exact absent (List.mem_map.mpr ⟨value, member, of_decide_eq_true same⟩)

theorem EnumValue.mem_iff {name : String} {ordinal : Int32} {values : List EnumValue} :
    ⟨name, ordinal⟩ ∈ values ↔ ∃ value ∈ values, value.name = name ∧ value.ordinal = ordinal := by
  constructor
  · intro member
    exact ⟨_, member, rfl, rfl⟩
  · rintro ⟨value, member, rfl, rfl⟩
    exact member

def Refused {α : Type} (result : Except MarshalError α) (typeName shown : String) : Prop :=
  ∃ input : EnumInput, result = .error (.invalidEnumValue typeName input) ∧ input.text = shown

namespace EnumMarshaller

theorem encodeBy_encodeBranches (marshaller : EnumMarshaller) (name : String) :
    encodeBy name marshaller.encodeBranches =
      (marshaller.values.find? fun value => value.name = name).map (·.ordinal) := by
  rw [encodeBranches, encodeBy]
  induction marshaller.values with
  | nil => rfl
  | cons value rest ih =>
    rw [List.map_cons, encodeBy, ih]
    by_cases here : value.name = name
    · simp [here]
    · simp [here]

-- The failing branch is met only behind all cases.
theorem decodeBy_decodeBranches (marshaller : EnumMarshaller) (ordinal : Int32) :
    decodeBy ordinal marshaller.decodeBranches =
      (marshaller.values.find? fun value => value.ordinal = ordinal).map (·.name) := by
  rw [decodeBranches]
  induction marshaller.values with
  | nil => rfl
  | cons value rest ih =>
    rw [List.map_cons, List.cons_append, decodeBy, ih]
    by_cases here : value.ordinal = ordinal
    · simp [here]
    · simp [here]

theorem encode_eq_ok_iff {marshaller : EnumMarshaller} {name : String} {ordinal : Int32} :
    marshaller.encode (some name) = .ok ordinal ↔
      (marshaller.values.find? fun value => value.name = name).map (·.ordinal) = some ordinal := by
  rw [← encodeBy_encodeBranches, encode]
  split <;> rename_i found <;> simp [found]

theorem decode_eq_ok_iff {marshaller : EnumMarshaller} {name : String} {ordinal : Int32} :
    marshaller.decode ordinal = .ok name ↔
      (marshaller.values.find? fun value => value.ordinal = ordinal).map (·.name) = some name := by
  rw [← decodeBy_decodeBranches, decode]
  split <;> rename_i found <;> simp [found]

/-- The marshaller takes the names of the values to their ordinals and back, by one branch for each
value, and refuses whatever else it is given. -/
structure Codes (marshaller : EnumMarshaller) (values : List EnumValue) : Prop where
  encode_iff : ∀ name ordinal, marshaller.encode (some name) = .ok ordinal ↔ ⟨name, ordinal⟩ ∈ values
  decode_iff : ∀ name ordinal, marshaller.decode ordinal = .ok name ↔ ⟨name, ordinal⟩ ∈ values
  encode_absent : Refused (marshaller.encode none) marshaller.typeName "null"
  encode_undeclared : ∀ name, name ∉ values.map (·.name) →
    Refused (marshaller.encode (some name)) marshaller.typeName name
  decode_undeclared : ∀ ordinal, ordinal ∉ values.map (·.ordinal) →
    Refused (marshaller.decode ordinal) marshaller.typeName (toString ordinal.toInt)
  decodeBranches_eq : marshaller.decodeBranches = values.map (fun value => .case value.ordinal value.name) ++ [.fail]
  ordinals_nodup : (values.map (·.ordinal)).Nodup
  encodeBranches_eq : marshaller.encodeBranches =
    .rejectAbsent :: values.map fun value => .case value.name value.ordinal
  names_nodup : (values.map (·.name)).Nodup

theorem codes_of_distinct {marshaller : EnumMarshaller} (names : (marshaller.values.map (·.name)).Nodup)
    (ordinals : (marshaller.values.map (·.ordinal)).Nodup) : marshaller.Codes marshaller.values where
  encode_iff := by
    intro name ordinal
    rw [encode_eq_ok_iff, find?_map_eq_some_iff _ names, EnumValue.mem_iff]
  decode_iff := by
    intro name ordinal
    rw [decode_eq_ok_iff, find?_map_eq_some_iff _ ordinals, EnumValue.mem_iff]
    simp only [and_comm]
  encode_absent := ⟨.absent, rfl, rfl⟩
  encode_undeclared := by
    intro name undeclared
    refine ⟨.name name, ?_, rfl⟩
    simp only [encode, encodeBy_encodeBranches, find?_eq_none_of_not_mem undeclared, Option.map_none]
  decode_undeclared := by
    intro ordinal undeclared
    refine ⟨.ordinal ordinal, ?_, rfl⟩
    simp only [decode, decodeBy_decodeBranches, find?_eq_none_of_not_mem undeclared, Option.map_none]
  decodeBranches_eq := rfl
  ordinals_nodup := ordinals
  encodeBranches_eq := rfl
  names_nodup := names

/-- Every enumeration of a gathered table is declared by a source and has passed validation there. -/
theorem enumeration_of_gather {options : GatherOptions} {tree : FileTree} {sources : List Source} {table : SymbolTable}
    (gathered : SymbolTable.gather options tree sources = .ok table) {file : SchemaFile} (listed : file ∈ table.files)
    {enumeration : Enumeration} (declared : enumeration ∈ file.enumerations) :
    (∃ source ∈ SymbolTable.allSources options sources,
      source.Declares tree options.resourceRoots (.enumeration enumeration)) ∧ enumeration.duplicate? = none := by
  obtain ⟨source, member, loaded, keep, load, rfl⟩ := SymbolTable.origin_of_gather gathered listed
  have kept : enumeration ∈ loaded.enumerations := (List.mem_filter.mp declared).1
  have valid := (SchemaFile.duplicate?_eq_none_iff loaded).mp (Source.valid_of_load load)
  exact ⟨⟨source, member, loaded, load, SchemaFile.mem_symbols_enumeration.mpr kept⟩, valid.2.2 enumeration kept⟩

/-- A generated enumeration marshaller codes the values that its enumeration declares in a source. -/
theorem codes_of_generated {options : GatherOptions} {tree : FileTree} {sources : List Source} {table : SymbolTable}
    (gathered : SymbolTable.gather options tree sources = .ok table) {conventions : Conventions}
    {marshaller : EnumMarshaller} (made : .enumeration marshaller ∈ (generate table conventions).marshallers) :
    ∃ enumeration : Enumeration,
      (∃ source ∈ SymbolTable.allSources options sources,
        source.Declares tree options.resourceRoots (.enumeration enumeration)) ∧
      enumeration.fullName = marshaller.typeName ∧ enumeration.values = marshaller.values ∧
      marshaller.Codes enumeration.values := by
  obtain ⟨file, user, enumeration, declared, rfl⟩ := enumMarshaller_of_mem made
  obtain ⟨origin, valid⟩ := enumeration_of_gather gathered (List.mem_filter.mp user).1 declared
  obtain ⟨names, ordinals⟩ := enumeration.duplicate?_eq_none_iff.mp valid
  exact ⟨enumeration, origin, rfl, rfl, codes_of_distinct names ordinals⟩

/-- A file that comes without a text, under a full name that no text gives and with the greatest ordinal. -/
theorem codes_of_generated_ready :
    let options : GatherOptions := { reservedPackage := "core", wellKnownText := "package core;" }
    let tree : FileTree := ⟨.directory .empty, []⟩
    let values : List EnumValue := [⟨"LOW", -1⟩, ⟨"HIGH", 2147483647⟩]
    let source : Source := .ready ⟨.anonymous 0, none, "p", [], [], [], [⟨"E", "the E", values, []⟩]⟩
    let marshaller : EnumMarshaller := ⟨"EEnumMarshaller", "p", "p.E", "the E", values⟩
    ∃ table, SymbolTable.gather options tree [source] = .ok table ∧
      .enumeration marshaller ∈ (generate table {}).marshallers ∧ marshaller.Codes values ∧
      marshaller.encode (some "HIGH") = .ok 2147483647 ∧ marshaller.decode (-1) = .ok "LOW" ∧
      Refused (marshaller.encode (some "null")) "the E" "null" ∧
      Refused (marshaller.decode (-2147483648)) "the E" "-2147483648" := by
  intro options tree values source marshaller
  have found : (SymbolTable.gather options tree [source]).toOption.map
      (fun table => (generate table {}).marshallers) = some [.enumeration marshaller] := by decide +kernel
  obtain ⟨table, gathered, listed⟩ := Option.map_eq_some_iff.mp found
  rw [toOption_eq_some_iff] at gathered
  have made : .enumeration marshaller ∈ (generate table {}).marshallers := by
    rw [listed]
    exact List.mem_singleton_self _
  obtain ⟨enumeration, -, -, same, codes⟩ := codes_of_generated gathered made
  rw [same] at codes
  exact ⟨table, gathered, made, codes, (codes.encode_iff _ _).mpr (by decide), (codes.decode_iff _ _).mpr (by decide),
    codes.encode_undeclared _ (by decide), codes.decode_undeclared _ (by decide)⟩

end EnumMarshaller

end SchemaMarshal
