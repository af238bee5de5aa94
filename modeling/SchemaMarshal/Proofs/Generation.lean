import SchemaMarshal.Marshaller.Generation
import SchemaMarshal.Proofs.Gathering

/-! Where the marshallers of a report come from. -/

set_option autoImplicit false

namespace SchemaMarshal

variable {table : SymbolTable} {conventions : Conventions}

theorem mem_marshallers_iff {marshaller : Marshaller} :
    marshaller ∈ (generate table conventions).marshallers ↔
      ∃ file ∈ table.userFiles, .made marshaller ∈ fileOutcomes table conventions file := by
  simp only [generate, Report.ofOutcomes, outcomes, List.mem_filterMap, List.mem_flatMap]
  constructor
  · intro found
    obtain ⟨outcome, ⟨file, listed, member⟩, made⟩ := found
    cases outcome with
    | made other =>
      cases made
      exact ⟨file, listed, member⟩
    | failed failure => cases made
  · intro found
    obtain ⟨file, listed, member⟩ := found
    exact ⟨.made marshaller, ⟨file, listed, member⟩, rfl⟩

theorem messageMarshaller_of_mem {marshaller : MessageMarshaller}
    (member : .message marshaller ∈ (generate table conventions).marshallers) :
    ∃ file ∈ table.userFiles, ∃ message ∈ file.messages,
      messageMarshaller table conventions file message = .ok marshaller := by
  obtain ⟨file, listed, made⟩ := mem_marshallers_iff.mp member
  rcases List.mem_append.mp made with fromMessage | fromEnumeration
  · obtain ⟨message, declared, outcome⟩ := List.mem_map.mp fromMessage
    refine ⟨file, listed, message, declared, ?_⟩
    unfold messageOutcome at outcome
    split at outcome
    · rename_i other succeeded
      cases outcome
      exact succeeded
    · cases outcome
  · obtain ⟨enumeration, -, outcome⟩ := List.mem_map.mp fromEnumeration
    cases outcome

theorem enumMarshaller_of_mem {marshaller : EnumMarshaller}
    (member : .enumeration marshaller ∈ (generate table conventions).marshallers) :
    ∃ file ∈ table.userFiles, ∃ enumeration ∈ file.enumerations,
      enumMarshaller conventions file enumeration = marshaller := by
  obtain ⟨file, listed, made⟩ := mem_marshallers_iff.mp member
  rcases List.mem_append.mp made with fromMessage | fromEnumeration
  · obtain ⟨message, -, outcome⟩ := List.mem_map.mp fromMessage
    unfold messageOutcome at outcome
    split at outcome <;> cases outcome
  · obtain ⟨enumeration, declared, outcome⟩ := List.mem_map.mp fromEnumeration
    cases outcome
    exact ⟨file, listed, enumeration, declared, rfl⟩

theorem classify_fieldName {packageOption : String} {file : SchemaFile} {message : Message} {field : Field}
    {accessor : Accessor} (classified : classify table packageOption file message field = .ok accessor) :
    accessor.fieldName = field.name := by
  unfold classify at classified
  split at classified
  · cases classified
    rfl
  · cases classified

/-- A marshaller has the fields of its message, in the order of their declaration. -/
theorem messageMarshaller_eq_ok {file : SchemaFile} {message : Message} {marshaller : MessageMarshaller}
    (made : messageMarshaller table conventions file message = .ok marshaller) :
    marshaller.typeName = message.fullName ∧
      marshaller.targetClass = targetClass conventions.packageOption file message.settings message.name ∧
      List.Forall₂ (fun field accessor =>
        classify table conventions.packageOption file message field = .ok accessor)
        message.fields marshaller.fields := by
  obtain ⟨fields, classified, rest⟩ := bind_eq_ok_iff.mp made
  cases rest
  exact ⟨rfl, rfl, mapM_eq_ok_iff.mp classified⟩

theorem messageMarshaller_fieldNames {file : SchemaFile} {message : Message} {marshaller : MessageMarshaller}
    (made : messageMarshaller table conventions file message = .ok marshaller) :
    marshaller.fields.map (·.fieldName) = message.fields.map (·.name) := by
  obtain ⟨-, -, classified⟩ := messageMarshaller_eq_ok made
  generalize message.fields = declared at classified ⊢
  generalize marshaller.fields = accessors at classified ⊢
  induction classified with
  | nil => rfl
  | cons first rest ih => rw [List.map_cons, List.map_cons, ih, classify_fieldName first]

end SchemaMarshal
