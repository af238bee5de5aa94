import SchemaMarshal.Marshaller.Run
import SchemaMarshal.Proofs.Generation

/-! Records that a marshaller writes and reads back.

A value that fits the access of its field is written and read unchanged, but for a missing
collection, which comes back empty. Over a whole record this needs the field names to be distinct,
since a document is read by the first entry of a name.
-/

set_option autoImplicit false

namespace SchemaMarshal

namespace Access

/-- The kinds of value that pass through an access both ways. -/
def kinds : Access → List Value.Kind
  | .scalar .string => [.null, .string]
  | .scalar .int32 => [.null, .int]
  | .scalar .int64 => [.null, .long]
  | .scalar .double => [.null, .double]
  | .scalar .float => [.null, .float]
  | .scalar .bool => [.null, .boolean]
  | .collection _ => [.null, .collection]
  | .object _ => [.null, .object, .enum]

def Fits (access : Access) (value : Value) : Prop := value.kind ∈ access.kinds

instance (access : Access) (value : Value) : Decidable (access.Fits value) :=
  inferInstanceAs (Decidable (value.kind ∈ access.kinds))

/-- What is left of a value on its way through an access. -/
def carried : Access → Value → Value
  | .collection _, .null => .collection []
  | _, value => value

theorem Fits.carried {access : Access} {value : Value} (fits : access.Fits value) :
    access.Fits (access.carried value) := by
  cases access with
  | scalar type => exact fits
  | object className => exact fits
  | collection elementClass =>
    cases value with
    | null => simp [Fits, kinds, Access.carried, Value.kind]
    | _ => exact fits

theorem carried_carried (access : Access) (value : Value) :
    access.carried (access.carried value) = access.carried value := by
  cases access with
  | scalar type => rfl
  | object className => rfl
  | collection elementClass => cases value <;> rfl

end Access

/-- A writer takes for a scalar what fits it. -/
theorem Scalar.accepts_iff_fits {type : Scalar} {value : Value} :
    type.accepts value = true ↔ (Access.scalar type).Fits value := by
  cases type <;> cases value <;> simp [accepts, Access.Fits, Access.kinds, Value.kind]

/-- A reader takes for a scalar what fits it too, and names the kind of anything else. -/
theorem Document.readScalar_eq (document : Document) (type : Scalar) (name : String) :
    document.readScalar type name =
      if (Access.scalar type).Fits (document.value name) then .ok (document.value name)
      else .error (.typeMismatch name (.scalar type) (document.value name).kind) := by
  unfold readScalar
  cases type <;> cases document.value name <;> rfl

namespace Accessor

theorem entry_of_fits {accessor : Accessor} {value : Value} (fits : accessor.access.Fits value) :
    accessor.entry value = .ok (accessor.access.carried value) := by
  unfold entry
  cases access : accessor.access with
  | scalar type =>
    rw [access, ← Scalar.accepts_iff_fits] at fits
    simp [fits, Access.carried]
  | object className => rfl
  | collection elementClass =>
    rw [access] at fits
    cases value with
    | null => rfl
    | collection elements => rfl
    | _ => simp [Access.Fits, Access.kinds, Value.kind] at fits

theorem read_of_fits (accessor : Accessor) (document : Document)
    (fits : accessor.access.Fits (document.value accessor.fieldName)) :
    accessor.read document = .ok (accessor.access.carried (document.value accessor.fieldName)) := by
  unfold read
  cases access : accessor.access with
  | scalar type =>
    rw [access] at fits
    simp [Document.readScalar_eq, fits, Access.carried]
  | object className =>
    rw [access] at fits
    simp only [Document.readObject, Access.carried]
    cases stored : document.value accessor.fieldName with
    | null => rfl
    | object record => rfl
    | enum constant => rfl
    | _ => simp [stored, Access.Fits, Access.kinds, Value.kind] at fits
  | collection elementClass =>
    rw [access] at fits
    simp only [Document.readCollection]
    cases stored : document.value accessor.fieldName with
    | null => rfl
    | collection elements => rfl
    | _ => simp [stored, Access.Fits, Access.kinds, Value.kind] at fits

end Accessor

namespace RecordOf

def assign (value : Accessor → Value) (record : Record) (fields : List Accessor) : Record :=
  fields.foldl (fun record field => record.set field.fieldName (value field)) record

theorem assign_className (value : Accessor → Value) (record : Record) (fields : List Accessor) :
    (assign value record fields).className = record.className := by
  induction fields generalizing record with
  | nil => rfl
  | cons field rest ih => exact ih _

theorem assign_ordered (value : Accessor → Value) {record : Record} (fields : List Accessor)
    (ordered : record.properties.Ordered) : (assign value record fields).properties.Ordered := by
  induction fields generalizing record with
  | nil => exact ordered
  | cons field rest ih => exact ih (ordered.insert field.fieldName (value field))

theorem mem_names_assign (value : Accessor → Value) (record : Record) (fields : List Accessor)
    (name : String) :
    name ∈ (assign value record fields).properties.names ↔
      name ∈ fields.map (·.fieldName) ∨ name ∈ record.properties.names := by
  induction fields generalizing record with
  | nil => simp [assign]
  | cons field rest ih =>
    have step := ih (record.set field.fieldName (value field))
    simp only [set, NameMap.mem_names_insert] at step
    rw [List.map_cons, List.mem_cons, or_assoc, or_left_comm]
    exact step

theorem get_assign_of_not_mem (value : Accessor → Value) (record : Record) {fields : List Accessor}
    {name : String} (absent : name ∉ fields.map (·.fieldName)) :
    (assign value record fields).get name = record.get name := by
  induction fields generalizing record with
  | nil => rfl
  | cons field rest ih =>
    simp only [List.map_cons, List.mem_cons, not_or] at absent
    calc (assign value record (field :: rest)).get name
        = (record.set field.fieldName (value field)).get name := ih _ absent.2
      _ = record.get name := by rw [get_set, if_neg (Ne.symm absent.1)]

theorem get_assign_of_mem (value : Accessor → Value) (record : Record) {fields : List Accessor}
    (distinct : (fields.map (·.fieldName)).Nodup) {field : Accessor} (member : field ∈ fields) :
    (assign value record fields).get field.fieldName = value field := by
  induction fields generalizing record with
  | nil => cases member
  | cons head rest ih =>
    rw [List.map_cons, List.nodup_cons] at distinct
    rcases List.mem_cons.mp member with same | later
    · subst same
      have kept := get_assign_of_not_mem value (record.set field.fieldName (value field)) distinct.1
      rw [get_set, if_pos rfl] at kept
      exact kept
    · exact ih _ distinct.2 later

end RecordOf

namespace MessageMarshaller

def entries (record : Record) (fields : List Accessor) : List (String × Value) :=
  fields.map fun field => (field.fieldName, field.access.carried (record.get field.fieldName))

theorem map_fst_entries (record : Record) (fields : List Accessor) :
    (entries record fields).map (·.1) = fields.map (·.fieldName) := by
  simp [entries]

theorem writeFields_of_fits {record : Record} (document : Document) {fields : List Accessor}
    (fits : ∀ field ∈ fields, field.access.Fits (record.get field.fieldName)) :
    writeFields record document fields = ⟨⟨document.entries ++ entries record fields⟩, none⟩ := by
  induction fields generalizing document with
  | nil => simp [writeFields, entries]
  | cons field rest ih =>
    have first := Accessor.entry_of_fits (fits field (by simp))
    have later := ih (document.append field.fieldName (field.access.carried (record.get field.fieldName)))
      fun other member => fits other (List.mem_cons_of_mem _ member)
    simp only [writeFields, first, later]
    simp [Document.append, entries]

theorem readFields_of_reads {document : Document} (value : Accessor → Value) (record : Record)
    {fields : List Accessor} (reads : ∀ field ∈ fields, field.read document = .ok (value field)) :
    readFields document record fields = .ok (record.assign value fields) := by
  induction fields generalizing record with
  | nil => rfl
  | cons field rest ih =>
    simp only [readFields, reads field (by simp)]
    exact ih _ fun other member => reads other (List.mem_cons_of_mem _ member)

-- The first entry of a field's name is its own entry, because no other field has that name.
theorem value_entries (record : Record) {fields : List Accessor}
    (distinct : (fields.map (·.fieldName)).Nodup) {field : Accessor} (member : field ∈ fields) :
    (Document.mk (entries record fields)).value field.fieldName =
      field.access.carried (record.get field.fieldName) := by
  have found : NameMap.find field.fieldName (entries record fields) =
      some (field.access.carried (record.get field.fieldName)) := by
    apply NameMap.find_of_mem
    · rw [map_fst_entries]
      exact distinct
    · exact List.mem_map.mpr ⟨field, member, rfl⟩
  simp [Document.value, Document.get?, found]

theorem read_entries {marshaller : MessageMarshaller} {record : Record}
    (distinct : (marshaller.fields.map (·.fieldName)).Nodup)
    (fits : ∀ field ∈ marshaller.fields, field.access.Fits (record.get field.fieldName)) :
    marshaller.read ⟨entries record marshaller.fields⟩ =
      .ok ((RecordOf.empty marshaller.targetClass).assign
        (fun field => field.access.carried (record.get field.fieldName)) marshaller.fields) := by
  apply readFields_of_reads
  intro field member
  have stored := value_entries record distinct member
  have storedFits : field.access.Fits
      ((Document.mk (entries record marshaller.fields)).value field.fieldName) := by
    rw [stored]
    exact (fits field member).carried
  rw [Accessor.read_of_fits field _ storedFits, stored, Access.carried_carried]

theorem fieldNames_nodup_of_generated {options : GatherOptions} {tree : FileTree} {sources : List Source}
    {table : SymbolTable} (gathered : SymbolTable.gather options tree sources = .ok table)
    {conventions : Conventions} {marshaller : MessageMarshaller}
    (made : .message marshaller ∈ (generate table conventions).marshallers) :
    (marshaller.fields.map (·.fieldName)).Nodup := by
  obtain ⟨file, user, message, declared, made⟩ := messageMarshaller_of_mem made
  have valid := SymbolTable.message_valid_of_gather gathered (List.mem_filter.mp user).1 declared
  rw [messageMarshaller_fieldNames made]
  exact (message.duplicate?_eq_none_iff.mp valid).1

/-- What a generated marshaller writes of a record it reads back: its own fields in the order of
their declaration, each with the value it had. Other properties of the record and its class are
left out. -/
theorem roundTrip_of_generated {options : GatherOptions} {tree : FileTree} {sources : List Source}
    {table : SymbolTable} (gathered : SymbolTable.gather options tree sources = .ok table)
    {conventions : Conventions} {marshaller : MessageMarshaller}
    (made : .message marshaller ∈ (generate table conventions).marshallers) {record : Record}
    (fits : ∀ field ∈ marshaller.fields, field.access.Fits (record.get field.fieldName)) :
    ∃ document result, marshaller.write .empty record = ⟨document, none⟩ ∧
      document.names = marshaller.fields.map (·.fieldName) ∧
      (∃ file ∈ table.userFiles, ∃ message ∈ file.messages, message.fullName = marshaller.typeName ∧
        document.names = message.fields.map (·.name)) ∧
      marshaller.read document = .ok result ∧ result.className = marshaller.targetClass ∧
      result.properties.names.Perm (marshaller.fields.map (·.fieldName)) ∧
      ∀ field ∈ marshaller.fields,
        result.get field.fieldName = field.access.carried (record.get field.fieldName) := by
  have distinct := fieldNames_nodup_of_generated gathered made
  obtain ⟨file, user, message, declared, made⟩ := messageMarshaller_of_mem made
  have names := map_fst_entries record marshaller.fields
  refine ⟨⟨entries record marshaller.fields⟩, _, writeFields_of_fits .empty fits, names, ?_,
    read_entries distinct fits, RecordOf.assign_className _ _ _, ?_, ?_⟩
  · exact ⟨file, user, message, declared, (messageMarshaller_eq_ok made).1.symm, names.trans (messageMarshaller_fieldNames made)⟩
  · apply (List.perm_ext_iff_of_nodup (RecordOf.assign_ordered _ _ NameMap.ordered_empty).nodup distinct).mpr
    intro name
    rw [RecordOf.mem_names_assign]
    exact or_iff_left List.not_mem_nil
  · intro field member
    exact RecordOf.get_assign_of_mem _ _ distinct member

/-- The record lacks its list and has a property of its own. -/
theorem roundTrip_of_generated_lists :
    let source : Source := .text (.named "m")
      "package p; message M \x7b string s = 1; repeated int32 n = 2; M next = 3; \x7d"
    let marshaller : MessageMarshaller :=
      ⟨"MMessageMarshaller", "p", "p.M", "p.M",
        [⟨"s", "getS", "setS", .scalar .string⟩, ⟨"n", "getN", "setN", .collection "Integer"⟩,
         ⟨"next", "getNext", "setNext", .object "p.M"⟩]⟩
    let record : Record := ((RecordOf.empty "other").set "s" (.string "text")).set "extra" (.int 1)
    ∃ table document result,
      SymbolTable.gather { wellKnownText := "" } ⟨.directory .empty, []⟩ [source] = .ok table ∧
      .message marshaller ∈ (generate table {}).marshallers ∧
      marshaller.write .empty record = ⟨document, none⟩ ∧ marshaller.read document = .ok result ∧
      result.className = "p.M" ∧ result.properties.names.Perm ["s", "n", "next"] ∧
      ∀ field ∈ marshaller.fields,
        result.get field.fieldName = field.access.carried (record.get field.fieldName) := by
  intro source marshaller record
  have found : (SymbolTable.gather { wellKnownText := "" } ⟨.directory .empty, []⟩ [source]).toOption.bind
      (fun table => (generate table {}).find? "p.M") = some (.message marshaller) := by decide +kernel
  obtain ⟨table, gathered, listed⟩ := Option.bind_eq_some_iff.mp found
  have made := List.mem_of_find?_eq_some listed
  have fits : ∀ field ∈ marshaller.fields, field.access.Fits (record.get field.fieldName) := by decide
  obtain ⟨document, result, written, -, -, back, className, names, values⟩ :=
    roundTrip_of_generated (toOption_eq_some_iff.mp gathered) made fits
  exact ⟨table, document, result, toOption_eq_some_iff.mp gathered, made, written, back, className, names, values⟩

end MessageMarshaller

end SchemaMarshal
