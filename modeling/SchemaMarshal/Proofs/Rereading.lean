import SchemaMarshal.Proofs.Acceptance

/-! What is read once is read again, whichever way it goes.

Reading makes one property of each field, with a value that writing takes as it is. So a record that
was read comes back unchanged from any document that answers with its values: from the one it is
written to, and from its own properties, which is how a nested record is read.
-/

set_option autoImplicit false

namespace SchemaMarshal

theorem RecordOf.assign_congr {first second : Accessor → Value} (record : Record) {fields : List Accessor}
    (same : ∀ field ∈ fields, first field = second field) :
    record.assign first fields = record.assign second fields := by
  induction fields generalizing record with
  | nil => rfl
  | cons field rest ih =>
    rw [List.forall_mem_cons] at same
    calc record.assign first (field :: rest)
        = (record.set field.fieldName (first field)).assign first rest := rfl
      _ = (record.set field.fieldName (second field)).assign second rest := by rw [same.1, ih _ same.2]
      _ = record.assign second (field :: rest) := rfl

theorem Document.value_ofRecord (record : Record) (name : String) :
    (Document.ofRecord record).value name = record.get name := rfl

theorem Document.value_of_get? {document : Document} {name : String} {value : Value}
    (first : document.get? name = some value) : document.value name = value := by
  rw [Document.value, first, Option.getD_some]

namespace MessageMarshaller

theorem readFields_eq_ok_iff {document : Document} {record result : Record} {fields : List Accessor} :
    readFields document record fields = .ok result ↔
      (∀ field ∈ fields, field.access.Fits (document.value field.fieldName)) ∧
        result = record.assign (fun field => field.access.carried (document.value field.fieldName)) fields := by
  have determined (fits : ∀ field ∈ fields, field.access.Fits (document.value field.fieldName)) :
      readFields document record fields =
        .ok (record.assign (fun field => field.access.carried (document.value field.fieldName)) fields) :=
    readFields_of_reads _ record fun field member => field.read_of_fits document (fits field member)
  constructor
  · intro read
    have fits := readFields_isOk_iff.mp ⟨result, read⟩
    rw [determined fits, Except.ok.injEq] at read
    exact ⟨fits, read.symm⟩
  · rintro ⟨fits, rfl⟩
    exact determined fits

section

variable {marshaller : MessageMarshaller} {document : Document} {record : Record}

/-- A field that was read holds what is left of its entry, and passes through its access once more
without a change. -/
theorem get_of_read (distinct : (marshaller.fields.map (·.fieldName)).Nodup)
    (read : marshaller.read document = .ok record) {field : Accessor} (member : field ∈ marshaller.fields) :
    field.access.Fits (record.get field.fieldName) ∧
      field.access.carried (record.get field.fieldName) = record.get field.fieldName := by
  obtain ⟨fits, rfl⟩ := readFields_eq_ok_iff.mp read
  rw [RecordOf.get_assign_of_mem _ _ distinct member]
  exact ⟨(fits field member).carried, Access.carried_carried _ _⟩

theorem read_of_values (distinct : (marshaller.fields.map (·.fieldName)).Nodup)
    (read : marshaller.read document = .ok record) {other : Document}
    (same : ∀ field ∈ marshaller.fields, other.value field.fieldName = record.get field.fieldName) :
    marshaller.read other = .ok record := by
  have settled : record = (RecordOf.empty marshaller.targetClass).assign
      (fun field => record.get field.fieldName) marshaller.fields := by
    have made := (readFields_eq_ok_iff.mp read).2
    refine made.trans (RecordOf.assign_congr _ fun field member => ?_)
    rw [made, RecordOf.get_assign_of_mem _ _ distinct member]
  refine readFields_eq_ok_iff.mpr ⟨fun field member => ?_, ?_⟩
  · rw [same field member]
    exact (get_of_read distinct read member).1
  · refine settled.trans (RecordOf.assign_congr _ fun field member => ?_)
    rw [same field member, (get_of_read distinct read member).2]

theorem read_write_of_read (distinct : (marshaller.fields.map (·.fieldName)).Nodup)
    (read : marshaller.read document = .ok record) :
    ∃ written, marshaller.write .empty record = ⟨written, none⟩ ∧ marshaller.read written = .ok record := by
  have fits : ∀ field ∈ marshaller.fields, field.access.Fits (record.get field.fieldName) :=
    fun field member => (get_of_read distinct read member).1
  refine ⟨⟨entries record marshaller.fields⟩, writeFields_of_fits .empty fits, ?_⟩
  apply read_of_values distinct read
  intro field member
  rw [value_entries record distinct member, (get_of_read distinct read member).2]

theorem readValue_of_read (distinct : (marshaller.fields.map (·.fieldName)).Nodup)
    (read : marshaller.read document = .ok record) {holder : Document} {name : String}
    (first : holder.get? name = some (.object record)) :
    (Marshaller.message marshaller).readValue holder name = .ok (.object record) := by
  have nested : marshaller.read (.ofRecord record) = .ok record :=
    read_of_values distinct read fun field _ => Document.value_ofRecord record field.fieldName
  have found : holder.readObject name marshaller.targetClass = .ok (.object record) := by
    rw [Document.readObject, Document.value_of_get? first]
  simp only [Marshaller.readValue, found, nested, bind, Except.bind, pure, Except.pure]

end

/-- A record that a generated marshaller has read, from whatever document, can be written, is read
from what was written as the same record, and is the same once more where it is nested under a name. -/
theorem read_stable {options : GatherOptions} {tree : FileTree} {sources : List Source} {table : SymbolTable}
    (gathered : SymbolTable.gather options tree sources = .ok table) {conventions : Conventions}
    {marshaller : MessageMarshaller} (made : .message marshaller ∈ (generate table conventions).marshallers)
    {document : Document} {record : Record} (read : marshaller.read document = .ok record) :
    (∃ written, marshaller.write .empty record = ⟨written, none⟩ ∧ marshaller.read written = .ok record) ∧
    ∀ (holder : Document) (name : String), holder.get? name = some (.object record) →
      (Marshaller.message marshaller).readValue holder name = .ok (.object record) := by
  have distinct := fieldNames_nodup_of_generated gathered made
  exact ⟨read_write_of_read distinct read, fun _ _ first => readValue_of_read distinct read first⟩

/-- The document has two entries of one name, none for the list, and one that no field asks for. -/
theorem read_stable_repeated :
    let tree : FileTree := ⟨.directory .empty, []⟩
    let source : Source := .text (.named "a")
      "package p; message M \x7b string s = 1; repeated int32 n = 2; M next = 3; \x7d"
    let marshaller : MessageMarshaller :=
      ⟨"MMessageMarshaller", "p", "p.M", "p.M",
        [⟨"s", "getS", "setS", .scalar .string⟩, ⟨"n", "getN", "setN", .collection "Integer"⟩,
         ⟨"next", "getNext", "setNext", .object "p.M"⟩]⟩
    let document : Document :=
      ⟨[("next", .enum "A"), ("extra", .int 1), ("s", .string "first"), ("s", .int 2)]⟩
    let record : Record :=
      (((RecordOf.empty "p.M").set "s" (.string "first")).set "n" (.collection [])).set "next" (.enum "A")
    let holder : Document := ⟨[("m", .object record), ("m", .null)]⟩
    ∃ table written, SymbolTable.gather {} tree [source] = .ok table ∧
      .message marshaller ∈ (generate table {}).marshallers ∧ marshaller.read document = .ok record ∧
      marshaller.write .empty record = ⟨written, none⟩ ∧ marshaller.read written = .ok record ∧
      (Marshaller.message marshaller).readValue holder "m" = .ok (.object record) := by
  intro tree source marshaller document record holder
  let file : SchemaFile :=
    ⟨.named "a", none, "p", [], [], [⟨"M", "p.M",
      [⟨"s", "string", 1, .implicit⟩, ⟨"n", "int32", 2, .repeated⟩, ⟨"next", "M", 3, .implicit⟩], []⟩], []⟩
  have loaded : source.load tree [] = .ok file := Source.load_ofList (by decide +kernel) (by decide +kernel)
  let table : SymbolTable := SymbolTable.wellKnown.append file
  have registered : SymbolTable.wellKnown.register file = .ok (.added table) := by decide +kernel
  have gathered := SymbolTable.gather_single loaded registered
  have made : .message marshaller ∈ (generate table {}).marshallers := by decide +kernel
  have read : marshaller.read document = .ok record := rfl
  obtain ⟨⟨written, wrote, back⟩, nested⟩ := read_stable gathered made read
  exact ⟨table, written, gathered, made, read, wrote, back, nested holder "m" rfl⟩

end MessageMarshaller

end SchemaMarshal
