import SchemaMarshal.Proofs.Marshalling
import SchemaMarshal.Proofs.WellKnown

/-! Which values writing and reading accept, and where the two differ.

They ask for the same kinds at scalar and collection fields. An object field is written whatever it
holds, but read only if that is null, an object or a constant of an enumeration. Writing stops at the
first field that it refuses and keeps the entries before it.
-/

set_option autoImplicit false

namespace SchemaMarshal

namespace Access

/-- The values that are written; a writer does not look at what it takes for an object. -/
def Writable : Access → Value → Prop
  | .object _, _ => True
  | access, value => access.Fits value

theorem fits_carried_iff {access : Access} {value : Value} : access.Fits (access.carried value) ↔ access.Fits value := by
  cases access with
  | scalar type => rfl
  | object className => rfl
  | collection elementClass => cases value <;> simp [Fits, kinds, Access.carried, Value.kind]

theorem Writable.fits_iff {access : Access} {value : Value} (writable : access.Writable value) :
    access.Fits value ↔ ∀ className, access = .object className → access.Fits value := by
  cases access with
  | scalar type => exact ⟨fun fits _ _ => fits, fun _ => writable⟩
  | collection elementClass => exact ⟨fun fits _ _ => fits, fun _ => writable⟩
  | object className => exact ⟨fun fits _ _ => fits, fun required => required className rfl⟩

end Access

namespace Accessor

theorem entry_eq_ok_iff {accessor : Accessor} {value written : Value} :
    accessor.entry value = .ok written ↔
      accessor.access.Writable value ∧ accessor.access.carried value = written := by
  unfold entry
  cases accessor.access with
  | scalar type =>
    simp only [Access.Writable, ← Scalar.accepts_iff_fits, Access.carried]
    split <;> simp [*]
  | object className => simp [Access.Writable, Access.carried]
  | collection elementClass => cases value <;> simp [Access.Writable, Access.Fits, Access.kinds, Access.carried, Value.kind]

/-- The failure to write a value. It names the field, the one kind that its access carries besides
null, and the kind of the value. -/
def Mismatch (accessor : Accessor) (value : Value) (error : MarshalError) : Prop :=
  ∃ kind wanted, accessor.access.kinds = [.null, kind] ∧ wanted.text = kind.name ∧
    error = .typeMismatch accessor.fieldName wanted value.kind

theorem entry_eq_error {accessor : Accessor} {value : Value} {error : MarshalError}
    (failed : accessor.entry value = .error error) :
    ¬ accessor.access.Writable value ∧ accessor.Mismatch value error := by
  constructor
  · intro writable
    rw [entry_eq_ok_iff.mpr ⟨writable, rfl⟩] at failed
    cases failed
  · unfold entry at failed
    unfold Mismatch
    cases access : accessor.access with
    | scalar type =>
      simp only [access] at failed
      split at failed
      · cases failed
      · cases failed
        cases type <;> exact ⟨_, _, rfl, rfl, rfl⟩
    | object className => simp [access] at failed
    | collection elementClass =>
      simp only [access] at failed
      split at failed
      · cases failed
      · cases failed
      · cases failed
        exact ⟨.collection, .collection, rfl, rfl, rfl⟩

theorem fits_of_read {accessor : Accessor} {document : Document} {value : Value}
    (read : accessor.read document = .ok value) : accessor.access.Fits (document.value accessor.fieldName) := by
  unfold Accessor.read at read
  cases access : accessor.access with
  | scalar type =>
    simp only [access, Document.readScalar_eq] at read
    split at read
    · assumption
    · cases read
  | object className =>
    simp only [access, Document.readObject] at read
    cases stored : document.value accessor.fieldName with
    | null | object _ | enum _ => simp [Access.Fits, Access.kinds, Value.kind]
    | _ => simp [stored] at read
  | collection elementClass =>
    simp only [access, Document.readCollection] at read
    cases stored : document.value accessor.fieldName with
    | null | collection _ => simp [Access.Fits, Access.kinds, Value.kind]
    | _ => simp [stored] at read

end Accessor

namespace MessageMarshaller

theorem writeFields_eq_iff {record : Record} {document written : Document} {fields : List Accessor} :
    writeFields record document fields = ⟨written, none⟩ ↔
      (∀ field ∈ fields, field.access.Writable (record.get field.fieldName)) ∧
        written = ⟨document.entries ++ entries record fields⟩ := by
  induction fields generalizing document with
  | nil => simp [writeFields, entries, eq_comm]
  | cons field rest ih =>
    rw [writeFields]
    split
    · rename_i value stored
      obtain ⟨writable, rfl⟩ := Accessor.entry_eq_ok_iff.mp stored
      rw [ih, List.forall_mem_cons]
      simp [writable, Document.append, entries]
    · rename_i error failed
      simp [(Accessor.entry_eq_error failed).1]

theorem writeFields_stopped {record : Record} {document : Document} {fields : List Accessor} {error : MarshalError}
    (stopped : (writeFields record document fields).error = some error) :
    ∃ earlier field later, fields = earlier ++ field :: later ∧
      (∀ other ∈ earlier, other.access.Writable (record.get other.fieldName)) ∧
      ¬ field.access.Writable (record.get field.fieldName) ∧ field.Mismatch (record.get field.fieldName) error ∧
      (writeFields record document fields).document.entries = document.entries ++ entries record earlier := by
  induction fields generalizing document with
  | nil => cases stopped
  | cons first rest ih =>
    rw [writeFields] at stopped ⊢
    cases stored : first.entry (record.get first.fieldName) with
    | error other =>
      simp only [stored, Option.some.injEq] at stopped ⊢
      subst stopped
      obtain ⟨refused, mismatch⟩ := Accessor.entry_eq_error stored
      exact ⟨[], first, rest, rfl, by simp, refused, mismatch, by simp [entries]⟩
    | ok value =>
      simp only [stored] at stopped ⊢
      obtain ⟨writable, rfl⟩ := Accessor.entry_eq_ok_iff.mp stored
      obtain ⟨earlier, field, later, rfl, before, refused, mismatch, written⟩ := ih stopped
      refine ⟨first :: earlier, field, later, rfl, List.forall_mem_cons.mpr ⟨writable, before⟩, refused, mismatch, ?_⟩
      rw [written]
      simp [Document.append, entries]

theorem readFields_isOk_iff {document : Document} {record : Record} {fields : List Accessor} :
    (∃ result, readFields document record fields = .ok result) ↔
      ∀ field ∈ fields, field.access.Fits (document.value field.fieldName) := by
  induction fields generalizing record with
  | nil => simp [readFields]
  | cons field rest ih =>
    rw [List.forall_mem_cons, readFields]
    split
    · rename_i value read
      rw [ih, and_iff_right (Accessor.fits_of_read read)]
    · rename_i error failed
      have unfit : ¬ field.access.Fits (document.value field.fieldName) := by
        intro fits
        rw [Accessor.read_of_fits field document fits] at failed
        cases failed
      simp [unfit]

/-- Writing fails exactly if some field is not to be written. It then names the first such field, with
the kind that was wanted and the kind that was found, and has added an entry for each field before it;
otherwise it has added one for every field. -/
theorem write_stops (marshaller : MessageMarshaller) (document : Document) (record : Record) :
    let written := marshaller.write document record
    ((∃ error, written.error = some error) ↔
      ∃ field ∈ marshaller.fields, ¬ field.access.Writable (record.get field.fieldName)) ∧
    (∀ error, written.error = some error →
      ∃ earlier field later, marshaller.fields = earlier ++ field :: later ∧
        (∀ other ∈ earlier, other.access.Writable (record.get other.fieldName)) ∧
        ¬ field.access.Writable (record.get field.fieldName) ∧ field.Mismatch (record.get field.fieldName) error ∧
        written.document.entries = document.entries ++ entries record earlier) ∧
    (written.error = none → written.document.entries = document.entries ++ entries record marshaller.fields) := by
  intro written
  have complete (silent : written.error = none) :
      (∀ field ∈ marshaller.fields, field.access.Writable (record.get field.fieldName)) ∧
        written.document = ⟨document.entries ++ entries record marshaller.fields⟩ := by
    apply writeFields_eq_iff.mp
    rw [← silent]
    rfl
  refine ⟨⟨?_, ?_⟩, fun error stopped => writeFields_stopped stopped, ?_⟩
  · rintro ⟨error, stopped⟩
    obtain ⟨earlier, field, later, split, -, refused, -⟩ := writeFields_stopped stopped
    exact ⟨field, by simp [split], refused⟩
  · rintro ⟨field, member, refused⟩
    cases outcome : written.error with
    | some error => exact ⟨error, rfl⟩
    | none => exact absurd ((complete outcome).1 field member) refused
  · intro silent
    rw [(complete silent).2]

/-- A list that is missing and an object that is none are written; the boolean behind them is refused,
and the wrong string after it is not looked at. -/
theorem write_stops_at_boolean :
    let marshaller : MessageMarshaller :=
      ⟨"M", "p", "p.M", "p.M",
        [⟨"n", "getN", "setN", .collection "Integer"⟩, ⟨"o", "getO", "setO", .object "p.M"⟩,
         ⟨"b", "isB", "setB", .scalar .bool⟩, ⟨"s", "getS", "setS", .scalar .string⟩]⟩
    let record : Record := (((RecordOf.empty "p.M").set "o" (.int 1)).set "b" (.string "yes")).set "s" (.int 2)
    let document : Document := ⟨[("n", .long 3)]⟩
    let error : MarshalError := .typeMismatch "b" (.scalar .bool) .string
    marshaller.write document record = ⟨⟨[("n", .long 3), ("n", .collection []), ("o", .int 1)]⟩, some error⟩ ∧
      error.message = "field 'b' holds string, expected boolean" ∧
      ∃ earlier field later, marshaller.fields = earlier ++ field :: later ∧
        ¬ field.access.Writable (record.get field.fieldName) ∧ field.Mismatch (record.get field.fieldName) error ∧
        [("n", .long 3), ("n", .collection []), ("o", .int 1)] = document.entries ++ entries record earlier := by
  intro marshaller record document error
  obtain ⟨earlier, field, later, split, -, refused, mismatch, written⟩ :=
    (write_stops marshaller document record).2.1 error rfl
  exact ⟨rfl, rfl, earlier, field, later, split, refused, mismatch, written⟩

/-- A record that was written can be read back exactly if each of its object fields holds what a
reader takes for one: null, an object or a constant of an enumeration. -/
theorem read_written_iff {options : GatherOptions} {tree : FileTree} {sources : List Source}
    {table : SymbolTable} (gathered : SymbolTable.gather options tree sources = .ok table)
    {conventions : Conventions} {marshaller : MessageMarshaller}
    (made : .message marshaller ∈ (generate table conventions).marshallers) {record : Record}
    {document : Document} (written : marshaller.write .empty record = ⟨document, none⟩) :
    (∃ result, marshaller.read document = .ok result) ↔
      ∀ field ∈ marshaller.fields, ∀ className, field.access = .object className →
        (record.get field.fieldName).kind ∈ [.null, .object, .enum] := by
  have distinct := fieldNames_nodup_of_generated gathered made
  obtain ⟨writable, rfl⟩ := writeFields_eq_iff.mp written
  rw [MessageMarshaller.read, readFields_isOk_iff]
  refine forall₂_congr fun field member => ?_
  rw [Document.empty, List.nil_append, value_entries record distinct member, Access.fits_carried_iff,
    (writable field member).fits_iff]
  refine forall₂_congr fun className object => ?_
  rw [object]
  rfl

/-- A constant in one object field and nothing in the other. -/
theorem read_written_iff_constant :
    let tree : FileTree := ⟨.directory .empty, []⟩
    let source : Source := .text (.named "a") "package p; enum E \x7b A = 0; \x7d message M \x7b M next = 1; E e = 2; \x7d"
    let marshaller : MessageMarshaller :=
      ⟨"MMessageMarshaller", "p", "p.M", "p.M",
        [⟨"next", "getNext", "setNext", .object "p.M"⟩, ⟨"e", "getE", "setE", .object "p.E"⟩]⟩
    let record : Record := (RecordOf.empty "p.M").set "e" (.enum "A")
    ∃ table document result, SymbolTable.gather {} tree [source] = .ok table ∧
      .message marshaller ∈ (generate table {}).marshallers ∧
      marshaller.write .empty record = ⟨document, none⟩ ∧ marshaller.read document = .ok result := by
  intro tree source marshaller record
  let file : SchemaFile :=
    ⟨.named "a", none, "p", [], [], [⟨"M", "p.M", [⟨"next", "M", 1, .implicit⟩, ⟨"e", "E", 2, .implicit⟩], []⟩],
      [⟨"E", "p.E", [⟨"A", 0⟩], []⟩]⟩
  have loaded : source.load tree [] = .ok file := Source.load_ofList (by decide +kernel) (by decide +kernel)
  let table : SymbolTable := SymbolTable.wellKnown.append file
  have registered : SymbolTable.wellKnown.register file = .ok (.added table) := by decide +kernel
  have gathered := SymbolTable.gather_single loaded registered
  have made : .message marshaller ∈ (generate table {}).marshallers := by decide +kernel
  have written : marshaller.write .empty record = ⟨⟨[("next", .null), ("e", .enum "A")]⟩, none⟩ := rfl
  have held : ∀ field ∈ marshaller.fields, ∀ className, field.access = .object className →
      (record.get field.fieldName).kind ∈ [.null, .object, .enum] := by
    have all : ∀ field ∈ marshaller.fields, (record.get field.fieldName).kind ∈ [.null, .object, .enum] := by decide
    exact fun field member _ _ => all field member
  obtain ⟨result, read⟩ := (read_written_iff gathered made written).mpr held
  exact ⟨table, _, result, gathered, made, written, read⟩

/-- A number in an object field is written but not read back. -/
theorem object_written_unreadable :
    let tree : FileTree := ⟨.directory .empty, []⟩
    let source : Source := .text (.named "a") "package p; message M \x7b M next = 1; \x7d"
    let marshaller : MessageMarshaller :=
      ⟨"MMessageMarshaller", "p", "p.M", "p.M", [⟨"next", "getNext", "setNext", .object "p.M"⟩]⟩
    let record : Record := (RecordOf.empty "p.M").set "next" (.int 1)
    ∃ table document, SymbolTable.gather {} tree [source] = .ok table ∧
      .message marshaller ∈ (generate table {}).marshallers ∧
      marshaller.write .empty record = ⟨document, none⟩ ∧
      marshaller.read document = .error (.typeMismatch "next" (.object "p.M") .int) := by
  intro tree source marshaller record
  let file : SchemaFile := ⟨.named "a", none, "p", [], [], [⟨"M", "p.M", [⟨"next", "M", 1, .implicit⟩], []⟩], []⟩
  have loaded : source.load tree [] = .ok file := Source.load_ofList (by decide +kernel) (by decide +kernel)
  let table : SymbolTable := SymbolTable.wellKnown.append file
  have registered : SymbolTable.wellKnown.register file = .ok (.added table) := by decide +kernel
  have made : .message marshaller ∈ (generate table {}).marshallers := by decide +kernel
  exact ⟨table, ⟨[("next", .int 1)]⟩, SymbolTable.gather_single loaded registered, made, rfl, rfl⟩

end MessageMarshaller

end SchemaMarshal
