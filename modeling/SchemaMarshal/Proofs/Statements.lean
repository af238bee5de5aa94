import SchemaMarshal.Marshaller.Generation
import SchemaMarshal.Marshaller.Run
import SchemaMarshal.Proofs.WellKnown

/-! Bodies of message marshallers, run statement by statement.

A statement acts on an object and a document. It knows the methods of readers and writers by the names
they are written with, and the properties of the object by the setters and getters of their fields. A
statement that makes no sense has no outcome. When no two fields share a setter or a getter, the bodies
do what the marshaller does, up to the error and the document it leaves.
-/

set_option autoImplicit false

namespace SchemaMarshal

namespace Scalar

/-- What the methods of a scalar carry, if it is present. -/
def Payload : Scalar → Type
  | .string => String
  | .int32 => Int32
  | .int64 => Int64
  | .double => Binary64
  | .float => Binary32
  | .bool => Bool

/-- A value as an argument of a writer's method. Null is an argument of every method, and only the
scalar's own kind has another. -/
def payload? : (scalar : Scalar) → Value → Option (Option scalar.Payload)
  | _, .null => some none
  | .string, .string text => some (some text)
  | .int32, .int number => some (some number)
  | .int64, .long number => some (some number)
  | .double, .double number => some (some number)
  | .float, .float number => some (some number)
  | .bool, .boolean truth => some (some truth)
  | _, _ => none

def stored : (scalar : Scalar) → Option scalar.Payload → Value
  | _, none => .null
  | .string, some text => .string text
  | .int32, some number => .int number
  | .int64, some number => .long number
  | .double, some number => .double number
  | .float, some number => .float number
  | .bool, some truth => .boolean truth

theorem map_stored_payload? (scalar : Scalar) (value : Value) :
    (scalar.payload? value).map scalar.stored = if scalar.accepts value then some value else none := by
  cases scalar <;> cases value <;> rfl

theorem payload?_of_accepts {scalar : Scalar} {value : Value} (accepted : scalar.accepts value = true) :
    ∃ payload, scalar.payload? value = some payload ∧ scalar.stored payload = value := by
  have stored := scalar.map_stored_payload? value
  rw [if_pos accepted] at stored
  exact Option.map_eq_some_iff.mp stored

theorem payload?_of_not_accepts {scalar : Scalar} {value : Value} (refused : scalar.accepts value = false) :
    scalar.payload? value = none := by
  have stored := scalar.map_stored_payload? value
  rw [refused, if_neg Bool.false_ne_true] at stored
  exact Option.map_eq_none_iff.mp stored

end Scalar

/-- A value as a list for a writer. A missing list is an empty one. -/
def Value.elements? : Value → Option (List Value)
  | .null => some []
  | .collection elements => some elements
  | _ => none

namespace Document

def writeScalar (document : Document) (scalar : Scalar) (name : String) (argument : Option scalar.Payload) :
    Document :=
  document.append name (scalar.stored argument)

def writeCollection (document : Document) (name : String) (elements : List Value) (_elementClass : String) :
    Document :=
  document.append name (.collection elements)

def writeObject (document : Document) (name : String) (value : Value) (_className : String) : Document :=
  document.append name value

end Document

inductive Argument where
  | name (text : String)
  | value (value : Value)
  | container (elements : List Value)
  | className (text : String)

/-- The argument for an operand, where getters are those of `fields` and belong to `object`. -/
def Operand.argument? (fields : List Accessor) (object : Option Record) : Operand → Option Argument
  | .fieldName name => some (.name name)
  | .currentValue getter => do
      let record ← object
      let owner ← fields.find? fun field => field.getter = getter
      some (.value (record.get owner.fieldName))
  | .newList => some (.container [])
  | .classLiteral className => some (.className className)

namespace Operand

variable {fields : List Accessor} {object : Option Record}

@[simp] theorem argument?_fieldName (name : String) :
    (fieldName name).argument? fields object = some (.name name) := rfl

@[simp] theorem argument?_newList : newList.argument? fields object = some (.container []) := rfl

@[simp] theorem argument?_classLiteral (className : String) :
    (classLiteral className).argument? fields object = some (.className className) := rfl

theorem argument?_currentValue (getters : (fields.map (·.getter)).Nodup) {accessor : Accessor}
    (listed : accessor ∈ fields) (record : Record) :
    (currentValue accessor.getter).argument? fields (some record) =
      some (.value (record.get accessor.fieldName)) := by
  have owner : fields.find? (fun field => field.getter = accessor.getter) = some accessor :=
    find?_key_of_mem getters listed
  simp [argument?, owner]

end Operand

namespace Carrier

def methods (verb : String) : List (String × Carrier) :=
  [(verb ++ "String", .scalar .string), (verb ++ "Int", .scalar .int32), (verb ++ "Long", .scalar .int64),
   (verb ++ "Double", .scalar .double), (verb ++ "Float", .scalar .float), (verb ++ "Boolean", .scalar .bool),
   (verb ++ "Collection", .collection), (verb ++ "Object", .object)]

theorem lookup_methods (carrier : Carrier) :
    (methods "read").lookup (Method.read carrier).name = some carrier ∧
      (methods "write").lookup (Method.write carrier).name = some carrier := by
  rcases carrier with type | _ | _
  · cases type <;> decide
  · decide
  · decide

/-- A method of a reader. A list that is read goes to the end of the given container. -/
def read? (document : Document) : Carrier → List Argument → Option (Except MarshalError Value)
  | .scalar type, [.name field] => some (document.readScalar type field)
  | .collection, [.name field, .container elements, .className elementClass] =>
      some ((document.readCollection field elementClass).map fun found => .collection (elements ++ found))
  | .object, [.name field, .className className] => some (document.readObject field className)
  | _, _ => none

/-- A method of a writer, on a value that may be of another kind than the method takes. -/
def write? (document : Document) : Carrier → List Argument → Option (Except MarshalError Document)
  | .scalar type, [.name field, .value value] =>
      match type.payload? value with
      | some argument => some (.ok (document.writeScalar type field argument))
      | none => some (.error (.typeMismatch field (.scalar type) value.kind))
  | .collection, [.name field, .value value, .className elementClass] =>
      match value.elements? with
      | some elements => some (.ok (document.writeCollection field elements elementClass))
      | none => some (.error (.typeMismatch field .collection value.kind))
  | .object, [.name field, .value value, .className className] =>
      some (.ok (document.writeObject field value className))
  | _, _ => none

end Carrier

/-- The object at hand, if there is one, and the document. -/
structure Store where
  object : Option Record
  document : Document

namespace Call

def read? (fields : List Accessor) (store : Store) (call : Call) : Option (Except MarshalError Value) := do
  let carrier ← (Carrier.methods "read").lookup call.method.name
  let arguments ← call.operands.mapM (Operand.argument? fields store.object)
  carrier.read? store.document arguments

def write? (fields : List Accessor) (store : Store) (call : Call) : Option (Except MarshalError Document) := do
  let carrier ← (Carrier.methods "write").lookup call.method.name
  let arguments ← call.operands.mapM (Operand.argument? fields store.object)
  carrier.write? store.document arguments

variable {fields : List Accessor} {object : Option Record} {operands : List Operand} {arguments : List Argument}

theorem read?_eq (known : operands.mapM (Operand.argument? fields object) = some arguments)
    (document : Document) (carrier : Carrier) :
    read? fields ⟨object, document⟩ ⟨.read carrier, operands⟩ = carrier.read? document arguments := by
  simp [read?, Carrier.lookup_methods, known]

theorem write?_eq (known : operands.mapM (Operand.argument? fields object) = some arguments)
    (document : Document) (carrier : Carrier) :
    write? fields ⟨object, document⟩ ⟨.write carrier, operands⟩ = carrier.write? document arguments := by
  simp [write?, Carrier.lookup_methods, known]

end Call

namespace Accessor

theorem read?_readCall (accessor : Accessor) (fields : List Accessor) (object : Option Record)
    (document : Document) :
    accessor.readCall.read? fields ⟨object, document⟩ = some (accessor.read document) := by
  cases access : accessor.access with
  | scalar type =>
    have known : [.fieldName accessor.fieldName].mapM (Operand.argument? fields object) =
        some [.name accessor.fieldName] := by simp
    simp only [readCall, read, access, Call.read?_eq known, Carrier.read?]
  | collection elementClass =>
    have known : [.fieldName accessor.fieldName, .newList, .classLiteral elementClass].mapM
        (Operand.argument? fields object) =
          some [.name accessor.fieldName, .container [], .className elementClass] := by simp
    simp only [readCall, read, access, Call.read?_eq known, Carrier.read?]
    cases document.readCollection accessor.fieldName elementClass <;> simp [Except.map]
  | object className =>
    have known : [.fieldName accessor.fieldName, .classLiteral className].mapM
        (Operand.argument? fields object) =
          some [.name accessor.fieldName, .className className] := by simp
    simp only [readCall, read, access, Call.read?_eq known, Carrier.read?]

theorem write?_writeCall {fields : List Accessor} (getters : (fields.map (·.getter)).Nodup)
    {accessor : Accessor} (listed : accessor ∈ fields) (record : Record) (document : Document) :
    accessor.writeCall.write? fields ⟨some record, document⟩ =
      some ((accessor.entry (record.get accessor.fieldName)).map (document.append accessor.fieldName)) := by
  have current := Operand.argument?_currentValue getters listed record
  generalize record.get accessor.fieldName = value at current ⊢
  have unclassed : [.fieldName accessor.fieldName, .currentValue accessor.getter].mapM
      (Operand.argument? fields (some record)) =
        some [.name accessor.fieldName, .value value] := by simp [current]
  have classed (className : String) :
      [.fieldName accessor.fieldName, .currentValue accessor.getter, .classLiteral className].mapM
        (Operand.argument? fields (some record)) =
          some [.name accessor.fieldName, .value value, .className className] := by simp [current]
  cases access : accessor.access with
  | scalar type =>
    simp only [writeCall, entry, access, Call.write?_eq unclassed, Carrier.write?]
    cases accepted : type.accepts value with
    | true =>
      obtain ⟨payload, known, same⟩ := Scalar.payload?_of_accepts accepted
      simp [known, Document.writeScalar, same, Except.map]
    | false => simp [Scalar.payload?_of_not_accepts accepted, Except.map]
  | collection elementClass =>
    simp only [writeCall, entry, access, Call.write?_eq (classed elementClass), Carrier.write?]
    cases value <;> rfl
  | object className =>
    simp only [writeCall, entry, access, Call.write?_eq (classed className), Carrier.write?,
      Document.writeObject, Except.map]

end Accessor

/-- Where a statement leads. After an error only the document is left. -/
inductive Flow where
  | next (store : Store)
  | returned (record : Record)
  | failed (error : MarshalError) (document : Document)

namespace Flow

def after {α : Type} (document : Document) (next : α → Store) : Except MarshalError α → Flow
  | .ok result => .next (next result)
  | .error error => .failed error document

/-- What a reader's body gives. It has to return. -/
def result? : Flow → Option (Except MarshalError Record)
  | .next _ => none
  | .returned record => some (.ok record)
  | .failed error _ => some (.error error)

/-- What a writer's body leaves. It ends without returning anything. -/
def written? : Flow → Option Written
  | .next store => some ⟨store.document, none⟩
  | .returned _ => none
  | .failed error document => some ⟨document, some error⟩

end Flow

namespace Statement

def run? (fields : List Accessor) (store : Store) : Statement → Option Flow
  | .construct className => some (.next { store with object := some (.empty className) })
  | .assign setter call => do
      let record ← store.object
      let owner ← fields.find? fun field => field.setter = setter
      let outcome ← call.read? fields store
      some (.after store.document
        (fun value => { store with object := some (record.set owner.fieldName value) }) outcome)
  | .write call => do
      let outcome ← call.write? fields store
      some (.after store.document (fun document => { store with document }) outcome)
  | .return => store.object.map .returned

def runAll? (fields : List Accessor) (store : Store) : List Statement → Option Flow
  | [] => some (.next store)
  | statement :: rest => do
      match ← statement.run? fields store with
      | .next later => runAll? fields later rest
      | stopped => some stopped

variable {fields : List Accessor}

theorem runAll?_of_next {store later : Store} {statement : Statement}
    (step : statement.run? fields store = some (.next later)) (rest : List Statement) :
    runAll? fields store (statement :: rest) = runAll? fields later rest := by
  simp [runAll?, step]

theorem runAll?_of_failed {store : Store} {statement : Statement} {error : MarshalError} {document : Document}
    (step : statement.run? fields store = some (.failed error document)) (rest : List Statement) :
    runAll? fields store (statement :: rest) = some (.failed error document) := by
  simp [runAll?, step]

theorem run?_assign (setters : (fields.map (·.setter)).Nodup) {field : Accessor} (listed : field ∈ fields)
    (record : Record) (document : Document) :
    (assign field.setter field.readCall).run? fields ⟨some record, document⟩ =
      some (.after document (fun value => ⟨some (record.set field.fieldName value), document⟩)
        (field.read document)) := by
  have owner : fields.find? (fun other => other.setter = field.setter) = some field :=
    find?_key_of_mem setters listed
  simp [run?, owner, Accessor.read?_readCall]

theorem run?_write (getters : (fields.map (·.getter)).Nodup) {field : Accessor} (listed : field ∈ fields)
    (record : Record) (document : Document) :
    (write field.writeCall).run? fields ⟨some record, document⟩ =
      some (.after document (fun later => ⟨some record, later⟩)
        ((field.entry (record.get field.fieldName)).map (document.append field.fieldName))) := by
  simp [run?, Accessor.write?_writeCall getters listed]

-- The fields still to come belong to the marshaller, whose other fields decide who owns a setter.
theorem runAll?_assigns (setters : (fields.map (·.setter)).Nodup) (document : Document) (record : Record)
    {pending : List Accessor} (listed : pending ⊆ fields) :
    (runAll? fields ⟨some record, document⟩
        (pending.map (fun field => .assign field.setter field.readCall) ++ [.return])).bind Flow.result? =
      some (MessageMarshaller.readFields document record pending) := by
  induction pending generalizing record with
  | nil => rfl
  | cons field rest ih =>
    obtain ⟨known, later⟩ := List.cons_subset.mp listed
    have step := run?_assign setters known record document
    rw [List.map_cons, List.cons_append, MessageMarshaller.readFields]
    cases outcome : field.read document with
    | ok value =>
      rw [outcome] at step
      rw [runAll?_of_next step]
      exact ih _ later
    | error error =>
      rw [outcome] at step
      rw [runAll?_of_failed step]
      rfl

theorem runAll?_writes (getters : (fields.map (·.getter)).Nodup) (record : Record) (document : Document)
    {pending : List Accessor} (listed : pending ⊆ fields) :
    (runAll? fields ⟨some record, document⟩ (pending.map fun field => .write field.writeCall)).bind
        Flow.written? =
      some (MessageMarshaller.writeFields record document pending) := by
  induction pending generalizing document with
  | nil => rfl
  | cons field rest ih =>
    obtain ⟨known, later⟩ := List.cons_subset.mp listed
    have step := run?_write getters known record document
    rw [List.map_cons, MessageMarshaller.writeFields]
    cases outcome : field.entry (record.get field.fieldName) with
    | ok value =>
      rw [outcome] at step
      rw [runAll?_of_next step]
      exact ih _ later
    | error error =>
      rw [outcome] at step
      rw [runAll?_of_failed step]
      rfl

end Statement

namespace MessageMarshaller

def readBody? (marshaller : MessageMarshaller) (document : Document) : Option (Except MarshalError Record) :=
  (Statement.runAll? marshaller.fields ⟨none, document⟩ marshaller.readStatements).bind Flow.result?

def writeBody? (marshaller : MessageMarshaller) (document : Document) (record : Record) : Option Written :=
  (Statement.runAll? marshaller.fields ⟨some record, document⟩ marshaller.writeStatements).bind Flow.written?

/-- The bodies do what the marshaller does, on every document and every record: they give the same
record or the same error, and they leave the same document, also where writing stops early. -/
theorem bodies_run (marshaller : MessageMarshaller) (setters : (marshaller.fields.map (·.setter)).Nodup)
    (getters : (marshaller.fields.map (·.getter)).Nodup) :
    (∀ document, marshaller.readBody? document = some (marshaller.read document)) ∧
      ∀ document record, marshaller.writeBody? document record = some (marshaller.write document record) := by
  constructor
  · intro document
    have constructed : (Statement.construct marshaller.targetClass).run? marshaller.fields ⟨none, document⟩ =
        some (.next ⟨some (.empty marshaller.targetClass), document⟩) := rfl
    rw [readBody?, readStatements, List.cons_append, Statement.runAll?_of_next constructed]
    exact Statement.runAll?_assigns setters document _ (List.Subset.refl _)
  · intro document record
    exact Statement.runAll?_writes getters record document (List.Subset.refl _)

/-- One field of each kind of access. The record holds a text where its list should be, so writing stops
after two entries. -/
theorem bodies_run_generated :
    let tree : FileTree := ⟨.directory .empty, []⟩
    let source : Source := .text (.named "m")
      "package p; message M \x7b bool ok = 1; int64 n = 2; repeated string tags = 3; M next = 4; \x7d"
    let marshaller : MessageMarshaller :=
      ⟨"MMessageMarshaller", "p", "p.M", "p.M",
        [⟨"ok", "isOk", "setOk", .scalar .bool⟩, ⟨"n", "getN", "setN", .scalar .int64⟩,
         ⟨"tags", "getTags", "setTags", .collection "String"⟩, ⟨"next", "getNext", "setNext", .object "p.M"⟩]⟩
    let record : Record := ((RecordOf.empty "p.M").set "ok" (.boolean true)).set "tags" (.string "text")
    let document : Document := ⟨[("next", .enum "A"), ("n", .long 5)]⟩
    (∃ table, SymbolTable.gather {} tree [source] = .ok table ∧
        .message marshaller ∈ (generate table {}).marshallers) ∧
      marshaller.writeBody? .empty record =
        some ⟨⟨[("ok", .boolean true), ("n", .null)]⟩, some (.typeMismatch "tags" .collection .string)⟩ ∧
      marshaller.readBody? document =
        some (.ok (((((RecordOf.empty "p.M").set "ok" .null).set "n" (.long 5)).set "tags" (.collection [])).set
          "next" (.enum "A"))) := by
  intro tree source marshaller record document
  have run := bodies_run marshaller (by decide) (by decide)
  refine ⟨?_, ?_, ?_⟩
  · let fields : List Field :=
      [⟨"ok", "bool", 1, .implicit⟩, ⟨"n", "int64", 2, .implicit⟩, ⟨"tags", "string", 3, .repeated⟩,
       ⟨"next", "M", 4, .implicit⟩]
    let file : SchemaFile := ⟨.named "m", none, "p", [], [], [⟨"M", "p.M", fields, []⟩], []⟩
    have loaded : source.load tree [] = .ok file := Source.load_ofList (by decide +kernel) (by decide +kernel)
    let table : SymbolTable := SymbolTable.wellKnown.append file
    have registered : SymbolTable.wellKnown.register file = .ok (.added table) := by decide +kernel
    exact ⟨table, SymbolTable.gather_single loaded registered, by decide +kernel⟩
  · rw [run.2]
    rfl
  · rw [run.1]
    rfl

-- Two fields that share their setter: what is read for the second goes to the property of the first.
example :
    let marshaller : MessageMarshaller :=
      ⟨"MMessageMarshaller", "p", "p.M", "p.M",
        [⟨"a", "getA", "setA", .scalar .int32⟩, ⟨"A", "getA", "setA", .scalar .int32⟩]⟩
    marshaller.readBody? ⟨[("A", .int 1)]⟩ =
      some (.ok (((RecordOf.empty "p.M").set "a" .null).set "a" (.int 1))) := rfl

end MessageMarshaller

end SchemaMarshal
