import SchemaMarshal.Document
import SchemaMarshal.Marshaller.Basic

/-! Running marshallers on records and documents.

Writing appends one entry per field and stops at the first value of the wrong kind, which leaves the
entries before it. Reading makes a record with exactly the marshaller's fields.
-/

set_option autoImplicit false

namespace SchemaMarshal

/-- The values that a writer takes for a scalar, which may be absent. -/
def Scalar.accepts : Scalar → Value → Bool
  | _, .null => true
  | .string, .string _ => true
  | .int32, .int _ => true
  | .int64, .long _ => true
  | .double, .double _ => true
  | .float, .float _ => true
  | .bool, .boolean _ => true
  | _, _ => false

namespace Accessor

def read (accessor : Accessor) (document : Document) : Except MarshalError Value :=
  match accessor.access with
  | .scalar type => document.readScalar type accessor.fieldName
  | .collection elementClass =>
      match document.readCollection accessor.fieldName elementClass with
      | .ok elements => .ok (.collection elements)
      | .error error => .error error
  | .object className => document.readObject accessor.fieldName className

/-- The entry that a writer makes of a value. A missing collection is written as an empty one, and
an object is written whatever it is. -/
def entry (accessor : Accessor) (value : Value) : Except MarshalError Value :=
  match accessor.access with
  | .scalar type =>
      if type.accepts value then .ok value
      else .error (.typeMismatch accessor.fieldName (.scalar type) value.kind)
  | .collection _ =>
      match value with
      | .null => .ok (.collection [])
      | .collection elements => .ok (.collection elements)
      | other => .error (.typeMismatch accessor.fieldName .collection other.kind)
  | .object _ => .ok value

end Accessor

/-- A document and, if writing stopped early, why. -/
structure Written where
  document : Document
  error : Option MarshalError

namespace MessageMarshaller

def readFields (document : Document) (record : Record) : List Accessor → Except MarshalError Record
  | [] => .ok record
  | field :: rest =>
      match field.read document with
      | .ok value => readFields document (record.set field.fieldName value) rest
      | .error error => .error error

def read (marshaller : MessageMarshaller) (document : Document) : Except MarshalError Record :=
  readFields document (.empty marshaller.targetClass) marshaller.fields

def writeFields (record : Record) (document : Document) : List Accessor → Written
  | [] => ⟨document, none⟩
  | field :: rest =>
      match field.entry (record.get field.fieldName) with
      | .ok value => writeFields record (document.append field.fieldName value) rest
      | .error error => ⟨document, some error⟩

def write (marshaller : MessageMarshaller) (document : Document) (record : Record) : Written :=
  writeFields record document marshaller.fields

end MessageMarshaller

namespace EnumMarshaller

def encodeBy (value : String) : List EncodeBranch → Option Int32
  | [] => none
  | .rejectAbsent :: rest => encodeBy value rest
  | .case name ordinal :: rest => if name = value then some ordinal else encodeBy value rest

def encode (marshaller : EnumMarshaller) (value : Option String) : Except MarshalError Int32 :=
  match value with
  | none => .error (.invalidEnumValue marshaller.typeName .absent)
  | some name =>
      match encodeBy name marshaller.encodeBranches with
      | some ordinal => .ok ordinal
      | none => .error (.invalidEnumValue marshaller.typeName (.name name))

def decodeBy (ordinal : Int32) : List DecodeBranch → Option String
  | [] => none
  | .fail :: _ => none
  | .case declared value :: rest => if declared = ordinal then some value else decodeBy ordinal rest

def decode (marshaller : EnumMarshaller) (ordinal : Int32) : Except MarshalError String :=
  match decodeBy ordinal marshaller.decodeBranches with
  | some value => .ok value
  | none => .error (.invalidEnumValue marshaller.typeName (.ordinal ordinal))

end EnumMarshaller

namespace Marshaller

/-- The value under a name: a record read again through a message marshaller, or the constant that
an ordinal stands for. -/
def readValue (marshaller : Marshaller) (document : Document) (name : String) :
    Except MarshalError Value :=
  match marshaller with
  | .message marshaller => do
      match ← document.readObject name marshaller.targetClass with
      | .null => pure .null
      | .object record => do
          let nested ← marshaller.read (.ofRecord record)
          pure (.object nested)
      | other => throw (.typeMismatch name (.object marshaller.targetClass) other.kind)
  | .enumeration marshaller => do
      match ← document.readScalar .int32 name with
      | .int ordinal => do
          let value ← marshaller.decode ordinal
          pure (.enum value)
      | _ => pure .null

end Marshaller

end SchemaMarshal
