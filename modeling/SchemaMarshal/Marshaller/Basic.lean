import SchemaMarshal.Marshaller.Naming

/-! Marshallers as data: what they read and write, before any text or run.

A message marshaller carries one accessor per field. Its bodies are lists of statements, each built
from the accessor of one field. An enumeration marshaller carries the declared values.
-/

set_option autoImplicit false

namespace SchemaMarshal

/-- How a field passes through a reader or writer. -/
inductive Access where
  | scalar (type : Scalar)
  | collection (elementClass : String)
  | object (className : String)
  deriving DecidableEq, Repr

namespace Access

def isCollection : Access → Bool
  | .collection _ => true
  | _ => false

end Access

structure Accessor where
  fieldName : String
  getter : String
  setter : String
  access : Access
  deriving DecidableEq, Repr

/-- A family of methods that readers and writers share. -/
inductive Carrier where
  | scalar (type : Scalar)
  | collection
  | object
  deriving DecidableEq, Repr

def Carrier.name : Carrier → String
  | .scalar type => type.accessorName
  | .collection => "Collection"
  | .object => "Object"

inductive Method where
  | read (carrier : Carrier)
  | write (carrier : Carrier)
  deriving DecidableEq, Repr

def Method.name : Method → String
  | .read carrier => "read" ++ carrier.name
  | .write carrier => "write" ++ carrier.name

inductive Operand where
  | fieldName (name : String)
  /-- The value of the field now, through its getter. -/
  | currentValue (getter : String)
  | newList
  | classLiteral (className : String)
  deriving DecidableEq, Repr

structure Call where
  method : Method
  operands : List Operand
  deriving DecidableEq, Repr

inductive Statement where
  | construct (className : String)
  | assign (setter : String) (call : Call)
  | write (call : Call)
  | return
  deriving DecidableEq, Repr

def Operand.text (subject : Option String) : Operand → String
  | .fieldName name => "\"" ++ name ++ "\""
  | .currentValue getter =>
      match subject with
      | some object => object ++ "." ++ getter ++ "()"
      | none => getter ++ "()"
  | .newList => "new ArrayList<>()"
  | .classLiteral className => className ++ ".class"

def Call.text (subject : Option String) (call : Call) : String :=
  call.method.name ++ "(" ++ ", ".intercalate (call.operands.map (Operand.text subject)) ++ ")"

namespace Accessor

def readCall (accessor : Accessor) : Call :=
  let field := Operand.fieldName accessor.fieldName
  match accessor.access with
  | .scalar type => ⟨.read (.scalar type), [field]⟩
  | .collection elementClass => ⟨.read .collection, [field, .newList, .classLiteral elementClass]⟩
  | .object className => ⟨.read .object, [field, .classLiteral className]⟩

def writeCall (accessor : Accessor) : Call :=
  let field := Operand.fieldName accessor.fieldName
  let value := Operand.currentValue accessor.getter
  match accessor.access with
  | .scalar type => ⟨.write (.scalar type), [field, value]⟩
  | .collection elementClass => ⟨.write .collection, [field, value, .classLiteral elementClass]⟩
  | .object className => ⟨.write .object, [field, value, .classLiteral className]⟩

end Accessor

/-- The methods of a marshaller, in the order they are written. -/
inductive Member where
  | decode
  | encode
  | getJavaClass
  | getTypeName
  | readFrom
  | writeTo
  deriving DecidableEq, Repr

def Member.name : Member → String
  | .decode => "decode"
  | .encode => "encode"
  | .getJavaClass => "getJavaClass"
  | .getTypeName => "getTypeName"
  | .readFrom => "readFrom"
  | .writeTo => "writeTo"

structure MessageMarshaller where
  name : String
  package : String
  targetClass : String
  typeName : String
  fields : List Accessor
  deriving DecidableEq, Repr

namespace MessageMarshaller

def members : List Member := [.getJavaClass, .getTypeName, .readFrom, .writeTo]

def readStatements (marshaller : MessageMarshaller) : List Statement :=
  .construct marshaller.targetClass ::
    marshaller.fields.map (fun field => .assign field.setter field.readCall) ++ [.return]

def writeStatements (marshaller : MessageMarshaller) : List Statement :=
  marshaller.fields.map fun field => .write field.writeCall

end MessageMarshaller

inductive DecodeBranch where
  | case (ordinal : Int32) (value : String)
  | fail
  deriving DecidableEq, Repr

inductive EncodeBranch where
  | rejectAbsent
  | case (value : String) (ordinal : Int32)
  deriving DecidableEq, Repr

structure EnumMarshaller where
  name : String
  package : String
  targetClass : String
  typeName : String
  values : List EnumValue
  deriving DecidableEq, Repr

namespace EnumMarshaller

def members : List Member := [.decode, .encode, .getJavaClass, .getTypeName]

def decodeBranches (marshaller : EnumMarshaller) : List DecodeBranch :=
  marshaller.values.map (fun value => .case value.ordinal value.name) ++ [.fail]

def encodeBranches (marshaller : EnumMarshaller) : List EncodeBranch :=
  .rejectAbsent :: marshaller.values.map fun value => .case value.name value.ordinal

end EnumMarshaller

inductive Marshaller where
  | message (marshaller : MessageMarshaller)
  | enumeration (marshaller : EnumMarshaller)
  deriving DecidableEq, Repr

namespace Marshaller

def name : Marshaller → String
  | .message marshaller => marshaller.name
  | .enumeration marshaller => marshaller.name

def package : Marshaller → String
  | .message marshaller => marshaller.package
  | .enumeration marshaller => marshaller.package

def targetClass : Marshaller → String
  | .message marshaller => marshaller.targetClass
  | .enumeration marshaller => marshaller.targetClass

def typeName : Marshaller → String
  | .message marshaller => marshaller.typeName
  | .enumeration marshaller => marshaller.typeName

def members : Marshaller → List Member
  | .message _ => MessageMarshaller.members
  | .enumeration _ => EnumMarshaller.members

def qualifiedName (marshaller : Marshaller) : String := qualify marshaller.package marshaller.name

end Marshaller

end SchemaMarshal
