import SchemaMarshal.Marshaller.Basic
import SchemaMarshal.Marshaller.Resolution
import SchemaMarshal.Source

/-! One marshaller for every type of every user file.

A message fails at its first field whose type cannot be resolved. The failure of one type does not
keep the others from being made.
-/

set_option autoImplicit false

namespace SchemaMarshal

structure UnresolvedType where
  typeName : String
  field : String
  message : String
  deriving DecidableEq, Repr

def UnresolvedType.text (unresolved : UnresolvedType) : String :=
  "unresolved type '" ++ unresolved.typeName ++ "' in field '" ++ unresolved.field ++ "' of message '" ++
    unresolved.message ++ "'"

inductive GenerationError where
  | schema (error : SchemaError)
  | unresolvedType (unresolved : UnresolvedType)
  deriving DecidableEq, Repr

def GenerationError.message : GenerationError → String
  | .schema error => "schema error: " ++ error.message
  | .unresolvedType unresolved => unresolved.text

def Resolution.access? (repeated : Bool) : Resolution → Option Access
  | .scalar type => some (if repeated then .collection type.boxedClass else .scalar type)
  | .resolved className => some (if repeated then .collection className else .object className)
  | .unresolved => none

/-- Only a single boolean has a getter of its own form. -/
def Access.getter (access : Access) (field : String) : String :=
  if access = .scalar .bool then Naming.booleanGetter field else Naming.getter field

def classify (table : SymbolTable) (packageOption : String) (file : SchemaFile) (message : Message)
    (field : Field) : Except UnresolvedType Accessor :=
  match (resolve table packageOption file field.typeName).access? field.isRepeated with
  | some access => .ok ⟨field.name, access.getter field.name, Naming.setter field.name, access⟩
  | none => .error ⟨field.typeName, field.name, message.fullName⟩

def messageMarshaller (table : SymbolTable) (conventions : Conventions) (file : SchemaFile)
    (message : Message) : Except UnresolvedType MessageMarshaller := do
  let fields ← message.fields.mapM (classify table conventions.packageOption file message)
  pure
    { name := conventions.messageMarshallerName message.name
      package := file.package
      targetClass := targetClass conventions.packageOption file message.settings message.name
      typeName := message.fullName
      fields }

def enumMarshaller (conventions : Conventions) (file : SchemaFile) (enumeration : Enumeration) :
    EnumMarshaller where
  name := conventions.enumMarshallerName enumeration.name
  package := file.package
  targetClass := targetClass conventions.packageOption file enumeration.settings enumeration.name
  typeName := enumeration.fullName
  values := enumeration.values

structure TypeFailure where
  typeName : String
  cause : UnresolvedType
  deriving DecidableEq, Repr

inductive Outcome where
  | made (marshaller : Marshaller)
  | failed (failure : TypeFailure)
  deriving DecidableEq, Repr

namespace Outcome

def marshaller? : Outcome → Option Marshaller
  | .made marshaller => some marshaller
  | .failed _ => none

def failure? : Outcome → Option TypeFailure
  | .made _ => none
  | .failed failure => some failure

end Outcome

def messageOutcome (table : SymbolTable) (conventions : Conventions) (file : SchemaFile)
    (message : Message) : Outcome :=
  match messageMarshaller table conventions file message with
  | .ok marshaller => .made (.message marshaller)
  | .error cause => .failed ⟨message.fullName, cause⟩

def fileOutcomes (table : SymbolTable) (conventions : Conventions) (file : SchemaFile) : List Outcome :=
  file.messages.map (messageOutcome table conventions file) ++
    file.enumerations.map fun enumeration => .made (.enumeration (enumMarshaller conventions file enumeration))

structure Report where
  marshallers : List Marshaller
  failures : List TypeFailure
  deriving DecidableEq, Repr

namespace Report

def ofOutcomes (outcomes : List Outcome) : Report :=
  ⟨outcomes.filterMap Outcome.marshaller?, outcomes.filterMap Outcome.failure?⟩

def isComplete (report : Report) : Bool := report.failures.isEmpty

def find? (report : Report) (typeName : String) : Option Marshaller :=
  report.marshallers.find? fun marshaller => marshaller.typeName = typeName

def strict (report : Report) : Except UnresolvedType (List Marshaller) :=
  match report.failures with
  | [] => .ok report.marshallers
  | failure :: _ => .error failure.cause

end Report

/-- What becomes of every type, file by file, messages before enumerations. -/
def outcomes (table : SymbolTable) (conventions : Conventions) : List Outcome :=
  table.userFiles.flatMap (fileOutcomes table conventions)

def generate (table : SymbolTable) (conventions : Conventions) : Report :=
  .ofOutcomes (outcomes table conventions)

def generateFrom (tree : FileTree) (source : Source) : Except GenerationError (List Marshaller) := do
  let table ← (SymbolTable.gather {} tree [source]).mapError .schema
  (generate table {}).strict.mapError .unresolvedType

end SchemaMarshal
