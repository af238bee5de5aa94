/-! What a schema declares: messages with typed fields and enumerations with numbered values.

A file lists its declarations in the order of the text. `fullName` is the name under which a type
is registered; a file read from text has it from the package, any other file may carry any name.
-/

set_option autoImplicit false

namespace SchemaMarshal

/-- What a file is known by. A text without a name is known by its place among the sources and
never shares an identifier with a named one. -/
inductive Identifier where
  | named (name : String)
  | anonymous (place : Nat)
  deriving DecidableEq, Repr

def Identifier.text : Identifier → String
  | .named name => name
  | .anonymous place => "anonymous-" ++ toString place

/-- `package.name`, or the bare name in the empty package. -/
def qualify (package name : String) : String :=
  if package = "" then name else package ++ "." ++ name

inductive Scalar where
  | string
  | int32
  | int64
  | double
  | float
  | bool
  deriving DecidableEq, Repr

namespace Scalar

def all : List Scalar := [.string, .int32, .int64, .double, .float, .bool]

def keyword : Scalar → String
  | .string => "string"
  | .int32 => "int32"
  | .int64 => "int64"
  | .double => "double"
  | .float => "float"
  | .bool => "bool"

def ofKeyword? (word : String) : Option Scalar :=
  all.find? fun scalar => scalar.keyword = word

end Scalar

inductive Label where
  | implicit
  | optional
  | required
  | repeated
  deriving DecidableEq, Repr

namespace Label

def text : Label → String
  | .implicit => "implicit"
  | .optional => "optional"
  | .required => "required"
  | .repeated => "repeated"

/-- The label that a keyword in front of a field stands for. An implicit label has no keyword. -/
def ofKeyword? (word : String) : Option Label :=
  [optional, required, repeated].find? fun label => label.text = word

end Label

structure Setting where
  name : String
  value : String
  deriving DecidableEq, Repr

def Setting.find? (settings : List Setting) (name : String) : Option String :=
  (settings.find? fun setting => setting.name = name).map (·.value)

structure Field where
  name : String
  typeName : String
  number : UInt32
  label : Label
  deriving DecidableEq, Repr

namespace Field

def isRepeated (field : Field) : Bool := field.label = .repeated

def scalar? (field : Field) : Option Scalar := Scalar.ofKeyword? field.typeName

/-- Field numbers are positive and fit in 32 bits. -/
def number? (written : Int64) : Option UInt32 :=
  if 0 < written.toInt ∧ written.toInt < UInt32.size then some (UInt32.ofNat written.toInt.toNat) else none

end Field

structure Message where
  name : String
  fullName : String
  fields : List Field
  settings : List Setting
  deriving DecidableEq, Repr

structure EnumValue where
  name : String
  ordinal : Int32
  deriving DecidableEq, Repr

/-- Ordinals are signed and fit in 32 bits. -/
def EnumValue.ordinal? (written : Int64) : Option Int32 :=
  if Int32.minValue.toInt ≤ written.toInt ∧ written.toInt ≤ Int32.maxValue.toInt then
    some (Int32.ofInt written.toInt)
  else none

structure Enumeration where
  name : String
  fullName : String
  values : List EnumValue
  settings : List Setting
  deriving DecidableEq, Repr

namespace Enumeration

def ordinalOf? (enumeration : Enumeration) (name : String) : Option Int32 :=
  (enumeration.values.find? fun value => value.name = name).map (·.ordinal)

def nameOf? (enumeration : Enumeration) (ordinal : Int32) : Option String :=
  (enumeration.values.find? fun value => value.ordinal = ordinal).map (·.name)

end Enumeration

structure SchemaFile where
  identifier : Identifier
  syntaxVersion : Option String
  package : String
  imports : List String
  settings : List Setting
  messages : List Message
  enumerations : List Enumeration
  deriving DecidableEq, Repr

namespace SchemaFile

def typeCount (file : SchemaFile) : Nat := file.messages.length + file.enumerations.length

def setting? (file : SchemaFile) (name : String) : Option String := Setting.find? file.settings name

end SchemaFile

end SchemaMarshal
