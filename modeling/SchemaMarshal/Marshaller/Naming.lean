import SchemaMarshal.Schema.Basic
import SchemaMarshal.Text.Uppercase

/-! Names that generated code uses. -/

set_option autoImplicit false

namespace SchemaMarshal

namespace Naming

def getter (field : String) : String := "get" ++ Text.capitalize field

def booleanGetter (field : String) : String := "is" ++ Text.capitalize field

def setter (field : String) : String := "set" ++ Text.capitalize field

end Naming

namespace Scalar

def accessorName : Scalar → String
  | .string => "String"
  | .int32 => "Int"
  | .int64 => "Long"
  | .double => "Double"
  | .float => "Float"
  | .bool => "Boolean"

/-- The class of a scalar inside a collection. -/
def boxedClass : Scalar → String
  | .string => "String"
  | .int32 => "Integer"
  | .int64 => "Long"
  | .double => "Double"
  | .float => "Float"
  | .bool => "Boolean"

end Scalar

/-- What a user may choose about the generated code. -/
structure Conventions where
  /-- The setting that overrides a package for target classes. -/
  packageOption : String := "java_package"
  runtimePackage : String := "org.marshgen.runtime"
  messageSuffix : String := "MessageMarshaller"
  enumSuffix : String := "EnumMarshaller"
  deriving DecidableEq, Repr

namespace Conventions

def messageMarshallerName (conventions : Conventions) (name : String) : String :=
  name ++ conventions.messageSuffix

def enumMarshallerName (conventions : Conventions) (name : String) : String :=
  name ++ conventions.enumSuffix

end Conventions

end SchemaMarshal
