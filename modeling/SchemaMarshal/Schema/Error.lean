import SchemaMarshal.Schema.Basic
import SchemaMarshal.Text.Utf8
import SchemaMarshal.Token.Lexeme

/-! Why schema text or a schema file is refused.

Causes are kept apart from their wording; `ParseError.message` is the only place that writes one.
-/

set_option autoImplicit false

namespace SchemaMarshal

/-- What a reader looked for and did not find. -/
inductive Expectation where
  | symbol (character : Char)
  | declaration
  | syntaxVersion
  | packageName
  | importPath
  | settingName
  | constant
  | number
  | messageName
  | fieldDeclaration
  | fieldType
  | fieldName
  | fieldNumber
  | enumName
  | enumValue
  | enumOrdinal
  deriving DecidableEq, Repr

def Expectation.text : Expectation → String
  | .symbol character => "'" ++ character.toString ++ "'"
  | .declaration => "top-level declaration"
  | .syntaxVersion => "syntax version"
  | .packageName => "package name"
  | .importPath => "import path"
  | .settingName => "option name"
  | .constant => "constant"
  | .number => "number"
  | .messageName => "message name"
  | .fieldDeclaration => "field declaration"
  | .fieldType => "field type"
  | .fieldName => "field name"
  | .fieldNumber => "field number"
  | .enumName => "enum name"
  | .enumValue => "enum value"
  | .enumOrdinal => "enum ordinal"

/-- Why text at one position is malformed. -/
inductive Malformation where
  | lexical (cause : Lexeme.Fault)
  | unexpected (expected : Expectation) (found : Token.Kind)
  | invalidInteger (literal : String)
  | fieldNumberOutOfRange (number : Int64)
  | ordinalOutOfRange (ordinal : Int64)
  | repeatedPackage
  deriving DecidableEq, Repr

def Malformation.message : Malformation → String
  | .lexical cause => cause.message
  | .unexpected expected found => "expected " ++ expected.text ++ ", found " ++ found.describe
  | .invalidInteger literal => "invalid integer '" ++ literal ++ "'"
  | .fieldNumberOutOfRange number => "invalid field number " ++ toString number.toInt
  | .ordinalOutOfRange ordinal => "enum ordinal " ++ toString ordinal.toInt ++ " out of range"
  | .repeatedPackage => "multiple package statements"

inductive Duplicate where
  | type (name : String)
  | field (message name : String)
  | fieldNumber (message : String) (number : UInt32)
  | enumValue (enumeration value : String)
  | enumOrdinal (enumeration : String) (ordinal : Int32)
  deriving DecidableEq, Repr

namespace Duplicate

def kind : Duplicate → String
  | .type _ => "type"
  | .field _ _ => "field"
  | .fieldNumber _ _ => "field number"
  | .enumValue _ _ => "enum value"
  | .enumOrdinal _ _ => "enum ordinal"

def name : Duplicate → String
  | .type name => name
  | .field message name => message ++ "." ++ name
  | .fieldNumber message number => toString number.toNat ++ " in " ++ message
  | .enumValue enumeration value => enumeration ++ "." ++ value
  | .enumOrdinal enumeration ordinal => toString ordinal.toInt ++ " in " ++ enumeration

end Duplicate

inductive ParseError where
  | malformed (source : Identifier) (position : Position) (cause : Malformation)
  | unexpectedEnd (source : Identifier) (expected : Expectation)
  | unsupported (source : Identifier) (line : Nat) (construct : String)
  | duplicate (source : Identifier) (definition : Duplicate)
  | encoding (fault : Utf8.Fault)
  deriving DecidableEq, Repr

def ParseError.message : ParseError → String
  | .malformed source position cause =>
      source.text ++ ":" ++ toString position.line ++ ":" ++ toString position.column ++ ": " ++ cause.message
  | .unexpectedEnd source expected => source.text ++ ": unexpected end of input, expected " ++ expected.text
  | .unsupported source line construct =>
      source.text ++ ":" ++ toString line ++ ": unsupported construct '" ++ construct ++ "'"
  | .duplicate source definition =>
      source.text ++ ": duplicate " ++ definition.kind ++ " '" ++ definition.name ++ "'"
  | .encoding fault => "UTF-8 error: " ++ fault.message

end SchemaMarshal
