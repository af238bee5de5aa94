import SchemaMarshal.SymbolTable

/-! From the name of a type, as written in a field, to the class that stands for it.

A simple name is looked for first, among the messages of all files and then among the enumerations
of all files. The class of such a match takes its package from the file that uses the name. Any
other name is taken for a full name, and then the package is that of the declaring file. Where
several files match, the one registered first counts.
-/

set_option autoImplicit false

namespace SchemaMarshal

inductive Resolution where
  | scalar (type : Scalar)
  | resolved (className : String)
  | unresolved
  deriving DecidableEq, Repr

/-- The target package: the override of the type, else that of the file, else the file's package. -/
def packageOf (packageOption : String) (file : SchemaFile) (settings : List Setting) : String :=
  match Setting.find? settings packageOption with
  | some package => package
  | none => (file.setting? packageOption).getD file.package

def targetClass (packageOption : String) (file : SchemaFile) (settings : List Setting) (name : String) :
    String :=
  qualify (packageOf packageOption file settings) name

def withoutLeadingPoints (name : String) : String :=
  String.ofList (name.toList.dropWhile (· = '.'))

namespace SchemaFile

def messageNamed? (name : String) (file : SchemaFile) : Option Message :=
  file.messages.find? fun message => message.name = name

def enumerationNamed? (name : String) (file : SchemaFile) : Option Enumeration :=
  file.enumerations.find? fun enumeration => enumeration.name = name

def declares? (fullName : String) (file : SchemaFile) : Option (SchemaFile × Symbol) :=
  (file.symbols.find? fun symbol => symbol.fullName = fullName).map fun symbol => (file, symbol)

end SchemaFile

def resolve (table : SymbolTable) (packageOption : String) (usage : SchemaFile) (raw : String) :
    Resolution :=
  match Scalar.ofKeyword? raw with
  | some scalar => .scalar scalar
  | none =>
      match table.files.findSome? (SchemaFile.messageNamed? raw) with
      | some message => .resolved (targetClass packageOption usage message.settings message.name)
      | none =>
          match table.files.findSome? (SchemaFile.enumerationNamed? raw) with
          | some enumeration =>
              .resolved (targetClass packageOption usage enumeration.settings enumeration.name)
          | none =>
              match table.files.findSome? (SchemaFile.declares? (withoutLeadingPoints raw)) with
              | some (file, symbol) => .resolved (targetClass packageOption file symbol.settings symbol.name)
              | none => .unresolved

end SchemaMarshal
