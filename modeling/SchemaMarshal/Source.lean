import SchemaMarshal.FileTree
import SchemaMarshal.Schema.Parser
import SchemaMarshal.Schema.Validity
import SchemaMarshal.Schema.WellKnown
import SchemaMarshal.SymbolTable

/-! Where schemas come from, and gathering them into one symbol table.

The well-known kinds are registered first, then the sources in order. Each source is read, parsed
and validated before it is registered; the first failure ends the gathering.
-/

set_option autoImplicit false

namespace SchemaMarshal

inductive SchemaError where
  | parse (error : ParseError)
  | duplicateType (duplicate : DuplicateType)
  | resourceNotFound (name : String)
  | io (error : FileError)
  deriving DecidableEq, Repr

def SchemaError.message : SchemaError → String
  | .parse error => "schema parse error: " ++ error.message
  | .duplicateType duplicate => duplicate.message
  | .resourceNotFound name => "schema resource '" ++ name ++ "' not found"
  | .io error => "IO error: " ++ error.message

inductive Source where
  /-- A name looked up under the resource roots. -/
  | resource (name : String)
  | file (path : String)
  | text (identifier : Identifier) (content : String)
  | ready (schema : SchemaFile)
  deriving DecidableEq, Repr

namespace Source

def parse (identifier : Identifier) (text : String) : Except SchemaError SchemaFile :=
  (SchemaFile.parse identifier text).mapError .parse

def readFile (tree : FileTree) (identifier : Identifier) (path : String) : Except SchemaError SchemaFile := do
  let bytes ← (tree.read path).mapError .io
  let text ← (Utf8.decode bytes).mapError fun fault => .parse (.encoding fault)
  parse identifier text

def readResource (tree : FileTree) (roots : List String) (name : String) : Except SchemaError SchemaFile :=
  if name = WellKnown.name then parse (.named WellKnown.name) WellKnown.text
  else
    match (roots.map (Path.push · name)).find? tree.isFile with
    | some path => readFile tree (.named name) path
    | none => .error (.resourceNotFound name)

def read (tree : FileTree) (roots : List String) : Source → Except SchemaError SchemaFile
  | .resource name => readResource tree roots name
  | .file path => readFile tree (.named ((Path.fileName? path).getD path)) path
  | .text identifier content => parse identifier content
  | .ready schema => .ok schema

/-- Read a source and refuse a file that declares something twice. -/
def load (tree : FileTree) (roots : List String) (source : Source) : Except SchemaError SchemaFile := do
  let file ← source.read tree roots
  file.validate.mapError .parse
  pure file

end Source

structure GatherOptions where
  reservedPackage : String := WellKnown.package
  wellKnownText : String := WellKnown.text
  resourceRoots : List String := []
  deriving DecidableEq, Repr

namespace SymbolTable

def gatherSource (options : GatherOptions) (tree : FileTree) (table : SymbolTable) (source : Source) :
    Except SchemaError SymbolTable := do
  let file ← source.load tree options.resourceRoots
  let registration ← (table.register file).mapError .duplicateType
  pure (registration.tableFrom table)

def allSources (options : GatherOptions) (sources : List Source) : List Source :=
  .text (.named WellKnown.name) options.wellKnownText :: sources

def gather (options : GatherOptions) (tree : FileTree) (sources : List Source) :
    Except SchemaError SymbolTable :=
  (allSources options sources).foldlM (gatherSource options tree) (empty options.reservedPackage)

end SymbolTable

end SchemaMarshal
