import SchemaMarshal.SymbolIndex

/-! The types of all gathered files, by full name.

Files stay in the order of their registration, beside an index that is faithful to them. A file gives
up the types that are registered already: an equal declaration is dropped, a different one under the
same name refuses the file and leaves the table as it was.
-/

set_option autoImplicit false

namespace SchemaMarshal

structure SymbolTable where
  reservedPackage : String
  files : List SchemaFile
  index : NameMap Location
  indexed : Indexed files index
  deriving DecidableEq, Repr

structure DuplicateType where
  fullName : String
  first : Identifier
  second : Identifier
  deriving DecidableEq, Repr

def DuplicateType.message (duplicate : DuplicateType) : String :=
  "duplicate type '" ++ duplicate.fullName ++ "' declared in '" ++ duplicate.first.text ++ "' and '" ++
    duplicate.second.text ++ "'"

namespace SymbolTable

def empty (reservedPackage : String) : SymbolTable := ⟨reservedPackage, [], .empty, indexed_nil⟩

def isReserved (table : SymbolTable) (file : SchemaFile) : Bool := file.package = table.reservedPackage

/-- The files for whose types marshallers are made. -/
def userFiles (table : SymbolTable) : List SchemaFile :=
  table.files.filter fun file => !table.isReserved file

def declaration? (table : SymbolTable) (fullName : String) : Option (SchemaFile × Symbol) :=
  (table.index.get? fullName).bind fun location => location.declarationIn? table.files

def get? (table : SymbolTable) (fullName : String) : Option Symbol :=
  (table.declaration? fullName).map (·.2)

def declaringFile? (table : SymbolTable) (fullName : String) : Option SchemaFile :=
  (table.declaration? fullName).map (·.1)

def contains (table : SymbolTable) (fullName : String) : Bool := table.index.contains fullName

def fullNames (table : SymbolTable) : List String := table.index.names

def size (table : SymbolTable) : Nat := table.index.size

/-- How a declaration stands to what is registered. -/
inductive Standing where
  | fresh
  | repeated
  | conflicting (first : Identifier)
  deriving DecidableEq, Repr

def standing (table : SymbolTable) (symbol : Symbol) : Standing :=
  match table.declaration? symbol.fullName with
  | none => .fresh
  | some (file, registered) => if registered = symbol then .repeated else .conflicting file.identifier

def conflict? (table : SymbolTable) (second : Identifier) (symbol : Symbol) : Option DuplicateType :=
  match table.standing symbol with
  | .conflicting first => some ⟨symbol.fullName, first, second⟩
  | _ => none

def append (table : SymbolTable) (file : SchemaFile) : SymbolTable where
  reservedPackage := table.reservedPackage
  files := table.files ++ [file]
  index := enter table.files.length file table.index
  indexed := table.indexed.enter file

inductive Registration where
  | skipped
  | added (table : SymbolTable)
  deriving DecidableEq, Repr

/-- Register a file. A file equal to a registered one is skipped. -/
def register (table : SymbolTable) (file : SchemaFile) : Except DuplicateType Registration :=
  if file ∈ table.files then .ok .skipped
  else
    match file.symbols.findSome? (table.conflict? file.identifier) with
    | some duplicate => .error duplicate
    | none => .ok (.added (table.append (file.restrict fun symbol => table.standing symbol = .fresh)))

def Registration.tableFrom (table : SymbolTable) : Registration → SymbolTable
  | .skipped => table
  | .added after => after

end SymbolTable

end SchemaMarshal
