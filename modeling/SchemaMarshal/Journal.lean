import SchemaMarshal.Emission

/-! What happens while schemas are gathered and marshallers are made and written, as events. -/

set_option autoImplicit false

namespace SchemaMarshal

inductive Level where
  | debug
  | info
  | warn
  deriving DecidableEq, Repr

def Level.name : Level → String
  | .debug => "DEBUG"
  | .info => "INFO"
  | .warn => "WARN"

structure Event where
  level : Level
  message : String
  deriving DecidableEq, Repr

namespace Journal

def ignored (symbol : Symbol) : Event :=
  ⟨.debug, "Ignoring identical redeclaration of " ++ symbol.fullName⟩

/-- Events up to the first conflict, if there is one. -/
def register (table : SymbolTable) (file : SchemaFile) : List Event :=
  let known := file.symbols.takeWhile fun symbol => (table.conflict? file.identifier symbol).isNone
  let repeated := (known.filter fun symbol => table.standing symbol = .repeated).map ignored
  match table.register file with
  | .error _ => repeated
  | .ok .skipped => [⟨.debug, "Skipping already registered schema file " ++ file.identifier.text⟩]
  | .ok (.added _) =>
      let fresh := file.restrict fun symbol => table.standing symbol = .fresh
      repeated ++ [⟨.debug, "Registered schema file " ++ file.identifier.text ++ " (package '" ++ file.package ++
        "', " ++ toString fresh.typeCount ++ " types)"⟩]

def gatherFrom (options : GatherOptions) (tree : FileTree) (table : SymbolTable) : List Source → List Event
  | [] =>
      [⟨.info, "Aggregated " ++ toString table.files.length ++ " schema files (" ++ toString table.size ++
        " types)"⟩]
  | source :: rest =>
      match source.load tree options.resourceRoots with
      | .error _ => []
      | .ok file =>
          register table file ++
            match table.register file with
            | .error _ => []
            | .ok registration => gatherFrom options tree (registration.tableFrom table) rest

def gather (options : GatherOptions) (tree : FileTree) (sources : List Source) : List Event :=
  gatherFrom options tree (.empty options.reservedPackage) (SymbolTable.allSources options sources)

def outcome : Outcome → Event
  | .made (.message marshaller) =>
      ⟨.debug, "Synthesized message marshaller for " ++ marshaller.typeName ++ " (" ++
        toString marshaller.fields.length ++ " fields)"⟩
  | .made (.enumeration marshaller) =>
      ⟨.debug, "Synthesized enum marshaller for " ++ marshaller.typeName ++ " (" ++
        toString marshaller.values.length ++ " values)"⟩
  | .failed failure => ⟨.warn, "Failed to generate " ++ failure.typeName ++ ": " ++ failure.cause.text⟩

def generate (table : SymbolTable) (conventions : Conventions) : List Event :=
  let report := SchemaMarshal.generate table conventions
  (outcomes table conventions).map outcome ++
    [⟨.info, "Generated " ++ toString report.marshallers.length ++ " marshallers (" ++
      toString report.failures.length ++ " failures)"⟩]

def emit (out : String) (emission : Emission) : List Event :=
  emission.written.map (fun path => ⟨.debug, "Wrote " ++ path⟩) ++
    match emission.error with
    | some _ => []
    | none => [⟨.info, "Wrote " ++ toString emission.written.length ++ " sources to " ++ out⟩]

end Journal

end SchemaMarshal
