import SchemaMarshal.Marshaller.Naming

/-! Reading the command line.

An option's value follows it as the next argument, after an equals sign, or, for a short name, right
behind the name. Arguments after `--` are schema files. The first fault, and the first request for
help or the version, ends the reading.
-/

set_option autoImplicit false

namespace SchemaMarshal

structure SchemaArguments where
  schemas : List String
  resources : List String
  resourceRoots : List String
  packageOption : String
  deriving DecidableEq, Repr

inductive Command where
  | generate (schema : SchemaArguments) (output runtimePackage : String) (strict : Bool)
  | check (schema : SchemaArguments)
  deriving DecidableEq, Repr

inductive Invocation where
  | command (requested : Command)
  | version
  | help
  | usageError
  deriving DecidableEq, Repr

namespace Arguments

inductive Flag where
  | resource
  | resourceRoot
  | packageOption
  | output
  | runtimePackage
  | strict
  | help
  deriving DecidableEq, Repr

def Flag.long : Flag → String
  | .resource => "resource"
  | .resourceRoot => "resource-root"
  | .packageOption => "package-option"
  | .output => "output"
  | .runtimePackage => "runtime-package"
  | .strict => "strict"
  | .help => "help"

def Flag.short? : Flag → Option Char
  | .resource => some 'r'
  | .resourceRoot => some 'I'
  | .output => some 'o'
  | .help => some 'h'
  | _ => none

def Flag.takesValue : Flag → Bool
  | .strict => false
  | .help => false
  | _ => true

def schemaFlags : List Flag := [.resource, .resourceRoot, .packageOption, .help]

def generateFlags : List Flag := schemaFlags ++ [.output, .runtimePackage, .strict]

structure Collected where
  schemas : List String := []
  resources : List String := []
  resourceRoots : List String := []
  packageOption : Option String := none
  output : Option String := none
  runtimePackage : Option String := none
  strict : Bool := false
  deriving DecidableEq, Repr

inductive Stop where
  | help
  | usageError
  deriving DecidableEq, Repr

/-- Give a value to an option that may have only one. -/
def once (old : Option String) (value : String) : Except Stop (Option String) :=
  match old with
  | none => .ok (some value)
  | some _ => .error .usageError

def nonempty (path : String) : Except Stop String :=
  if path = "" then .error .usageError else .ok path

namespace Collected

def addSchema (collected : Collected) (path : String) : Except Stop Collected := do
  let path ← nonempty path
  pure { collected with schemas := collected.schemas ++ [path] }

def assign (collected : Collected) (flag : Flag) (value : String) : Except Stop Collected :=
  match flag with
  | .resource => .ok { collected with resources := collected.resources ++ [value] }
  | .resourceRoot => do
      let root ← nonempty value
      pure { collected with resourceRoots := collected.resourceRoots ++ [root] }
  | .packageOption => do
      let packageOption ← once collected.packageOption value
      pure { collected with packageOption }
  | .output => do
      let path ← nonempty value
      let output ← once collected.output path
      pure { collected with output }
  | .runtimePackage => do
      let runtimePackage ← once collected.runtimePackage value
      pure { collected with runtimePackage }
  | .strict => .error .usageError
  | .help => .error .usageError

def raise (collected : Collected) (flag : Flag) : Except Stop Collected :=
  match flag with
  | .strict => if collected.strict then .error .usageError else .ok { collected with strict := true }
  | .help => .error .help
  | _ => .error .usageError

end Collected

inductive Reading where
  | positional
  | endOfOptions
  | option (flag : Flag) (value : Option String)
  | unknown
  deriving DecidableEq, Repr

/-- A long option, its value after the first equals sign. -/
def readLong (flags : List Flag) (text : List Char) : Reading :=
  let name := String.ofList (text.takeWhile (· ≠ '='))
  let value := match text.dropWhile (· ≠ '=') with
    | [] => none
    | _ :: value => some (String.ofList value)
  match flags.find? fun flag => flag.long = name with
  | some flag => .option flag value
  | none => .unknown

/-- A short option. What follows a name without a value is never looked at, since only the request
for help has none. -/
def readShort (flags : List Flag) (name : Char) (text : List Char) : Reading :=
  match flags.find? fun flag => flag.short? = some name with
  | none => .unknown
  | some flag =>
      if !flag.takesValue then .option flag none
      else
        match text with
        | [] => .option flag none
        | '=' :: value => .option flag (some (String.ofList value))
        | value => .option flag (some (String.ofList value))

def read (flags : List Flag) (argument : String) : Reading :=
  match argument.toList with
  | '-' :: '-' :: [] => .endOfOptions
  | '-' :: '-' :: text => readLong flags text
  | '-' :: name :: text => readShort flags name text
  | _ => .positional

def isValue (argument : String) : Bool :=
  match argument.toList with
  | '-' :: _ :: _ => false
  | _ => true

def collect (flags : List Flag) (collected : Collected) : List String → Except Stop Collected
  | [] => .ok collected
  | argument :: rest =>
      match read flags argument with
      | .positional => do
          let collected ← collected.addSchema argument
          collect flags collected rest
      | .endOfOptions => rest.foldlM Collected.addSchema collected
      | .unknown => .error .usageError
      | .option flag (some value) => do
          let collected ← collected.assign flag value
          collect flags collected rest
      | .option flag none =>
          if flag.takesValue then
            match rest with
            | [] => .error .usageError
            | value :: rest =>
                if isValue value then do
                  let collected ← collected.assign flag value
                  collect flags collected rest
                else .error .usageError
          else do
            let collected ← collected.raise flag
            collect flags collected rest

def Collected.schemaArguments (collected : Collected) : SchemaArguments where
  schemas := collected.schemas
  resources := collected.resources
  resourceRoots := collected.resourceRoots
  packageOption := collected.packageOption.getD ({} : Conventions).packageOption

def Stop.invocation : Stop → Invocation
  | .help => .help
  | .usageError => .usageError

def generateInvocation (arguments : List String) : Invocation :=
  match collect generateFlags {} arguments with
  | .error stop => stop.invocation
  | .ok collected =>
      match collected.output with
      | none => .usageError
      | some output =>
          .command (.generate collected.schemaArguments output
            (collected.runtimePackage.getD ({} : Conventions).runtimePackage) collected.strict)

def checkInvocation (arguments : List String) : Invocation :=
  match collect schemaFlags {} arguments with
  | .error stop => stop.invocation
  | .ok collected => .command (.check collected.schemaArguments)

def helpInvocation (arguments : List String) : Invocation :=
  match arguments with
  | [] => .help
  | [topic] => if ["generate", "check", "help"].contains topic then .help else .usageError
  | _ => .usageError

end Arguments

def Invocation.ofArguments : List String → Invocation
  | [] => .usageError
  | first :: rest =>
      if first = "generate" then Arguments.generateInvocation rest
      else if first = "check" then Arguments.checkInvocation rest
      else if first = "help" then Arguments.helpInvocation rest
      else if first = "--version" then .version
      else if first = "--help" then .help
      else
        match first.toList with
        | '-' :: 'V' :: _ => .version
        | '-' :: 'h' :: _ => .help
        | _ => .usageError

end SchemaMarshal
