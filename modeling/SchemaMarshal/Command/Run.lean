import SchemaMarshal.Command.Arguments
import SchemaMarshal.Emission

/-! Running a command on a file tree.

A run ends with an exit code, two texts and the tree it leaves. Types that cannot be generated are
listed first; a failure of the whole run is told with the chain of its causes.
-/

set_option autoImplicit false

namespace SchemaMarshal

def ParseError.causes : ParseError → List String
  | .encoding fault => [fault.message]
  | _ => []

def SchemaError.causes : SchemaError → List String
  | .parse error => error.message :: error.causes
  | .io error => [error.message]
  | .duplicateType _ => []
  | .resourceNotFound _ => []

inductive RunError where
  | noSources
  | gathering (error : SchemaError)
  | incomplete (failures : Nat)
  | emission (error : EmitError)
  deriving DecidableEq, Repr

namespace RunError

def message : RunError → String
  | .noSources => "no schema sources given"
  | .gathering _ => "failed to aggregate schemas"
  | .incomplete failures => toString failures ++ " types failed to generate"
  | .emission error => error.message

def causes : RunError → List String
  | .gathering error => error.message :: error.causes
  | .emission error => [error.cause.message]
  | .noSources => []
  | .incomplete _ => []

def indented (indent text : String) : String :=
  String.join ((Text.segments '\n' text).intersperse ("\n" ++ indent))

def numbered (number : Nat) : String :=
  let digits := toString number
  String.ofList (List.replicate (5 - digits.length) ' ') ++ digits ++ ": "

def causeLines : List String → List String
  | [] => []
  | [cause] => ["", "Caused by:", "    " ++ indented "    " cause]
  | causes =>
      "" :: "Caused by:" ::
        causes.mapIdx fun number cause => numbered number ++ indented "       " cause

def text (error : RunError) : String :=
  String.join ((("Error: " ++ error.message) :: causeLines error.causes).map fun line => line ++ "\n")

end RunError

structure Ending where
  exitCode : UInt32
  output : String
  errors : String
  /-- The paths written, in order. -/
  written : List String := []
  tree : FileTree

namespace SchemaArguments

def sources (arguments : SchemaArguments) : List Source :=
  arguments.schemas.map .file ++ arguments.resources.map .resource

def report (arguments : SchemaArguments) (conventions : Conventions) (tree : FileTree) :
    Except RunError Report :=
  if arguments.schemas.isEmpty && arguments.resources.isEmpty then .error .noSources
  else
    match SymbolTable.gather { resourceRoots := arguments.resourceRoots } tree arguments.sources with
    | .error error => .error (.gathering error)
    | .ok table => .ok (generate table conventions)

end SchemaArguments

def failureLines (report : Report) : String :=
  String.join (report.failures.map fun failure =>
    "error: " ++ failure.typeName ++ ": " ++ failure.cause.text ++ "\n")

def Ending.succeeded (output : String) (tree : FileTree) : Ending where
  exitCode := 0
  output := output
  errors := ""
  tree := tree

/-- A failed run says why after `errors`. -/
def Ending.failed (errors : String) (tree : FileTree) (error : RunError) : Ending where
  exitCode := 1
  output := ""
  errors := errors ++ error.text
  tree := tree

namespace Command

def conventions : Command → Conventions
  | .generate schema _ runtimePackage _ => { packageOption := schema.packageOption, runtimePackage }
  | .check schema => { packageOption := schema.packageOption }

def schema : Command → SchemaArguments
  | .generate schema _ _ _ => schema
  | .check schema => schema

/-- A check, and a strict generation, fail if any type does. -/
def isStrict : Command → Bool
  | .generate _ _ _ strict => strict
  | .check _ => true

/-- What is left to do with a report. A check comes here only if no type failed. -/
def finish (command : Command) (tree : FileTree) (report : Report) : Ending :=
  match command with
  | .check _ => .succeeded (toString report.marshallers.length ++ " marshallers OK\n") tree
  | .generate _ output _ _ =>
      let emission := emit command.conventions output tree report
      let failures := failureLines report
      let written := emission.written
      match emission.error with
      | some error => { Ending.failed failures emission.tree (.emission error) with written }
      | none =>
          let summary := "Generated " ++ toString written.length ++ " marshallers in " ++ output ++ "\n"
          { Ending.succeeded summary emission.tree with errors := failures, written }

def run (command : Command) (tree : FileTree) : Ending :=
  match command.schema.report command.conventions tree with
  | .error error => .failed "" tree error
  | .ok report =>
      if command.isStrict && !report.isComplete then
        .failed (failureLines report) tree (.incomplete report.failures.length)
      else command.finish tree report

end Command

def versionText : String := "marshgen 0.3.0\n"

def usageText : String :=
  "Usage: marshgen generate [OPTIONS] --output <OUTPUT> [SCHEMAS]...\n" ++
  "       marshgen check [OPTIONS] [SCHEMAS]...\n"

def Invocation.run (tree : FileTree) : Invocation → Ending
  | .command requested => requested.run tree
  | .version => .succeeded versionText tree
  | .help => .succeeded usageText tree
  | .usageError => { exitCode := 2, output := "", errors := usageText, tree }

def Invocation.inputs : Invocation → List String
  | .command requested =>
      requested.schema.schemas ++
        requested.schema.resourceRoots.flatMap fun root => requested.schema.resources.map (Path.push root)
  | _ => []

end SchemaMarshal
