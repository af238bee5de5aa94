import SchemaMarshal.FileTree
import SchemaMarshal.Marshaller.Generation
import SchemaMarshal.Marshaller.Java

/-! Writing the sources of a report below a directory.

Each marshaller goes to a file of its own under the directories of its package. Writing stops at
the first failure, and then the tree has the files before it and the directories made so far.
-/

set_option autoImplicit false

namespace SchemaMarshal

def Marshaller.path (out : String) (marshaller : Marshaller) : String :=
  let directories := (Text.segments '.' marshaller.package).filter (· ≠ "")
  Path.push (directories.foldl Path.push out) (marshaller.name ++ ".java")

/-- What emission asks of a file system. An operation that fails may have changed the tree already. -/
structure FileSystem (Tree Error : Type) where
  /-- Make a directory and those above it that are missing. -/
  makeDirectories : Tree → String → Tree × Option Error
  write : Tree → String → ByteArray → Tree × Option Error

namespace FileSystem

/-- A path that could not be made or written, and why. -/
structure EmitError (Error : Type) where
  path : String
  cause : Error
  deriving DecidableEq, Repr

structure Emission (Tree Error : Type) where
  /-- The paths written, in order. -/
  written : List String
  tree : Tree
  error : Option (EmitError Error)

section

variable {Tree Error : Type}

def EmitError.about (path : String) : Tree × Option Error → Tree × Option (EmitError Error)
  | (tree, cause) => (tree, cause.map (⟨path, ·⟩))

variable (system : FileSystem Tree Error)

def makeParent (tree : Tree) (path : String) : Tree × Option (EmitError Error) :=
  match Path.parent? path with
  | none => (tree, none)
  | some directory => EmitError.about directory (system.makeDirectories tree directory)

/-- Write one source. A failure leaves the directories that were made for it. -/
@[irreducible]
def emitOne (conventions : Conventions) (out : String) (tree : Tree) (marshaller : Marshaller) :
    Tree × Option (EmitError Error) :=
  let path := marshaller.path out
  match system.makeParent tree path with
  | (made, some error) => (made, some error)
  | (made, none) => EmitError.about path (system.write made path (Java.render conventions marshaller).toUTF8)

def emitAll (conventions : Conventions) (out : String) (tree : Tree) : List Marshaller → Emission Tree Error
  | [] => ⟨[], tree, none⟩
  | marshaller :: rest =>
      match system.emitOne conventions out tree marshaller with
      | (after, some error) => ⟨[], after, some error⟩
      | (after, none) =>
          let emission := emitAll conventions out after rest
          { emission with written := marshaller.path out :: emission.written }

def emit (conventions : Conventions) (out : String) (tree : Tree) (report : Report) : Emission Tree Error :=
  system.emitAll conventions out tree report.marshallers

end

def EmitError.message (error : EmitError FileError) : String :=
  "failed to write " ++ error.path ++ ": " ++ error.cause.message

end FileSystem

def FileTree.system : FileSystem FileTree FileError where
  makeDirectories tree path :=
    let attempt := tree.attemptDirectories path
    (attempt.tree, attempt.error)
  write tree path content :=
    let attempt := Attempt.ofResult tree (tree.write path content)
    (attempt.tree, attempt.error)

abbrev EmitError := FileSystem.EmitError FileError

abbrev Emission := FileSystem.Emission FileTree FileError

def emit (conventions : Conventions) (out : String) (tree : FileTree) (report : Report) : Emission :=
  FileTree.system.emit conventions out tree report

end SchemaMarshal
