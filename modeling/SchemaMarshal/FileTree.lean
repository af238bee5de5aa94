import SchemaMarshal.NameMap
import SchemaMarshal.Path

/-! Directories and files as a value.

A path leads from the root or from the working directory through existing directories; only its
last step may be missing, which is where something new can be made. There are no links. A path with
the null character leads nowhere, and names and paths have a greatest length, counted in bytes.
-/

set_option autoImplicit false

namespace SchemaMarshal

inductive FileError where
  | notFound
  | alreadyExists
  | notDirectory
  | isDirectory
  | nameTooLong
  | nullCharacter
  deriving DecidableEq, Repr

def FileError.message : FileError → String
  | .notFound => "No such file or directory (os error 2)"
  | .alreadyExists => "File exists (os error 17)"
  | .notDirectory => "Not a directory (os error 20)"
  | .isDirectory => "Is a directory (os error 21)"
  | .nameTooLong => "File name too long (os error 36)"
  | .nullCharacter => "file name contained an unexpected NUL byte"

inductive Node where
  | file (content : ByteArray)
  | directory (entries : NameMap Node)

namespace Node

def at? : Node → List String → Option Node
  | node, [] => some node
  | .file _, _ :: _ => none
  | .directory entries, name :: rest =>
      match entries.get? name with
      | some node => node.at? rest
      | none => none

/-- Put a node at a place below, whose directories exist. -/
def set : Node → List String → Node → Node
  | _, [], content => content
  | .file bytes, _ :: _, _ => .file bytes
  | .directory entries, name :: rest, content =>
      .directory (entries.insert name (set ((entries.get? name).getD (.directory .empty)) rest content))

/-- Directories one inside the other, the last of them empty. -/
def nested : List String → Node
  | [] => .directory .empty
  | name :: rest => .directory (.insert .empty name (nested rest))

mutual

def files (path : String) : Node → List (String × ByteArray)
  | .file content => [(path, content)]
  | .directory ⟨entries⟩ => filesIn path entries

def filesIn (path : String) : List (String × Node) → List (String × ByteArray)
  | [] => []
  | (name, node) :: rest => node.files (Path.push path name) ++ filesIn path rest

end

end Node

structure FileTree where
  root : Node
  /-- The names that lead from the root to the working directory. -/
  working : List String

namespace FileTree

/-- A tree with nothing but an empty working directory and what it stands in. -/
def emptyAt (working : List String) : FileTree := ⟨.nested working, working⟩

def fresh : FileTree := emptyAt ["work"]

inductive Target where
  | found (place : List String) (node : Node)
  /-- The directory at `place` exists and has no entry of this name. -/
  | missing (place : List String) (name : String)

/-- The most bytes that one name in a directory may have. -/
def nameLimit : Nat := 255

/-- The most bytes that a whole path may have. -/
def pathLimit : Nat := 4095

def walk (root : Node) (place : List String) : List String → Except FileError Target
  | [] =>
      match root.at? place with
      | some node => .ok (.found place node)
      | none => .error .notFound
  | step :: rest =>
      match root.at? place with
      | none => .error .notFound
      | some (.file _) => .error .notDirectory
      | some (.directory entries) =>
          if step = "." then walk root place rest
          else if step = ".." then walk root place.dropLast rest
          else if nameLimit < step.utf8ByteSize then .error .nameTooLong
          else
            match entries.get? step with
            | some _ => walk root (place ++ [step]) rest
            | none => if rest.isEmpty then .ok (.missing place step) else .error .notFound

def target (tree : FileTree) (path : String) : Except FileError Target :=
  if path = "" then .error .notFound
  else if path.toList.contains '\x00' then .error .nullCharacter
  else if pathLimit < path.utf8ByteSize then .error .nameTooLong
  else
    walk tree.root (if Path.isAbsolute path then [] else tree.working)
      ((Path.pieces path).filter (· ≠ ""))

def read (tree : FileTree) (path : String) : Except FileError ByteArray :=
  match tree.target path with
  | .error error => .error error
  | .ok (.missing _ _) => .error .notFound
  | .ok (.found _ (.directory _)) => .error .isDirectory
  | .ok (.found _ (.file content)) => if Path.endsInSlash path then .error .notDirectory else .ok content

def isFile (tree : FileTree) (path : String) : Bool := (tree.read path).isOk

def isDirectory (tree : FileTree) (path : String) : Bool :=
  match tree.target path with
  | .ok (.found _ (.directory _)) => true
  | _ => false

def put (tree : FileTree) (place : List String) (node : Node) : FileTree :=
  { tree with root := tree.root.set place node }

def write (tree : FileTree) (path : String) (content : ByteArray) : Except FileError FileTree :=
  match tree.target path with
  | .error error => .error error
  | .ok (.found _ (.directory _)) => .error .isDirectory
  | .ok (.found place (.file _)) =>
      if Path.endsInSlash path then .error .notDirectory else .ok (tree.put place (.file content))
  | .ok (.missing place name) =>
      if Path.endsInSlash path then .error .isDirectory
      else .ok (tree.put (place ++ [name]) (.file content))

def makeDirectory (tree : FileTree) (path : String) : Except FileError FileTree :=
  match tree.target path with
  | .error error => .error error
  | .ok (.found _ _) => .error .alreadyExists
  | .ok (.missing place name) => .ok (tree.put (place ++ [name]) (.directory .empty))

/-- A directory that is there already is as good as a new one. -/
def ensureDirectory (tree : FileTree) (path : String) : Except FileError FileTree :=
  match tree.makeDirectory path with
  | .ok after => .ok after
  | .error error => if tree.isDirectory path then .ok tree else .error error

/-- A tree after an attempt to change it and, if the attempt failed, why. What was made before the
failure stays. -/
structure Attempt where
  tree : FileTree
  error : Option FileError

def Attempt.ofResult (tree : FileTree) : Except FileError FileTree → Attempt
  | .ok after => ⟨after, none⟩
  | .error error => ⟨tree, some error⟩

/-- Make the first of some paths, each above the one before it, making the others only as needed. -/
def makeAncestors (tree : FileTree) : List String → Attempt
  | [] => ⟨tree, none⟩
  | path :: above =>
      match tree.ensureDirectory path with
      | .error .notFound =>
          let attempt := tree.makeAncestors above
          match attempt.error with
          | none => .ofResult attempt.tree (attempt.tree.ensureDirectory path)
          | some _ => attempt
      | result => .ofResult tree result

def attemptDirectories (tree : FileTree) (path : String) : Attempt := tree.makeAncestors (Path.ancestors path)

def makeDirectories (tree : FileTree) (path : String) : Except FileError FileTree :=
  let attempt := tree.attemptDirectories path
  match attempt.error with
  | none => .ok attempt.tree
  | some error => .error error

def files (tree : FileTree) : List (String × ByteArray) :=
  match tree.root.at? tree.working with
  | some node => (node.files "").mergeSort fun first second => first.1 ≤ second.1
  | none => []

end FileTree

end SchemaMarshal
