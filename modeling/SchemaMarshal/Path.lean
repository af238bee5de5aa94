import SchemaMarshal.Text.Segments

/-! Paths as text, separated by slashes.

Joining only puts text together. Taking a path apart passes over empty pieces and over single
points, except for a point that begins the path.
-/

set_option autoImplicit false

namespace SchemaMarshal.Path

def isAbsolute (path : String) : Bool := path.toList.head? = some '/'

def endsInSlash (path : String) : Bool := path.toList.getLast? = some '/'

/-- Append `part`. An absolute part replaces what stands before it. -/
def push (base part : String) : String :=
  if isAbsolute part then part
  else if base = "" || endsInSlash base then base ++ part
  else base ++ "/" ++ part

def pieces (path : String) : List String := Text.segments '/' path

/-- Whether a piece with these pieces before it adds nothing to a path. -/
def isIdle (piece : String) (before : List String) : Bool :=
  piece = "" || (piece = "." && !before.isEmpty)

/-- The path given by its pieces, the last piece first, and all paths above it. -/
def climb : List String → List (List String)
  | [] => []
  | piece :: before =>
      if isIdle piece before then climb before else (piece :: before) :: climb before

/-- A path without idle pieces at its end, and the paths above it, up to the first named one. -/
def ancestors (path : String) : List String :=
  (climb (pieces path).reverse).map fun reversed => Text.join '/' reversed.reverse

def parent? (path : String) : Option String :=
  match ancestors path with
  | [] => none
  | [_] => some (if isAbsolute path then "/" else "")
  | _ :: above :: _ => some above

/-- The last piece, if it is a name. -/
def fileName? (path : String) : Option String :=
  match climb (pieces path).reverse with
  | (piece :: _) :: _ => if piece = "." || piece = ".." then none else some piece
  | _ => none

end SchemaMarshal.Path
