import SchemaMarshal.Command.Run

/-! The command line program.

A run sees a copy of what stands on disk at the paths it may read or write. What it writes to that
copy is then written to disk.
-/

set_option autoImplicit false

namespace SchemaMarshal

/-- Copy what stands at a path on disk, and above it, into a tree. -/
def copyPath (tree : FileTree) (path : String) : IO FileTree := do
  let here ← IO.currentDir
  let mut tree := tree
  for step in (Path.ancestors path).reverse do
    let place := here / step
    if ← place.isDir then
      tree := (tree.makeDirectories step).toOption.getD tree
    else if ← place.pathExists then
      let content ← IO.FS.readBinFile place
      tree := (tree.write step content).toOption.getD tree
  pure tree

/-- Write what a tree has at a path to disk. -/
def writePath (tree : FileTree) (path : String) : IO Unit := do
  match tree.read path with
  | .error _ => pure ()
  | .ok content =>
      let directory := (Path.parent? path).getD ""
      unless directory = "" do IO.FS.createDirAll directory
      IO.FS.writeBinFile path content

end SchemaMarshal

open SchemaMarshal in
def main (arguments : List String) : IO UInt32 := do
  let invocation := Invocation.ofArguments arguments
  let working := (Path.pieces (← IO.currentDir).toString).filter (· ≠ "")
  let inputs ← invocation.inputs.foldlM copyPath (.emptyAt working)
  -- A first run tells which paths would be written, so that obstacles on disk can be copied too.
  let tree ← (invocation.run inputs).written.foldlM copyPath inputs
  let ending := invocation.run tree
  ending.written.forM (writePath ending.tree)
  (← IO.getStdout).putStr ending.output
  (← IO.getStderr).putStr ending.errors
  pure ending.exitCode
