import ChangeScope.CommandLine

/-!
# The program

Runs the command line on the files below the working directory; a link counts as what it leads to.
No other program is started: git and the runtime count as not installed.
-/

set_option autoImplicit false

namespace ChangeScope.Main

/-- The names on the way to a directory. -/
def placeOf (path : String) : Place := (Text.fields (· == '/') path.toList).filter (· != [])

/-- Adds what is in a directory to a tree. -/
partial def addDirectory (tree : FileTree) (entries : Array IO.FS.DirEntry) : IO FileTree := do
  let mut tree := tree
  for entry in entries do
    let place := placeOf entry.path.toString
    match (← entry.path.metadata).type with
    | .dir =>
        tree ← addDirectory (tree.set place .directory) (← entry.path.readDir)
    | .file =>
        let content ← IO.FS.readBinFile entry.path
        tree := tree.set place (.file content.toList)
    | _ => pure ()
  return tree

/-- Brings the disk from one tree to another; directories are made before what is in them. -/
def writeChanges (before after : FileTree) : IO Unit := do
  for (place, _) in before.entries do
    if (after.entryAt? place).isNone then IO.FS.removeFile (FileTree.pathOf place).text
  for (place, entry) in after.entries.reverse do
    if before.entryAt? place != some entry then
      let path := (FileTree.pathOf place).text
      match after.foundAt? place with
      | some .directory => IO.FS.createDirAll path
      | some (.file content) => IO.FS.writeBinFile path ⟨content.toArray⟩
      | none => pure ()

end ChangeScope.Main

open ChangeScope

/-- Runs the program. -/
def main (arguments : List String) : IO UInt32 := do
  let working ← IO.currentDir
  let empty : FileTree := { working := Main.placeOf working.toString }
  let tree ← Main.addDirectory empty (← working.readDir)
  let program ← IO.getEnv "FLOWLENS_PYTHON"
  let input ←
    if CommandLine.readsInput arguments then (← IO.getStdin).readToEnd else pure ""
  match CommandLine.run { files := tree } program arguments input.toList with
  | (.error _, after) =>
      Main.writeChanges tree after.files
      return 101
  | (.ok outcome, after) =>
      Main.writeChanges tree after.files
      IO.print outcome.stdout
      IO.eprint outcome.stderr
      return outcome.exit.toUInt32
