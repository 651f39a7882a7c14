import ChangeScope.CallGraph
import ChangeScope.Failure
import ChangeScope.Json.Printer

/-!
# Snapshots

An analysis leaves three JSON files in a directory: its functions, who calls whom, and the
parents. Each file is written under another name and then moved to its place, so that at every
moment its place holds a whole file.
-/

set_option autoImplicit false

namespace ChangeScope.Snapshot

/-- Where the files of a snapshot are. -/
structure Paths where
  functions : Path
  callGraph : Path
  parents : Path
deriving DecidableEq, Repr, Inhabited

/-- The places of the files in a directory. -/
def Paths.within (dir : Path) : Paths :=
  { functions := dir.join "functions.json"
    callGraph := dir.join "call_graph.json"
    parents := dir.join "parent_functions.json" }

/-- The places as JSON. -/
def Paths.toJson (paths : Paths) : Json :=
  .obj [("functions", .str paths.functions.text), ("call_graph", .str paths.callGraph.text),
    ("parents", .str paths.parents.text)]

/-- What a snapshot says about a function. -/
def functionJson (f : QualifiedFunction) : Json :=
  let definition := f.function.function
  .obj [("body_text", .str definition.body), ("start_line", .nat definition.startLine),
    ("end_line", .nat definition.endLine), ("file_path", .str definition.file.text),
    ("file_status", .str f.function.status.name),
    ("changed_lines", .arr (f.function.lines.map .nat)),
    ("param_names", .strings definition.params)]

/-- The functions of a graph by id. -/
def functionsJson (graph : CallGraph) : Json :=
  .obj (graph.nodes.map fun (id, f) => (id, functionJson f))

/-- The functions of a graph by id, if the paths of their files are texts. -/
def functionsValue (tree : FileTree) (graph : CallGraph) : Except FileError Json :=
  if graph.nodes.all fun (_, f) => tree.isText f.function.function.file then
    .ok (functionsJson graph)
  else .error .pathNotText

/-- The path under which a file is written first. -/
def temporary (path : Path) : Path := ⟨path.text ++ ".tmp"⟩

/-- Replaces a file by the text of a value, if there is one: the text is written beside the file and
then moved to its place. -/
def replace (path : Path) (value : Except FileError Json) (tree : FileTree) :
    FileTree × Except Failure Unit :=
  match value with
  | .error cause => (tree, .error (.io cause))
  | .ok value =>
      match tree.write (temporary path) (Text.Utf8.encode value.pretty.toList) with
      | (tree, .error cause) => (tree, .error (.io cause))
      | (tree, .ok ()) =>
          match tree.rename (temporary path) path with
          | .error cause => (tree, .error (.io cause))
          | .ok tree => (tree, .ok ())

/-- Replaces files one after the other up to the first failure. -/
def replaceAll : List (Path × Except FileError Json) → FileTree → FileTree × Except Failure Unit
  | [], tree => (tree, .ok ())
  | (path, value) :: rest, tree =>
      match replace path value tree with
      | (tree, .error failure) => (tree, .error failure)
      | (tree, .ok ()) => replaceAll rest tree

/-- Writes the snapshot of a graph with its parents into a directory, which is made first. -/
def write (dir : Path) (graph : CallGraph) (parents : List String) (tree : FileTree) :
    FileTree × Except Failure Paths :=
  match tree.makeDirectories dir with
  | (tree, .error cause) => (tree, .error (.io cause))
  | (tree, .ok ()) =>
      let paths := Paths.within dir
      let (tree, result) := replaceAll
        [(paths.functions, functionsValue tree graph),
          (paths.callGraph, .ok (CallGraph.adjacencyJson graph.adjacency)),
          (paths.parents, .ok (.strings parents))] tree
      (tree, result.map fun () => paths)

end ChangeScope.Snapshot
