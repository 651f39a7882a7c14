import ChangeScope.CallGraph
import ChangeScope.Change.Analysis
import ChangeScope.Snapshot

/-!
# Reports

What is kept of the analysis of a change: the changed functions, who of them calls whom, and where
the snapshot of this was written.
-/

set_option autoImplicit false

namespace ChangeScope

/-- The result of an analysis. -/
structure Report where
  /-- The repository. -/
  root : Path
  changed : List ChangedFunction
  graph : CallGraph
  /-- Why files were left out. -/
  warnings : List String
  /-- The files of the snapshot, if one was written. -/
  snapshot : Option Snapshot.Paths := none
deriving DecidableEq, Repr, Inhabited

namespace Report

/-- The report on what an analysis has found, without a snapshot. -/
def ofAnalysis (tree : FileTree) (root : Path) (analysis : Analysis) : Except Abort Report := do
  let functions ← analysis.qualify tree root
  .ok { root := root
        changed := analysis.changed
        graph := CallGraph.ofFunctions functions
        warnings := analysis.warnings }

/-- Writes the snapshot of a report into a directory. -/
def save (report : Report) (dir : Path) (tree : FileTree) : FileTree × Except Failure Report :=
  let (tree, written) := Snapshot.write dir report.graph report.graph.parents tree
  (tree, written.map fun paths => { report with snapshot := some paths })

/-- The paths that a report tells. -/
def paths (report : Report) : List Path :=
  report.root :: report.changed.map (·.function.file) ++
    report.graph.nodes.map (fun (_, f) => f.function.function.file) ++
    (report.snapshot.map fun paths => [paths.functions, paths.callGraph, paths.parents]).getD []

/-- A report as JSON. -/
def toJson (report : Report) : Json :=
  .obj [
    ("repo_root", .str report.root.text),
    ("changed_functions", .arr (report.changed.map (·.toJson))),
    ("call_graph", report.graph.toJson),
    ("parent_ids", .strings report.graph.parents),
    ("statistics", report.graph.statistics.toJson),
    ("warnings", .strings report.warnings),
    ("artifacts", (report.snapshot.map (·.toJson)).getD .null)]

/-- A report as JSON, if the paths that it tells are texts. -/
def value (report : Report) (tree : FileTree) : Except FileError Json :=
  if report.paths.all tree.isText then .ok report.toJson else .error .pathNotText

end Report

end ChangeScope
