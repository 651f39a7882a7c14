import ChangeScope.Report
import ChangeScope.Settings.File
import ChangeScope.Surroundings

/-!
# Workspaces

A workspace holds what lasts from one request to the next: the settings, the report on the last
analysis, and the session of the tracer with the repository in which it runs functions. An
operation takes a workspace in its surroundings and gives an answer with what both have become. An
analysis that fails leaves the workspace as it was, and so does the tracing of a call that cannot
be found.
-/

set_option autoImplicit false

namespace ChangeScope

/-- What lasts between requests. -/
structure Workspace where
  settings : Settings
  /-- The repository in which functions are run. -/
  root : Path
  session : Trace.Session
  /-- The report on the last analysis. -/
  report : Option Report := none
deriving Inhabited

/-- Why a call cannot be traced. -/
inductive CallFailure where
  /-- There is no report in which to look. -/
  | notAnalyzed
  /-- The caller is no node of the graph. -/
  | unknownCaller (caller : String)
  /-- The caller has no such call on the line. -/
  | unknownCall (caller : String) (line : Nat) (callee : String)
  /-- The tracer failed. -/
  | failed (failure : Failure)
deriving DecidableEq, Repr

/-- The wording of a failure to trace a call. -/
def CallFailure.message : CallFailure → String
  | .notAnalyzed => "no analysis has been run yet"
  | .unknownCaller caller => caller ++ " is not a changed function"
  | .unknownCall caller line callee =>
      "no call to " ++ callee ++ " on line " ++ toString line ++ " of " ++ caller
  | .failed failure => failure.message

namespace Workspace

/-- A workspace in which nothing has happened. Functions are run in the repository of the
settings, under its absolute path if it has one. -/
def new (tree : FileTree) (settings : Settings) : Workspace :=
  let root := settings.project.repoRoot
  { settings := settings
    root := (tree.canonical root).toOption.getD root
    session := Trace.Session.new settings.tracer.maxSessionEvents }

/-- A workspace with the settings of a file or, where none is named, of the place where one may
be; `program` replaces the program that runs functions. -/
def load (tree : FileTree) (program : Option String) (file : Option Path) :
    Except Failure Workspace :=
  (Settings.loadOrDefault tree program file).map (new tree)

/-- The workspace without the writing of snapshots. -/
def withoutSnapshots (w : Workspace) : Workspace :=
  { w with settings := { w.settings with output := { w.settings.output with
      writeArtifacts := false } } }

/-! ## Analysis -/

/-- The report on a change of a repository, without a snapshot. -/
def survey (w : Workspace) (s : Surroundings) (repo : Option Path) (target : Target) :
    Except Stop Report × Surroundings :=
  match Analysis.rootOf s.files (repo.getD w.settings.project.repoRoot) with
  | .error failure => (.error (.failed failure), s)
  | .ok root =>
      let (found, calls) :=
        (Analysis.ofTarget s.git s.files w.settings.analysis root target s.parser).run.run s.calls
      (found.bind fun analysis => Stop.ofAbort (Report.ofAnalysis s.files root analysis),
        { s with calls := calls })

/-- The report with its snapshot in a directory, if the settings want one. -/
def save (w : Workspace) (s : Surroundings) (report : Report) (dir : Option Path) :
    Except Stop Report × Surroundings :=
  if w.settings.output.writeArtifacts then
    let (files, saved) := report.save (dir.getD w.settings.output.artifactsDir) s.files
    (Stop.ofFailure saved, { s with files := files })
  else (.ok report, s)

/-- The workspace with a new report. In another repository than before the tracer begins a new
session. -/
def adopt (w : Workspace) (report : Report) : Workspace :=
  if w.root.same report.root then { w with report := some report }
  else
    { w with
      root := report.root
      session := Trace.Session.new w.settings.tracer.maxSessionEvents
      report := some report }

/-- Analyses a change and keeps the report. -/
def analyze (w : Workspace) (s : Surroundings) (repo : Option Path) (target : Target)
    (dir : Option Path) : Except Stop Report × Workspace × Surroundings :=
  match w.survey s repo target with
  | (.error stop, s) => (.error stop, w, s)
  | (.ok report, s) =>
      match w.save s report dir with
      | (.error stop, s) => (.error stop, w, s)
      | (.ok report, s) => (.ok report, w.adopt report, s)

/-! ## Tracing -/

/-- Lets the tracer do something in the repository of the workspace. -/
def useTracer {α : Type} (w : Workspace) (s : Surroundings)
    (use : Trace.Backend → Trace.Tracer → α × Trace.Tracer) : α × Workspace × Surroundings :=
  let (answer, tracer) := use (s.runtime.backend w.settings.tracer) { session := w.session }
  (answer, { w with session := tracer.session },
    s.noteStarts w.settings.tracer w.root tracer.sent)

/-- Reads arguments that are given as a text; a blank text gives none. -/
def argumentsOf (text : Option String) : Except Failure (Option Trace.Arguments) :=
  match Text.trim (text.getD "").toList with
  | [] => .ok none
  | cs =>
      match Json.decodeText Trace.Arguments.decode cs with
      | .ok arguments => .ok (some arguments)
      | .error mismatch =>
          .error (.tracerProtocol ("invalid arguments JSON: " ++ mismatch.message))

/-- The trace of a function up to a line. Arguments that cannot be read give an exception. -/
def trace (w : Workspace) (s : Surroundings) (entry : String) (stopLine : Nat)
    (arguments : Option String) : List Trace.Event × Workspace × Surroundings :=
  match argumentsOf arguments with
  | .error failure => ([.ofFailure failure stopLine none], w, s)
  | .ok arguments => w.useTracer s fun backend t => t.trace backend entry stopLine arguments

/-- The parameters of a function. -/
def signature (w : Workspace) (s : Surroundings) (entry : String) :
    Except Failure (List String) × Workspace × Surroundings :=
  w.useTracer s fun backend t => t.signature backend entry

/-- The call that the last analysis has found on a line of a changed function. -/
def callOn (w : Workspace) (caller : String) (line : Nat) (callee : String) :
    Except CallFailure Call.Site :=
  match w.report with
  | none => .error .notAnalyzed
  | some report =>
      match report.graph.nodes.get? caller with
      | none => .error (.unknownCaller caller)
      | some f =>
          match f.siteAt? line callee with
          | none => .error (.unknownCall caller line callee)
          | some site => .ok site

/-- The trace of a call, with arguments from the last line of the caller. -/
def traceCall (w : Workspace) (s : Surroundings) (caller : String) (line : Nat) (callee : String)
    (stopLine : Nat) : Except CallFailure Trace.CallTrace × Workspace × Surroundings :=
  match w.callOn caller line callee with
  | .error failure => (.error failure, w, s)
  | .ok site =>
      let (traced, w, s) := w.useTracer s fun backend t => t.callSite backend caller site stopLine
      (traced.mapError .failed, w, s)

/-- The workspace with the session of the tracer forgotten. -/
def reset (w : Workspace) : Workspace := { w with session := w.session.reset }

end Workspace

end ChangeScope
