import ChangeScope.Json
import ChangeScope.Path

/-!
# Settings

What a user can set, section by section, and the values that hold where nothing is set.
-/

set_option autoImplicit false

namespace ChangeScope.Settings

/-- The repository that is analysed when none is named. -/
structure Project where
  repoRoot : Path := ⟨"."⟩
deriving DecidableEq, Repr, Inhabited

/-- Which files are indexed and what counts as a change. -/
structure Analysis where
  /-- The extensions of source files. -/
  fileExtensions : List String := ["py"]
  /-- The greatest size in bytes of a file that is indexed. -/
  maxFileSize : Nat := 1024 * 1024
  /-- Changes of white space and blank lines do not count. -/
  ignoreWhitespace : Bool := true
  /-- Files that are not under version control count as changed from end to end. -/
  includeUntracked : Bool := true
  /-- Hunks that change nothing but form are dropped. -/
  skipTrivialHunks : Bool := false
deriving DecidableEq, Repr, Inhabited

/-- How functions are run. -/
structure Tracer where
  /-- The program that runs them. -/
  program : String := "python3"
  /-- Its first arguments. -/
  args : List String := ["tools/trace_helper.py"]
  /-- How long a request may take, in milliseconds. -/
  timeoutMs : Nat := 10000
  /-- The greatest number of events that a session remembers. -/
  maxSessionEvents : Nat := 10000
deriving DecidableEq, Repr, Inhabited

/-- Where the snapshots of an analysis go. -/
structure Output where
  artifactsDir : Path := ⟨".flowlens"⟩
  writeArtifacts : Bool := true
deriving DecidableEq, Repr, Inhabited

end ChangeScope.Settings

namespace ChangeScope

/-- All settings. -/
structure Settings where
  project : Settings.Project := {}
  analysis : Settings.Analysis := {}
  tracer : Settings.Tracer := {}
  output : Settings.Output := {}
deriving DecidableEq, Repr, Inhabited

namespace Settings

/-- A path has one of the extensions of source files. -/
def Analysis.isSourceFile (settings : Analysis) (file : Path) : Bool :=
  file.extension?.any settings.fileExtensions.contains

/-- The settings with another program for running functions, unless its name is blank. -/
def withProgram (settings : Settings) (program : Option String) : Settings :=
  match program with
  | some name =>
      if Text.isBlankText name.toList then settings
      else { settings with tracer := { settings.tracer with program := name } }
  | none => settings

/-- The settings as JSON. -/
def toJson (settings : Settings) : Json :=
  .obj [
    ("project", .obj [("repo_root", .str settings.project.repoRoot.text)]),
    ("analysis", .obj [
      ("file_extensions", .strings settings.analysis.fileExtensions),
      ("max_file_size", .nat settings.analysis.maxFileSize),
      ("ignore_whitespace", .bool settings.analysis.ignoreWhitespace),
      ("include_untracked", .bool settings.analysis.includeUntracked),
      ("skip_trivial_hunks", .bool settings.analysis.skipTrivialHunks)]),
    ("tracer", .obj [
      ("program", .str settings.tracer.program),
      ("args", .strings settings.tracer.args),
      ("timeout_ms", .nat settings.tracer.timeoutMs),
      ("max_session_events", .nat settings.tracer.maxSessionEvents)]),
    ("output", .obj [
      ("artifacts_dir", .str settings.output.artifactsDir.text),
      ("write_artifacts", .bool settings.output.writeArtifacts)])]

end Settings

end ChangeScope
