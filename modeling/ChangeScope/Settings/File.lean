import ChangeScope.Failure
import ChangeScope.Settings
import ChangeScope.Toml.Printer

/-!
# Files of settings

Settings are kept in a TOML file with a table for each section. All settings must be given; others
are ignored. Where no file is named, the first one that is there of a few names is read, and where
there is none the defaults hold.
-/

set_option autoImplicit false

namespace ChangeScope.Settings

/-! ## Reading -/

/-- A part of a section: the member with a key or, in the array form, the item at a position. -/
def part? (position : Nat) (key : String) : Toml → Option Toml
  | .table members => members.lookup key
  | .array items => items[position]?
  | _ => none

/-- A string. -/
def string? : Toml → Option String
  | .string s => some s
  | _ => none

/-- A truth value. -/
def boolean? : Toml → Option Bool
  | .boolean b => some b
  | _ => none

/-- A natural number. -/
def natural? : Toml → Option Nat
  | .integer n => if 0 ≤ n then some n.toNat else none
  | _ => none

/-- An array of strings. -/
def strings? : Toml → Option (List String)
  | .array items => items.mapM string?
  | _ => none

/-- The section on the project. -/
def Project.ofToml? (t : Toml) : Option Project := do
  let repoRoot ← (part? 0 "repo_root" t).bind string?
  some ⟨⟨repoRoot⟩⟩

/-- The section on analysis. -/
def Analysis.ofToml? (t : Toml) : Option Analysis := do
  let fileExtensions ← (part? 0 "file_extensions" t).bind strings?
  let maxFileSize ← (part? 1 "max_file_size" t).bind natural?
  let ignoreWhitespace ← (part? 2 "ignore_whitespace" t).bind boolean?
  let includeUntracked ← (part? 3 "include_untracked" t).bind boolean?
  let skipTrivialHunks ← (part? 4 "skip_trivial_hunks" t).bind boolean?
  some ⟨fileExtensions, maxFileSize, ignoreWhitespace, includeUntracked, skipTrivialHunks⟩

/-- The section on the tracer. -/
def Tracer.ofToml? (t : Toml) : Option Tracer := do
  let program ← (part? 0 "program" t).bind string?
  let args ← (part? 1 "args" t).bind strings?
  let timeoutMs ← (part? 2 "timeout_ms" t).bind natural?
  let maxSessionEvents ← (part? 3 "max_session_events" t).bind natural?
  some ⟨program, args, timeoutMs, maxSessionEvents⟩

/-- The section on output. -/
def Output.ofToml? (t : Toml) : Option Output := do
  let artifactsDir ← (part? 0 "artifacts_dir" t).bind string?
  let writeArtifacts ← (part? 1 "write_artifacts" t).bind boolean?
  some ⟨⟨artifactsDir⟩, writeArtifacts⟩

/-- The settings of a document. -/
def ofToml? (t : Toml) : Option Settings := do
  let project ← (part? 0 "project" t).bind Project.ofToml?
  let analysis ← (part? 1 "analysis" t).bind Analysis.ofToml?
  let tracer ← (part? 2 "tracer" t).bind Tracer.ofToml?
  let output ← (part? 3 "output" t).bind Output.ofToml?
  some ⟨project, analysis, tracer, output⟩

/-- The settings that a text gives. -/
def ofText (text : List Char) : Except Failure Settings :=
  match Toml.ofText text with
  | none => .error (.config "invalid TOML")
  | some document =>
      match ofToml? document with
      | none => .error (.config "invalid settings")
      | some settings => .ok settings

/-! ## Writing -/

/-- A natural number, if a TOML integer can hold it. -/
def integerOf (n : Nat) : Except Failure Toml :=
  if Toml.inRange n then .ok (.integer n) else .error (.config "out-of-range value")

/-- An array of strings as TOML. -/
def stringsToToml (values : List String) : Toml := .array (values.map .string)

/-- The sections of the settings. -/
def sections (settings : Settings) : Except Failure (List Toml.Section) := do
  let maxFileSize ← integerOf settings.analysis.maxFileSize
  let timeoutMs ← integerOf settings.tracer.timeoutMs
  let maxSessionEvents ← integerOf settings.tracer.maxSessionEvents
  .ok [
    ("project", [("repo_root", .string settings.project.repoRoot.text)]),
    ("analysis", [
      ("file_extensions", stringsToToml settings.analysis.fileExtensions),
      ("max_file_size", maxFileSize),
      ("ignore_whitespace", .boolean settings.analysis.ignoreWhitespace),
      ("include_untracked", .boolean settings.analysis.includeUntracked),
      ("skip_trivial_hunks", .boolean settings.analysis.skipTrivialHunks)]),
    ("tracer", [
      ("program", .string settings.tracer.program),
      ("args", stringsToToml settings.tracer.args),
      ("timeout_ms", timeoutMs),
      ("max_session_events", maxSessionEvents)]),
    ("output", [
      ("artifacts_dir", .string settings.output.artifactsDir.text),
      ("write_artifacts", .boolean settings.output.writeArtifacts)])]

/-- The text of a file with the settings. -/
def toText (settings : Settings) : Except Failure (List Char) :=
  settings.sections.map Toml.writeDocument

/-! ## Files -/

/-- The settings of a file; `program` replaces the program that runs functions. -/
def load (tree : FileTree) (program : Option String) (file : Path) : Except Failure Settings := do
  let text ← Failure.ofFile (tree.readText file)
  let settings ← ofText text
  .ok (settings.withProgram program)

/-- The names of files that are looked for. -/
def candidates : List String := ["Flowlens.toml", "flowlens.toml", ".flowlens.toml"]

/-- The settings of the named file or else of the first candidate, if it is there, and else the
defaults. -/
def loadOrDefault (tree : FileTree) (program : Option String) (file : Option Path) :
    Except Failure Settings :=
  let named :=
    match file with
    | some file => if tree.exists? file then some file else none
    | none => (candidates.map Path.mk).find? tree.exists?
  match named with
  | some file => load tree program file
  | none => .ok (({} : Settings).withProgram program)

/-- Writes a text to a file, if there is one. -/
def writeText (tree : FileTree) (file : Path) :
    Except Failure (List Char) → FileTree × Except Failure Unit
  | .error failure => (tree, .error failure)
  | .ok text =>
      let (tree, written) := tree.write file (Text.Utf8.encode text)
      (tree, Failure.ofFile written)

/-- Writes the settings to a file. -/
def save (settings : Settings) (tree : FileTree) (file : Path) : FileTree × Except Failure Unit :=
  writeText tree file settings.toText

/-- The name of the file that is written for a new user. -/
def fileName : String := "flowlens.toml"

/-- Writes the defaults into a directory, which is made first, unless a file of settings is there
already; gives the path of the file. -/
def saveDefaults (tree : FileTree) (dir : Path) : FileTree × Except Failure Path :=
  match tree.makeDirectories dir with
  | (tree, .error cause) => (tree, .error (.io cause))
  | (tree, .ok ()) =>
      let file := dir.join fileName
      if tree.exists? file then (tree, .ok file)
      else
        let (tree, saved) := save {} tree file
        (tree, saved.map fun () => file)

end ChangeScope.Settings
