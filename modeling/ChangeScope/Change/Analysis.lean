import ChangeScope.Change
import ChangeScope.Git
import ChangeScope.Patch.Hunk
import ChangeScope.Qualified

/-!
# Analysis of a change

The patch of a change names files; each is indexed, and its functions that hold touched lines are
the changed functions. A file that cannot be indexed is left out with a warning and does not
disturb the others.
-/

set_option autoImplicit false

namespace ChangeScope

namespace Patch

/-- The number of lines of a file, 0 if it cannot be read as text. -/
def lineCount (tree : FileTree) (file : Path) : Nat :=
  match tree.readText file with
  | .ok text => (Text.lines text).length
  | .error _ => 0

/-- A file that is not under version control: all its lines count as touched. -/
def FileChange.ofUntracked (tree : FileTree) (root file : Path) : FileChange :=
  { path := file
    status := .untracked
    lines := List.range' 1 (lineCount tree (root.join file.text))
    removed := [] }

/-- The patch of a change without the hunks that the settings leave out. -/
def ofTarget (git : Git) (settings : Settings.Analysis) (root : Path) (target : Target) :
    Git.Asking (List Char) := do
  let text ← Git.patch git settings root target
  pure (if settings.skipTrivialHunks then dropTrivialHunks text else text)

/-- The change touches lines, or deletes the file. -/
def FileChange.hasEffect (change : FileChange) : Bool :=
  change.status = .deleted || !change.lines.isEmpty

/-- The files of a change that are source files. -/
def fileChanges (git : Git) (tree : FileTree) (settings : Settings.Analysis) (root : Path)
    (target : Target) : Git.Asking (List FileChange) := do
  let text ← ofTarget git settings root target
  let tracked := changes text
  let tracked := if settings.skipTrivialHunks then tracked.filter (·.hasEffect) else tracked
  let untracked ←
    if target = .workingTree && settings.includeUntracked then
      (do pure ((← Git.untracked git root).map (FileChange.ofUntracked tree root)))
    else pure []
  pure ((tracked ++ untracked).filter fun change => settings.isSourceFile change.path)

end Patch

/-- What the analysis of a change finds. -/
structure Analysis where
  changed : List ChangedFunction := []
  /-- The indexed files. -/
  files : List IndexedFile := []
  /-- Why files were left out. -/
  warnings : List String := []
deriving Inhabited

namespace Analysis

/-- What two analyses find together. -/
def append (a b : Analysis) : Analysis :=
  ⟨a.changed ++ b.changed, a.files ++ b.files, a.warnings ++ b.warnings⟩

/-- Nothing but a warning. -/
def warn (message : String) : Analysis := { warnings := [message] }

/-- What is found in a deleted file, from its removed text. -/
def ofDeletedFile (parser : Syntax.Parser) (file : Path) (removed : List Char) : Analysis :=
  match SourceFile.ofText file removed parser with
  | .ok source => { changed := source.functions.map ChangedFunction.ofDeleted }
  | .error failure => warn failure.message

/-- What is found in a file on disk, which the index may hold. -/
def ofPresentFile (file : Path) (change : Patch.FileChange) :
    Option (Except Failure SourceFile) → Except Abort Analysis
  | none => .ok (warn (file.text ++ " is no longer on disk, skipping"))
  | some (.error failure) => .ok (warn failure.message)
  | some (.ok source) => do
      let changed ← ChangedFunction.ofFile change.lines change.status source.functions
      .ok { changed := changed, files := [⟨file, source⟩] }

/-- What is found in the files of a change. A file on disk is taken out of the index where it is
first named. -/
def ofFileChanges (parser : Syntax.Parser) (root : Path) :
    FileIndex → List Patch.FileChange → Except Abort Analysis
  | _, [] => .ok {}
  | index, change :: rest => do
      let file := root.join change.path.text
      if change.status = .deleted then
        let others ← ofFileChanges parser root index rest
        .ok (append (ofDeletedFile parser file change.removed) others)
      else
        let (indexed, left) := index.remove file
        let found ← ofPresentFile file change indexed
        let others ← ofFileChanges parser root left rest
        .ok (append found others)

/-- The files on disk that changes name, as often as they name them. -/
def filesOnDisk (tree : FileTree) (root : Path) (changes : List Patch.FileChange) : List Path :=
  ((changes.filter fun change => change.status != .deleted).map fun change =>
    root.join change.path.text).filter tree.isFile

/-- The absolute path of a directory that is to be analysed. -/
def rootOf (tree : FileTree) (repo : Path) : Except Failure Path :=
  match tree.canonical repo with
  | .error cause => .error (.diff (repo.text ++ ": " ++ cause.message))
  | .ok root =>
      if tree.isDirectory root then .ok root
      else .error (.diff (root.text ++ " is not a directory"))

/-- Analyses a change of the repository in a directory. -/
def ofTarget (git : Git) (tree : FileTree) (settings : Settings.Analysis) (repo : Path)
    (target : Target) (parser : Syntax.Parser := Python.parser) :
    ExceptT Stop (StateM (List Git.Arguments)) Analysis := do
  match rootOf tree repo with
  | .error failure => throw (.failed failure)
  | .ok root =>
      match ← (Patch.fileChanges git tree settings root target).run with
      | .error failure => throw (.failed failure)
      | .ok changes =>
          let index := FileIndex.ofFiles parser tree settings (filesOnDisk tree root changes)
          match ofFileChanges parser root index changes with
          | .error cause => throw (.aborted cause)
          | .ok analysis => pure analysis

/-- The changed functions with their calls. -/
def qualify (tree : FileTree) (root : Path) (analysis : Analysis) :
    Except Abort (List QualifiedFunction) :=
  analysis.changed.mapM (QualifiedFunction.ofChanged tree analysis.files root)

end Analysis

end ChangeScope
