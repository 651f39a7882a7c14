import ChangeScope.Proofs.Change.Part
import ChangeScope.Proofs.Change.Told
import ChangeScope.Proofs.Python.Statements
import ChangeScope.Proofs.Text.Utf8

/-!
# Files do not disturb one another

Other bytes in one file leave the list of the files of a change as it is, and every other file
contributes what it did (`exact_and_isolated`). A file that is listed under two names counts once
(`alias_counts_as_missing`).
-/

set_option autoImplicit false

namespace ChangeScope

namespace Analysis

/-! ## Other bytes in one file -/

variable {parser : Syntax.Parser} {tree : FileTree} {settings : Settings.Analysis} {root : Path}
  {place : Place} {old : Bytes} (new : Bytes)

theorem rootOf_put (h : tree.foundAt? place = some (.file old)) (repo : Path) :
    rootOf (tree.put place new) repo = rootOf tree repo := by
  unfold rootOf
  rw [FileTree.canonical_put new h]
  split
  · rfl
  · rw [FileTree.isDirectory_put new h]

theorem onDisk_put (parser : Syntax.Parser) (settings : Settings.Analysis)
    (h : tree.foundAt? place = some (.file old)) {file : Path}
    (hfile : ¬ tree.LeadsToFile place file) :
    SourceFile.onDisk parser (tree.put place new) settings file =
      SourceFile.onDisk parser tree settings file := by
  unfold SourceFile.onDisk
  rw [FileTree.isFile_put new h, SourceFile.load_put parser new h settings hfile]

/-- The change does not depend on what the file at a place holds. -/
def IsElsewhere (tree : FileTree) (root : Path) (place : Place) (change : Patch.FileChange) :
    Prop :=
  change.status = .deleted ∨ ¬ tree.LeadsToFile place (change.file root)

/-- The file of a change elsewhere contributes what it did. -/
theorem IsPart.of_put (h : tree.foundAt? place = some (.file old)) {change : Patch.FileChange}
    (helsewhere : IsElsewhere tree root place change) {part : Analysis}
    (hpart : IsPart parser (tree.put place new) settings root change part) :
    IsPart parser tree settings root change part := by
  rcases helsewhere with hdeleted | hfile
  · exact ⟨fun hne => absurd hdeleted hne,
      fun hstatus => absurd (hdeleted.symm.trans hstatus) Patch.Status.noConfusion,
      fun hne => absurd hdeleted hne, hpart.deleted, hpart.deletedFailed⟩
  · have hsame := onDisk_put new parser settings h hfile
    exact ⟨hsame ▸ hpart.present, hsame ▸ hpart.untracked, hsame ▸ hpart.failed, hpart.deleted,
      hpart.deletedFailed⟩

/-- The change of a file, told with other bytes at a place. -/
structure Kept (tree : FileTree) (root : Path) (place : Place) (change change' : Patch.FileChange) :
    Prop where
  path : change'.path = change.path
  status : change'.status = change.status
  elsewhere : IsElsewhere tree root place change → change' = change

theorem kept_ofUntracked (h : tree.foundAt? place = some (.file old)) (file : Path) :
    Kept tree root place (Patch.FileChange.ofUntracked tree root file)
      (Patch.FileChange.ofUntracked (tree.put place new) root file) where
  path := rfl
  status := rfl
  elsewhere helsewhere := by
    have hfile : ¬ tree.LeadsToFile place (root.join file.text) :=
      helsewhere.resolve_left Patch.Status.noConfusion
    unfold Patch.FileChange.ofUntracked Patch.lineCount
    rw [FileTree.readText_put new h hfile]

/-- The same files are told in the same order. -/
theorem kept_filesOf (settings : Settings.Analysis) (root : Path)
    (h : tree.foundAt? place = some (.file old)) (told : List Char × List Path) :
    List.Forall₂ (Kept tree root place) (Patch.filesOf tree settings root told)
      (Patch.filesOf (tree.put place new) settings root told) := by
  have htracked : List.Forall₂ (Kept tree root place) (Patch.trackedOf settings told.1)
      (Patch.trackedOf settings told.1) :=
    List.forall₂_same.mpr fun _ _ => ⟨rfl, rfl, fun _ => rfl⟩
  have huntracked : List.Forall₂ (Kept tree root place)
      (told.2.map (Patch.FileChange.ofUntracked tree root))
      (told.2.map (Patch.FileChange.ofUntracked (tree.put place new) root)) := by
    rw [List.forall₂_map_left_iff, List.forall₂_map_right_iff]
    exact List.forall₂_same.mpr fun file _ => kept_ofUntracked new h file
  refine List.rel_filter ?_ (List.rel_append htracked huntracked)
  intro change change' hkept
  show settings.isSourceFile change.path = true ↔ settings.isSourceFile change'.path = true
  rw [hkept.path]

theorem presentFiles_of_kept {changes changes' : List Patch.FileChange}
    (h : List.Forall₂ (Kept tree root place) changes changes') :
    presentFiles root changes' = presentFiles root changes := by
  unfold presentFiles
  induction h with
  | nil => rfl
  | @cons change change' rest rest' hkept _ ih =>
      have hfile : change'.file root = change.file root := by
        rw [Patch.FileChange.file, hkept.path, Patch.FileChange.file]
      rw [List.filter_cons, List.filter_cons, hkept.status]
      split
      · rw [List.map_cons, List.map_cons, ih, hfile]
      · exact ih

/-- Files elsewhere are told as they were and contribute what they did. -/
structure SameElsewhere (tree : FileTree) (root : Path) (place : Place)
    (changes changes' : List Patch.FileChange) (parts parts' : List Analysis) : Prop where
  length : changes'.length = changes.length
  same : ∀ (i : Nat) (change : Patch.FileChange), changes[i]? = some change →
    IsElsewhere tree root place change →
    changes'[i]? = some change ∧ parts'[i]? = parts[i]?

theorem sameElsewhere (h : tree.foundAt? place = some (.file old))
    {changes changes' : List Patch.FileChange} {parts parts' : List Analysis}
    (hkept : List.Forall₂ (Kept tree root place) changes changes')
    (hparts : List.Forall₂ (IsPart parser tree settings root) changes parts)
    (hparts' : List.Forall₂ (IsPart parser (tree.put place new) settings root) changes' parts') :
    SameElsewhere tree root place changes changes' parts parts' := by
  refine ⟨hkept.length_eq.symm, ?_⟩
  induction hkept generalizing parts parts' with
  | nil => exact fun i change hget => absurd hget (by simp)
  | @cons first first' rest rest' hfirst _ ih =>
      obtain ⟨part, parts, hpart, hothers, rfl⟩ := List.forall₂_cons_left_iff.mp hparts
      obtain ⟨part', parts', hpart', hothers', rfl⟩ := List.forall₂_cons_left_iff.mp hparts'
      intro i change hget helsewhere
      cases i with
      | zero =>
          obtain rfl : first = change := Option.some.inj hget
          have hsame := hfirst.elsewhere helsewhere
          rw [hsame] at hpart'
          exact ⟨congrArg some hsame, congrArg some ((hpart'.of_put new h helsewhere).unique hpart)⟩
      | succ i => exact ih hothers hothers' i change hget helsewhere

theorem whole_filesOf (told : List Char × List Path) :
    ∀ change ∈ Patch.filesOf tree settings root told, Whole tree root change := by
  intro change hmem hstatus
  rcases List.mem_append.mp (List.mem_filter.mp hmem).1 with htracked | huntracked
  · have hpatch : change ∈ Patch.changes told.1 := by
      unfold Patch.trackedOf at htracked
      split at htracked
      · exact (List.mem_filter.mp htracked).1
      · exact htracked
    exact absurd hstatus (Patch.status_of_changes hpatch)
  · obtain ⟨file, -, rfl⟩ := List.mem_map.mp huntracked
    rfl

/-- An analysis of different files is the joined parts of what git tells. -/
theorem joined_of_told (hfaithful : Python.Faithful parser) {git : Git} {repo : Path}
    {target : Target} {calls calls' : List Git.Arguments} {told : List Char × List Path}
    (hroot : rootOf tree repo = .ok root)
    (htold : (Patch.told git settings root target).run.run calls = (.ok told, calls'))
    (hdistinct : (presentFiles root (Patch.filesOf tree settings root told)).Pairwise
      fun p q => p.same q = false) :
    ∃ parts, (ofTarget git tree settings repo target parser).run.run calls =
        (.ok (joined parts), calls') ∧
      List.Forall₂ (IsPart parser tree settings root) (Patch.filesOf tree settings root told)
        parts := by
  obtain ⟨parts, hjoined, hparts⟩ :=
    joined_of_ofFileChanges hfaithful settings (whole_filesOf told) hdistinct
  refine ⟨parts, ?_, hparts⟩
  rw [run_ofTarget parser git tree settings target calls hroot, Patch.run_fileChanges, htold]
  have honDisk := hdistinct.filter tree.isFile
  rw [← filesOnDisk_eq] at honDisk
  show (Stop.ofAbort (ofChanges parser tree settings root _), calls') = _
  rw [ofChanges, ofFiles_eq parser tree settings honDisk, hjoined]
  rfl

/-- An analysis that succeeds knows its root and what git tells. -/
theorem told_of_run {git : Git} {repo : Path} {target : Target} {calls calls' : List Git.Arguments}
    {analysis : Analysis}
    (hrun : (ofTarget git tree settings repo target parser).run.run calls =
      (.ok analysis, calls')) :
    ∃ root told, rootOf tree repo = .ok root ∧
      (Patch.told git settings root target).run.run calls = (.ok told, calls') := by
  cases hroot : rootOf tree repo with
  | error failure =>
      unfold ofTarget at hrun
      rw [hroot] at hrun
      exact absurd (congrArg Prod.fst hrun) (by rintro ⟨⟩)
  | ok root =>
      rw [run_ofTarget parser git tree settings target calls hroot, Patch.run_fileChanges] at hrun
      rcases htold : (Patch.told git settings root target).run.run calls with ⟨found, calls''⟩
      rw [htold] at hrun
      obtain ⟨hfound, rfl⟩ := Prod.mk.inj hrun
      cases found with
      | error failure => exact absurd hfound (by rintro ⟨⟩)
      | ok told => exact ⟨root, told, rfl, htold⟩

/-- **The analysis of a change is made of a part for each file**, if no two of them are one file on
disk, and other bytes in one file change no part of another. -/
theorem exact_and_isolated (hfaithful : Python.Faithful parser) {git : Git} {repo : Path}
    {target : Target} {calls calls' : List Git.Arguments} {analysis : Analysis}
    (hrun : (ofTarget git tree settings repo target parser).run.run calls =
      (.ok analysis, calls')) :
    ∃ root changes, rootOf tree repo = .ok root ∧
      (Patch.fileChanges git tree settings root target).run.run calls = (.ok changes, calls') ∧
      ((presentFiles root changes).Pairwise (fun p q => p.same q = false) →
        ∃ parts, analysis = joined parts ∧
          List.Forall₂ (IsPart parser tree settings root) changes parts ∧
          ∀ place old new, tree.foundAt? place = some (.file old) →
            ∃ changes' parts',
              (Patch.fileChanges git (tree.put place new) settings root target).run.run
                calls = (.ok changes', calls') ∧
              (ofTarget git (tree.put place new) settings repo target parser).run.run
                calls = (.ok (joined parts'), calls') ∧
              List.Forall₂ (IsPart parser (tree.put place new) settings root) changes' parts' ∧
              SameElsewhere tree root place changes changes' parts parts') := by
  obtain ⟨root, told, hroot, htold⟩ := told_of_run hrun
  have hchanges : ∀ tree, (Patch.fileChanges git tree settings root target).run.run calls =
      (.ok (Patch.filesOf tree settings root told), calls') := by
    intro tree
    rw [Patch.run_fileChanges, htold]
    rfl
  refine ⟨root, _, hroot, hchanges tree, fun hdistinct => ?_⟩
  obtain ⟨parts, hjoined, hparts⟩ := joined_of_told hfaithful hroot htold hdistinct
  rw [hrun] at hjoined
  refine ⟨parts, Except.ok.inj (congrArg Prod.fst hjoined), hparts, ?_⟩
  intro place old new hplace
  have hkept := kept_filesOf new settings root hplace told
  rw [← presentFiles_of_kept hkept] at hdistinct
  obtain ⟨parts', hjoined', hparts'⟩ :=
    joined_of_told hfaithful ((rootOf_put new hplace repo).trans hroot) htold hdistinct
  exact ⟨_, parts', hchanges _, hjoined', hparts', sameElsewhere new hplace hkept hparts hparts'⟩

end Analysis

/-! ## A file under two names

A file that defines a name twice, and git that lists it as not under version control. -/

namespace Twice

open Python (Line Part Statement)

def source : String := "def f():\n    pass\ndef f():\n    g()\ndef g():\n    pass\n"

def header (name : Char) (line : Nat) : Line :=
  ⟨⟨[], .name, "def".toList, line⟩, [⟨[' '], .name, [name], line⟩, ⟨[], .mark, ['('], line⟩,
    ⟨[], .mark, [')'], line⟩, ⟨[], .mark, [':'], line⟩], []⟩

def passing (line : Nat) : Line := ⟨⟨[' ', ' ', ' ', ' '], .name, "pass".toList, line⟩, [], []⟩

def calling (line : Nat) : Line :=
  ⟨⟨[' ', ' ', ' ', ' '], .name, ['g'], line⟩, [⟨[], .mark, ['('], line⟩, ⟨[], .mark, [')'], line⟩],
    []⟩

/-- The headers, each with the line of its block. -/
def functions : List (Line × Line) :=
  [(header 'f' 1, passing 2), (header 'f' 3, calling 4), (header 'g' 5, passing 6)]

def lines : List Line :=
  [header 'f' 1, passing 2, header 'f' 3, calling 4, header 'g' 5, passing 6]

theorem lines_source : Python.lines? source.toList = some lines := by
  have htokens : Python.tokens? source.toList =
      some (lines.flatMap fun l => l.tokens ++ [⟨[], .lineEnd, ['\n'], l.first⟩], []) := by
    decide +kernel
  rw [Python.lines?, htokens]
  cbv

theorem parse_source : Python.parse? source.toList =
    some [.mk .definition (header 'f' 1) [] [.mk .simple (passing 2) (passing 2).tokens []],
      .mk .definition (header 'f' 3) [] [.mk .simple (calling 4) (calling 4).tokens []],
      .mk .definition (header 'g' 5) [] [.mk .simple (passing 6) (passing 6).tokens []]] :=
  @Python.parse?_functions _ _ functions lines_source rfl (by decide)

/-- The file, indexed under a path. -/
def indexed (path : Path) : SourceFile :=
  { path := path
    language := "python"
    functions := [⟨path, "f", 1, 2, "def f():\n    pass", []⟩,
      ⟨path, "f", 3, 4, "def f():\n    g()", []⟩, ⟨path, "g", 5, 6, "def g():\n    pass", []⟩]
    bindings := [] }

/-- A parser indexes the file, under whichever path. -/
def Indexes (parser : Syntax.Parser) : Prop :=
  ∀ {path : Path}, path.extension? = some "py" →
    SourceFile.ofText path source.toList parser = .ok (indexed path)

theorem indexes_python : Indexes Python.parser := by
  intro path h
  unfold SourceFile.ofText Python.parse Python.parser
  rw [if_pos h, parse_source]
  rfl

/-- The syntax tree of the file. -/
def syntaxTree : Syntax.Node :=
  Python.branch source.toList "module" none 0 53
    [Python.plainFunction source.toList 0 13 17 [Python.passNode source.toList 13],
      Python.plainFunction source.toList 18 31 34
        [Python.branch source.toList "expression_statement" none 31 34
          [Python.branch source.toList "call" none 31 34
            [Python.branch source.toList "identifier" (some "function") 31 32 [],
              Python.branch source.toList "argument_list" (some "arguments") 32 34
                [Python.leaf source.toList "(" 32, Python.leaf source.toList ")" 33]]]],
      Python.plainFunction source.toList 35 48 52 [Python.passNode source.toList 48]]

def recorded : Syntax.Parser := Python.recorded source.toList syntaxTree

theorem faithful_recorded : Python.Faithful recorded :=
  Python.faithful_recorded (by decide +kernel) (by decide +kernel)

theorem indexes_recorded : Indexes recorded := by
  intro path h
  unfold SourceFile.ofText Python.parse recorded Python.recorded
  rw [if_pos h, if_pos rfl]
  rfl

/-- The file and another one, which git does not list. -/
def tree : FileTree :=
  { entries := [(["repo".toList, "m.py".toList], .file (Text.Utf8.bytesOf source.toList)),
      (["repo".toList, "n.py".toList], .file [])] }

/-- The names of the file. -/
def names : List Path := [⟨"/repo/m.py"⟩, ⟨"/repo/./m.py"⟩]

theorem find_tree {path : Path} (h : path ∈ names) :
    tree.find path =
      .ok (["repo".toList, "m.py".toList], .file (Text.Utf8.bytesOf source.toList)) := by
  rcases List.mem_cons.mp h with rfl | h
  · rfl
  · obtain rfl := List.mem_singleton.mp h
    rfl

/-- The file leads to no name of the other one. -/
theorem not_leadsToFile_tree :
    ¬ tree.LeadsToFile ["repo".toList, "n.py".toList] ⟨"/repo/m.py"⟩ := by
  have hplace : tree.place ⟨"/repo/m.py"⟩ = .ok ["repo".toList, "m.py".toList] := rfl
  have hentry : tree.entryAt? ["repo".toList, "n.py".toList] = some (.file []) := rfl
  rintro ⟨here, hhere, rfl | ⟨number, hshared, -⟩⟩
  · rw [hplace] at hhere
    exact absurd (Except.ok.inj hhere) (by decide)
  · rw [hentry] at hshared
    cases hshared

theorem readText_tree {path : Path} (h : path ∈ names) :
    tree.readText path = .ok source.toList := by
  have hread : tree.read path = .ok (Text.Utf8.bytesOf source.toList) := by
    rw [FileTree.read, find_tree h]
    rfl
  unfold FileTree.readText
  rw [hread]
  dsimp only [bind, Except.bind]
  rw [Text.Utf8.decode?_bytesOf (by decide)]

variable {parser : Syntax.Parser} (hindexes : Indexes parser)
include hindexes

theorem load_tree {path : Path} (h : path ∈ names) :
    SourceFile.load tree {} path parser = .ok (indexed path) := by
  have hextension : ∀ path ∈ names, path.extension? = some "py" := by decide
  unfold SourceFile.load
  rw [find_tree h, readText_tree h]
  show (if 1024 * 1024 < (Text.Utf8.bytesOf source.toList).length then
      .error (.parse path "file exceeds maximum size limit")
    else SourceFile.ofText path source.toList parser : Except Failure SourceFile) = _
  rw [if_neg (by decide), hindexes (hextension path h)]

theorem onDisk_tree {path : Path} (h : path ∈ names) :
    SourceFile.onDisk parser tree {} path = .ok (indexed path) := by
  have hfile : tree.isFile path = true := by
    rw [FileTree.isFile, find_tree h]
  unfold SourceFile.onDisk
  rw [if_pos hfile, load_tree hindexes h]
  rfl

omit hindexes

/-- Git that finds no difference and lists some files as not under version control. -/
def git (listing : String) : Git := some fun arguments =>
  { stdout := if arguments.contains "ls-files" then Text.Utf8.bytesOf listing.toList else [] }

def root : Path := ⟨"/repo"⟩

theorem rootOf_tree : Analysis.rootOf tree root = .ok root := rfl

/-- What git is asked. -/
def calls : List Git.Arguments :=
  [["-C", "/repo", "diff", "--relative", "--no-color", "--no-ext-diff", "-U0",
      "--ignore-space-at-eol", "-b", "-w", "--ignore-blank-lines"],
    ["-C", "/repo", "ls-files", "--others", "--exclude-standard"]]

/-- The change of the file by one of its names. -/
def change (file : Path) : Patch.FileChange := ⟨file, .untracked, [1, 2, 3, 4, 5, 6], []⟩

theorem run_told {listing : String} (hnarrow : Text.Utf8.isNarrow listing.toList = true) :
    (Patch.told (git listing) {} root .workingTree).run.run [] =
      (.ok ([], ((Text.lines listing.toList).filter fun line => !Text.isBlankText line).map
        fun line => ⟨String.ofList line⟩), calls) := by
  have hpatch : (Patch.ofTarget (git listing) {} root .workingTree).run.run [] =
      (.ok [], [calls[0]]) := by
    have htext : (Git.patch (git listing) {} root .workingTree).run.run [] =
        (.ok (Text.Utf8.decodeLossy []), [calls[0]]) :=
      Git.run_text "diff" calls[0] (by decide) rfl
    rw [Patch.ofTarget, run_bind htext, Text.Utf8.decodeLossy, Text.Utf8.units]
    rfl
  have huntracked : (Git.untracked (git listing) root).run.run [calls[0]] =
      (.ok (((Text.lines listing.toList).filter fun line => !Text.isBlankText line).map
        fun line => ⟨String.ofList line⟩), calls) := by
    have htext : (Git.text (git listing) "ls-files" (Git.untrackedArguments root)).run.run
        [calls[0]] = (.ok (Text.Utf8.decodeLossy (Text.Utf8.bytesOf listing.toList)), calls) :=
      Git.run_text "ls-files" (Git.untrackedArguments root) (by decide) rfl
    rw [Text.Utf8.decodeLossy_bytesOf hnarrow] at htext
    unfold Git.untracked
    rw [run_bind htext]
    rfl
  unfold Patch.told
  rw [run_bind hpatch]
  show (Git.untracked (git listing) root >>= fun paths => pure ([], paths)).run.run _ = _
  rw [run_bind huntracked]
  rfl

/-- The changes that the listing of some names of the file makes. -/
theorem run_fileChanges (listing : String) (files : List Path)
    (hnarrow : Text.Utf8.isNarrow listing.toList = true)
    (hlisting : ((Text.lines listing.toList).filter fun line => !Text.isBlankText line).map
      (fun line => (⟨String.ofList line⟩ : Path)) = files)
    (hfiles : ∀ file ∈ files, root.join file.text ∈ names ∧ file.extension? = some "py") :
    (Patch.fileChanges (git listing) tree {} root .workingTree).run.run [] =
      (.ok (files.map change), calls) := by
  have hcount : (Text.lines source.toList).length = 6 := by decide
  have hchanges : files.map (Patch.FileChange.ofUntracked tree root) = files.map change := by
    refine List.map_congr_left fun file hfile => ?_
    rw [Patch.FileChange.ofUntracked, Patch.lineCount, readText_tree (hfiles file hfile).1]
    dsimp only
    rw [hcount]
    rfl
  have hsource : ∀ c ∈ files.map change, Settings.Analysis.isSourceFile {} c.path = true := by
    intro c hc
    obtain ⟨file, hfile, rfl⟩ := List.mem_map.mp hc
    show file.extension?.any _ = true
    rw [(hfiles file hfile).2]
    rfl
  rw [Patch.run_fileChanges, run_told hnarrow, hlisting]
  show (Except.ok (Patch.filesOf tree {} root ([], files)), _) = _
  rw [Patch.filesOf, hchanges]
  show (Except.ok ((files.map change).filter _), _) = _
  rw [List.filter_eq_self.mpr hsource]

/-- All functions of the file as they are found under a path, with all their lines. -/
def changed (path : Path) : List ChangedFunction :=
  [⟨⟨path, "f", 1, 2, "def f():\n    pass", []⟩, [1, 2], .untracked⟩,
    ⟨⟨path, "f", 3, 4, "def f():\n    g()", []⟩, [3, 4], .untracked⟩,
    ⟨⟨path, "g", 5, 6, "def g():\n    pass", []⟩, [5, 6], .untracked⟩]

/-- What is found in the file. -/
def found : Analysis :=
  { changed := changed ⟨"/repo/m.py"⟩, files := [⟨⟨"/repo/m.py"⟩, indexed ⟨"/repo/m.py"⟩⟩] }

/-- What is found in the file when it is listed a second time: it is indexed under its second name,
and under this name it counts as missing. -/
def foundTwice : Analysis :=
  { changed := changed ⟨"/repo/./m.py"⟩
    files := [⟨⟨"/repo/m.py"⟩, indexed ⟨"/repo/./m.py"⟩⟩]
    warnings := ["/repo/./m.py is no longer on disk, skipping"] }

include hindexes

theorem run_once : (Analysis.ofTarget (git "m.py\n") tree {} root .workingTree parser).run.run [] =
    (.ok found, calls) := by
  have hchanges := run_fileChanges "m.py\n" [⟨"m.py"⟩] (by decide) rfl (by decide)
  have hindex : FileIndex.ofFiles parser tree {} [⟨"/repo/m.py"⟩] =
      [(⟨"/repo/m.py"⟩, .ok (indexed ⟨"/repo/m.py"⟩))] := by
    rw [FileIndex.ofFiles, List.foldl_cons, load_tree hindexes (by decide)]
    rfl
  have hfound : Analysis.ofChanges parser tree {} root [change ⟨"m.py"⟩] = .ok found := by
    show Analysis.ofFileChanges parser root
      (FileIndex.ofFiles parser tree {} [⟨"/repo/m.py"⟩]) _ = _
    rw [hindex]
    rfl
  exact Analysis.run_ofTarget_ok rootOf_tree hchanges hfound

theorem run_twice :
    (Analysis.ofTarget (git "m.py\n./m.py\n") tree {} root .workingTree parser).run.run [] =
      (.ok foundTwice, calls) := by
  have hchanges := run_fileChanges "m.py\n./m.py\n" [⟨"m.py"⟩, ⟨"./m.py"⟩] (by decide) rfl
    (by decide)
  have hindex : FileIndex.ofFiles parser tree {} names =
      [(⟨"/repo/m.py"⟩, .ok (indexed ⟨"/repo/./m.py"⟩))] := by
    rw [FileIndex.ofFiles, names, List.foldl_cons, List.foldl_cons,
      load_tree hindexes (by decide), load_tree hindexes (by decide)]
    rfl
  have hfound : Analysis.ofChanges parser tree {} root [change ⟨"m.py"⟩, change ⟨"./m.py"⟩] =
      .ok foundTwice := by
    show Analysis.ofFileChanges parser root (FileIndex.ofFiles parser tree {} names) _ = _
    rw [hindex]
    rfl
  exact Analysis.run_ofTarget_ok rootOf_tree hchanges hfound

end Twice

/-- Bytes that are no text, in a file that git does not list, change nothing. -/
theorem Analysis.exact_and_isolated_unlisted :
    Python.Faithful Twice.recorded ∧
      (ofTarget (Twice.git "m.py\n") Twice.tree {} Twice.root .workingTree Twice.recorded).run.run
        [] = (.ok Twice.found, Twice.calls) ∧
      List.Forall₂ (IsPart Twice.recorded Twice.tree {} Twice.root) [Twice.change ⟨"m.py"⟩]
        [Twice.found] ∧
      (ofTarget (Twice.git "m.py\n")
          (Twice.tree.put ["repo".toList, "n.py".toList] [0xff]) {} Twice.root
          .workingTree Twice.recorded).run.run [] = (.ok Twice.found, Twice.calls) := by
  have hrun := Twice.run_once Twice.indexes_recorded
  obtain ⟨root, changes, hroot, hchanges, hexact⟩ :=
    exact_and_isolated Twice.faithful_recorded hrun
  obtain rfl : Twice.root = root := Except.ok.inj hroot
  have hlisted := Twice.run_fileChanges "m.py\n" [⟨"m.py"⟩] (by decide) rfl
    (by decide)
  rw [hlisted] at hchanges
  obtain rfl : [Twice.change ⟨"m.py"⟩] = changes := Except.ok.inj (congrArg Prod.fst hchanges)
  obtain ⟨parts, hfound, hparts, hisolated⟩ := hexact (List.pairwise_singleton _ _)
  obtain ⟨part, rest, hpart, hrest, rfl⟩ := List.forall₂_cons_left_iff.mp hparts
  obtain rfl := List.forall₂_nil_left_iff.mp hrest
  rw [joined_singleton] at hfound
  obtain ⟨changes', parts', -, hrun', hparts', hsame⟩ :=
    hisolated ["repo".toList, "n.py".toList] [] [0xff] rfl
  have hlength : parts'.length = 1 := hparts'.length_eq.symm.trans hsame.length
  have helsewhere : IsElsewhere Twice.tree Twice.root ["repo".toList, "n.py".toList]
      (Twice.change ⟨"m.py"⟩) := .inr Twice.not_leadsToFile_tree
  have hpart' : parts'[0]? = some part := (hsame.same 0 _ rfl helsewhere).2
  obtain ⟨part', rfl⟩ := List.length_eq_one_iff.mp hlength
  obtain rfl : part' = part := Option.some.inj hpart'
  rw [joined_singleton, ← hfound] at hrun'
  rw [← hfound] at hparts
  exact ⟨Twice.faithful_recorded, hrun, hparts, hrun'⟩

/-- A file that is listed under two names is indexed under the second one, and then counts as
missing. -/
theorem Analysis.alias_counts_as_missing :
    Python.Faithful Twice.recorded ∧
      (Patch.fileChanges (Twice.git "m.py\n./m.py\n") Twice.tree {} Twice.root
        .workingTree).run.run [] =
        (.ok [Twice.change ⟨"m.py"⟩, Twice.change ⟨"./m.py"⟩], Twice.calls) ∧
      Path.same ⟨"m.py"⟩ ⟨"./m.py"⟩ = false ∧
      (ofTarget (Twice.git "m.py\n./m.py\n") Twice.tree {} Twice.root .workingTree
        Twice.recorded).run.run [] = (.ok Twice.foundTwice, Twice.calls) ∧
      ¬ ∃ parts, Twice.foundTwice = joined parts ∧
        List.Forall₂ (IsPart Twice.recorded Twice.tree {} Twice.root)
          [Twice.change ⟨"m.py"⟩, Twice.change ⟨"./m.py"⟩] parts := by
  have hlisted := Twice.run_fileChanges "m.py\n./m.py\n" [⟨"m.py"⟩, ⟨"./m.py"⟩]
    (by decide) rfl (by decide)
  refine ⟨Twice.faithful_recorded, hlisted, by decide, Twice.run_twice Twice.indexes_recorded, ?_⟩
  -- both parts would be those of an indexed file, which make no warning
  rintro ⟨parts, hfound, hparts⟩
  have honDisk : ∀ path ∈ Twice.names,
      SourceFile.onDisk Twice.recorded Twice.tree {} path = .ok (Twice.indexed path) :=
    fun path hpath => Twice.onDisk_tree Twice.indexes_recorded hpath
  obtain ⟨first, others, hfirst, hothers, rfl⟩ := List.forall₂_cons_left_iff.mp hparts
  obtain ⟨second, rest, hsecond, hrest, rfl⟩ := List.forall₂_cons_left_iff.mp hothers
  obtain rfl := List.forall₂_nil_left_iff.mp hrest
  rw [hfirst.present (by decide) _ (honDisk _ (by decide)),
    hsecond.present (by decide) _ (honDisk _ (by decide))] at hfound
  exact absurd (congrArg Analysis.warnings hfound) (by simp [Twice.foundTwice, joined])

end ChangeScope
