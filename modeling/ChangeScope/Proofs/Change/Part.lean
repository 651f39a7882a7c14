import ChangeScope.Change.Analysis
import ChangeScope.Proofs.FileTree
import ChangeScope.Proofs.Python.Definition
import ChangeScope.Proofs.Result

/-!
# What one file contributes

The analysis of a change is put together of parts, one for each file of the patch (`isPart_of_file`,
`joined_of_ofFileChanges`). What a part holds is told by the file alone (`IsPart`), so a file that
cannot be indexed leaves the others as they are.
-/

set_option autoImplicit false

namespace ChangeScope

/-! ## Indexed functions -/

namespace SourceFile

variable {parser : Syntax.Parser} {path : Path} {text : List Char} {source : SourceFile}

/-- What is indexed are the definitions of a tree without errors, under a path that tells its
language. -/
theorem exists_root (h : ofText path text parser = .ok source) : path.extension? = some "py" ∧
    ∃ root, parser text = some root ∧ root.hasError = false ∧
      source.functions = (Python.definitionsAmong root.children).filterMap
        (Python.functionOf? path text) := by
  unfold ofText Python.parse at h
  split at h
  · next hextension =>
      cases hroot : parser text with
      | none =>
          rw [hroot] at h
          cases h
      | some root =>
          rw [hroot] at h
          dsimp only at h
          cases herror : root.hasError with
          | true =>
              rw [herror, if_pos rfl] at h
              cases h
          | false =>
              rw [herror, if_neg Bool.false_ne_true] at h
              obtain rfl := Except.ok.inj h
              exact ⟨hextension, root, rfl, herror, Python.functions_itemsAmong path text _⟩
  · cases h

/-- An indexed function is that of a definition. -/
theorem exists_definition (h : ofText path text parser = .ok source) {f : FunctionDef}
    (hf : f ∈ source.functions) :
    ∃ root, parser text = some root ∧ root.hasError = false ∧
      ∃ node ∈ Python.definitionsAmong root.children,
        Python.functionOf? path text node = some f := by
  obtain ⟨-, root, hroot, herror, hfunctions⟩ := exists_root h
  rw [hfunctions] at hf
  exact ⟨root, hroot, herror, List.mem_filterMap.mp hf⟩

/-- The definitions of a tree without errors stand in its text. -/
theorem fair_of_faithful (hfaithful : Python.Faithful parser) {root : Syntax.Node}
    (hroot : parser text = some root) (herror : root.hasError = false) :
    Python.Fair text (Syntax.Node.nodesAmong root.children) := by
  have hfair : Python.Fair text root.nodes :=
    ⟨hfaithful.laid hroot herror, hfaithful.stands hroot herror⟩
  rw [Syntax.Node.nodes_eq] at hfair
  exact hfair.subset (List.subset_cons_self _ _)

/-- An indexed function has the lines of its definition. -/
theorem lines_of_functionOf? {node : Syntax.Node} {f : FunctionDef}
    (h : Python.functionOf? path text node = some f) :
    f.startLine = Python.startLine node ∧ f.endLine = Python.endLine node := by
  obtain ⟨name, -, rfl⟩ := Option.map_eq_some_iff.mp h
  exact ⟨rfl, rfl⟩

/-- An indexed function starts on a line of the text and ends there or on a later one. -/
theorem span_of_ofText (hfaithful : Python.Faithful parser)
    (h : ofText path text parser = .ok source) {f : FunctionDef} (hf : f ∈ source.functions) :
    1 ≤ f.startLine ∧ f.startLine ≤ f.endLine ∧ f.endLine ≤ (Text.lines text).length := by
  obtain ⟨root, hroot, herror, node, hnode, hfunction⟩ := exists_definition h hf
  have hfair := fair_of_faithful hfaithful hroot herror
  obtain ⟨hmem, hdefinition⟩ := Python.definitionsAmong_subset _ node hnode
  obtain ⟨hstart, hend⟩ := lines_of_functionOf? hfunction
  rw [hstart, hend]
  exact Python.span_of_stands (hfair.laid node hmem) (hfair.stands node hmem hdefinition)

/-- A file that is loaded is its text, indexed. -/
theorem text_of_load {tree : FileTree} {settings : Settings.Analysis}
    (h : load tree settings path parser = .ok source) :
    ∃ text, tree.readText path = .ok text ∧ ofText path text parser = .ok source := by
  have hsized : ∃ size : Nat,
      (if settings.maxFileSize < size then .error (.parse path "file exceeds maximum size limit")
        else (Failure.ofFile (tree.readText path)).bind fun text => ofText path text parser) =
        .ok source := by
    unfold load at h
    split at h
    · next place content hfind => exact ⟨content.length, h⟩
    · exact ⟨0, h⟩
    · cases h
  obtain ⟨size, hsized⟩ := hsized
  split at hsized
  · exact absurd hsized (by simp)
  · obtain ⟨text, htext, hsource⟩ := ok_of_bind hsized
    refine ⟨text, ?_, hsource⟩
    unfold Failure.ofFile at htext
    split at htext
    · next found hfound => rw [hfound, Except.ok.inj htext]
    · exact absurd htext (by simp)

/-- A file on disk, indexed, or the reason why it is left out. -/
def onDisk (parser : Syntax.Parser) (tree : FileTree) (settings : Settings.Analysis)
    (file : Path) : Except String SourceFile :=
  if tree.isFile file then (load tree settings file parser).mapError Failure.message
  else .error (file.text ++ " is no longer on disk, skipping")

theorem load_of_onDisk {tree : FileTree} {settings : Settings.Analysis} {file : Path}
    (h : onDisk parser tree settings file = .ok source) :
    load tree settings file parser = .ok source := by
  unfold onDisk at h
  split at h
  · cases hload : load tree settings file parser with
    | error failure =>
        rw [hload] at h
        cases h
    | ok found =>
        rw [hload] at h
        rw [Except.ok.inj h]
  · cases h

end SourceFile

/-! ## Touched functions -/

theorem filterMap_if {α β : Type} {p : α → Bool} {g : α → β} {items : List α} :
    (items.filterMap fun x => if p x then some (g x) else none) = (items.filter p).map g := by
  induction items with
  | nil => rfl
  | cons x rest ih =>
      by_cases hx : p x
      · simp [hx, ih]
      · simp [hx, ih]

theorem ChangedFunction.ofFile_eq {lines : Patch.LineSet} {status : Patch.Status}
    {functions : List FunctionDef} (h : ∀ f ∈ functions, f.startLine ≤ f.endLine) :
    ofFile lines status functions =
      .ok ((functions.filter fun f => lines.any f.holdsLine).map fun f =>
        ⟨f, lines.filter f.holdsLine, status⟩) := by
  have htouched : ∀ f ∈ functions, ofTouched? lines status f =
      .ok (if lines.any f.holdsLine then some ⟨f, lines.filter f.holdsLine, status⟩ else none) := by
    intro f hf
    have hle := h f hf
    have hempty : (lines.filter f.holdsLine).isEmpty = !lines.any f.holdsLine := by
      rw [Bool.eq_iff_iff]
      simp
    unfold ofTouched?
    rw [if_neg (by simp; omega)]
    dsimp only
    rw [hempty]
    cases lines.any f.holdsLine <;> rfl
  unfold ofFile
  rw [mapM_ok_of_forall htouched]
  show Except.ok _ = Except.ok _
  rw [List.filterMap_map]
  exact congrArg Except.ok filterMap_if

/-- Of the lines from 1 on, a span within them holds all of its own. -/
theorem FunctionDef.filter_holdsLine {f : FunctionDef} {count : Nat} (hpos : 1 ≤ f.startLine)
    (hle : f.startLine ≤ f.endLine) (hcount : f.endLine ≤ count) :
    (List.range' 1 count).filter f.holdsLine =
      List.range' f.startLine (f.endLine + 1 - f.startLine) := by
  -- the lines before the span, those in it and those behind it
  have hcut : List.range' 1 count =
      List.range' 1 (f.startLine - 1) ++ List.range' f.startLine (f.endLine + 1 - f.startLine) ++
        List.range' (f.endLine + 1) (count - f.endLine) := by
    have hfirst := List.range'_append_1 (s := 1) (m := f.startLine - 1)
      (n := f.endLine + 1 - f.startLine)
    have hsecond := List.range'_append_1 (s := 1)
      (m := f.startLine - 1 + (f.endLine + 1 - f.startLine)) (n := count - f.endLine)
    rw [show 1 + (f.startLine - 1) = f.startLine by omega] at hfirst
    rw [show 1 + (f.startLine - 1 + (f.endLine + 1 - f.startLine)) = f.endLine + 1 by omega,
      show f.startLine - 1 + (f.endLine + 1 - f.startLine) + (count - f.endLine) = count by omega]
      at hsecond
    rw [hfirst, hsecond]
  have hbefore : (List.range' 1 (f.startLine - 1)).filter f.holdsLine = [] := by
    rw [List.filter_eq_nil_iff]
    intro line hline
    rw [List.mem_range'_1] at hline
    simp only [holdsLine, Bool.and_eq_true, decide_eq_true_eq]
    omega
  have hafter : (List.range' (f.endLine + 1) (count - f.endLine)).filter f.holdsLine = [] := by
    rw [List.filter_eq_nil_iff]
    intro line hline
    rw [List.mem_range'_1] at hline
    simp only [holdsLine, Bool.and_eq_true, decide_eq_true_eq]
    omega
  have hwithin : (List.range' f.startLine (f.endLine + 1 - f.startLine)).filter f.holdsLine =
      List.range' f.startLine (f.endLine + 1 - f.startLine) := by
    rw [List.filter_eq_self]
    intro line hline
    rw [List.mem_range'_1] at hline
    simp only [holdsLine, Bool.and_eq_true, decide_eq_true_eq]
    omega
  rw [hcut, List.filter_append, List.filter_append, hbefore, hwithin, hafter, List.nil_append,
    List.append_nil]

/-! ## Parts -/

/-- The file of a change. -/
def Patch.FileChange.file (root : Path) (change : FileChange) : Path := root.join change.path.text

namespace Analysis

/-- The analysis made of parts. -/
def joined (parts : List Analysis) : Analysis :=
  ⟨parts.flatMap (·.changed), parts.flatMap (·.files), parts.flatMap (·.warnings)⟩

theorem joined_singleton (part : Analysis) : joined [part] = part := by
  simp [joined]

/-- What the change of a file contributes to an analysis. -/
structure IsPart (parser : Syntax.Parser) (tree : FileTree) (settings : Settings.Analysis)
    (root : Path) (change : Patch.FileChange) (part : Analysis) : Prop where
  /-- A file on disk contributes the functions that hold touched lines, with these lines. -/
  present : change.status ≠ .deleted → ∀ source,
    SourceFile.onDisk parser tree settings (change.file root) = .ok source →
      part =
        { changed := (source.functions.filter fun f => change.lines.any f.holdsLine).map fun f =>
            ⟨f, change.lines.filter f.holdsLine, change.status⟩
          files := [⟨change.file root, source⟩] }
  /-- A file not under version control contributes all its functions, with all their lines. -/
  untracked : change.status = .untracked → ∀ source,
    SourceFile.onDisk parser tree settings (change.file root) = .ok source →
      part.changed = source.functions.map fun f =>
        ⟨f, List.range' f.startLine (f.endLine + 1 - f.startLine), .untracked⟩
  /-- A file that is not there or cannot be indexed contributes a warning. -/
  failed : change.status ≠ .deleted → ∀ warning,
    SourceFile.onDisk parser tree settings (change.file root) = .error warning → part = warn warning
  /-- A deleted file contributes all functions of its removed text, without lines. -/
  deleted : change.status = .deleted → ∀ source,
    SourceFile.ofText (change.file root) change.removed parser = .ok source →
      part = { changed := source.functions.map fun f => ⟨{ f with body := "" }, [], .deleted⟩ }
  /-- A deleted file whose removed text cannot be indexed contributes a warning. -/
  deletedFailed : change.status = .deleted → ∀ failure,
    SourceFile.ofText (change.file root) change.removed parser = .error failure →
      part = warn failure.message

variable {parser : Syntax.Parser} {tree : FileTree} {settings : Settings.Analysis} {root : Path}

/-- There is one part for each change. -/
theorem IsPart.unique {change : Patch.FileChange} {a b : Analysis}
    (ha : IsPart parser tree settings root change a)
    (hb : IsPart parser tree settings root change b) : a = b := by
  by_cases hdeleted : change.status = .deleted
  · cases hsource : SourceFile.ofText (change.file root) change.removed parser with
    | ok source => rw [ha.deleted hdeleted source hsource, hb.deleted hdeleted source hsource]
    | error failure =>
        rw [ha.deletedFailed hdeleted failure hsource, hb.deletedFailed hdeleted failure hsource]
  · cases hsource : SourceFile.onDisk parser tree settings (change.file root) with
    | ok source => rw [ha.present hdeleted source hsource, hb.present hdeleted source hsource]
    | error warning => rw [ha.failed hdeleted warning hsource, hb.failed hdeleted warning hsource]

/-- A change of a file not under version control touches all lines of the file. -/
def Whole (tree : FileTree) (root : Path) (change : Patch.FileChange) : Prop :=
  change.status = .untracked →
    change.lines = List.range' 1 (Patch.lineCount tree (change.file root))

theorem isPart_ofDeletedFile {change : Patch.FileChange} (h : change.status = .deleted) :
    IsPart parser tree settings root change
      (ofDeletedFile parser (change.file root) change.removed) where
  present hne := absurd h hne
  untracked hstatus := absurd (h.symm.trans hstatus) (by decide)
  failed hne := absurd h hne
  deleted _ source hsource := by
    rw [ofDeletedFile, hsource]
    rfl
  deletedFailed _ failure hfailure := by rw [ofDeletedFile, hfailure]

/-- What the index holds for a file that is there. -/
def indexed? (parser : Syntax.Parser) (tree : FileTree) (settings : Settings.Analysis)
    (file : Path) : Option (Except Failure SourceFile) :=
  if tree.isFile file then some (SourceFile.load tree settings file parser) else none

theorem ofPresentFile_eq (hfaithful : Python.Faithful parser) {file : Path}
    {change : Patch.FileChange} :
    ofPresentFile file change (indexed? parser tree settings file) =
      match SourceFile.onDisk parser tree settings file with
      | .error warning => .ok (warn warning)
      | .ok source => .ok
          { changed := (source.functions.filter fun f => change.lines.any f.holdsLine).map fun f =>
              ⟨f, change.lines.filter f.holdsLine, change.status⟩
            files := [⟨file, source⟩] } := by
  unfold indexed? SourceFile.onDisk
  split
  · cases hload : SourceFile.load tree settings file parser with
    | error failure => rfl
    | ok source =>
        obtain ⟨text, -, htext⟩ := SourceFile.text_of_load hload
        have hspans : ∀ f ∈ source.functions, f.startLine ≤ f.endLine := fun f hf =>
          (SourceFile.span_of_ofText hfaithful htext hf).2.1
        show (ChangedFunction.ofFile change.lines change.status source.functions).bind _ = _
        rw [ChangedFunction.ofFile_eq hspans]
        rfl
  · rfl

/-- No file on disk ends the run: its spans are ranges of lines. -/
theorem ofPresentFile_ok (hfaithful : Python.Faithful parser) (tree : FileTree)
    (settings : Settings.Analysis) (file : Path) (change : Patch.FileChange) :
    ∃ part, ofPresentFile file change (indexed? parser tree settings file) = .ok part := by
  rw [ofPresentFile_eq hfaithful]
  split
  · exact ⟨_, rfl⟩
  · exact ⟨_, rfl⟩

/-- The part of a file on disk. -/
theorem isPart_ofPresentFile (hfaithful : Python.Faithful parser) {change : Patch.FileChange}
    (h : change.status ≠ .deleted) (hwhole : Whole tree root change) {part : Analysis}
    (hpart : ofPresentFile (change.file root) change
      (indexed? parser tree settings (change.file root)) = .ok part) :
    IsPart parser tree settings root change part := by
  rw [ofPresentFile_eq hfaithful] at hpart
  refine ⟨?_, ?_, ?_, fun hdeleted => absurd hdeleted h, fun hdeleted => absurd hdeleted h⟩
  · intro _ source hsource
    rw [hsource] at hpart
    exact (Except.ok.inj hpart).symm
  · intro hstatus source hsource
    obtain ⟨text, hread, htext⟩ := SourceFile.text_of_load (SourceFile.load_of_onDisk hsource)
    have hcount : Patch.lineCount tree (change.file root) = (Text.lines text).length := by
      rw [Patch.lineCount, hread]
    rw [hsource] at hpart
    obtain rfl := Except.ok.inj hpart
    show ((source.functions.filter _).map _) = _
    -- all lines of the file count as changed, so each function has all of its own
    have hlines : ∀ f ∈ source.functions, change.lines.filter f.holdsLine =
        List.range' f.startLine (f.endLine + 1 - f.startLine) := by
      intro f hf
      obtain ⟨hpos, hle, hend⟩ := SourceFile.span_of_ofText hfaithful htext hf
      rw [hwhole hstatus, hcount, FunctionDef.filter_holdsLine hpos hle hend]
    have hall : (source.functions.filter fun f => change.lines.any f.holdsLine) =
        source.functions := by
      rw [List.filter_eq_self]
      intro f hf
      obtain ⟨hpos, hle, hend⟩ := SourceFile.span_of_ofText hfaithful htext hf
      have hmem : f.startLine ∈ change.lines.filter f.holdsLine := by
        rw [hlines f hf, List.mem_range'_1]
        omega
      obtain ⟨hin, hholds⟩ := List.mem_filter.mp hmem
      exact List.any_eq_true.mpr ⟨f.startLine, hin, hholds⟩
    rw [hall]
    refine List.map_congr_left fun f hf => ?_
    rw [hlines f hf, hstatus]
  · intro _ warning hwarning
    rw [hwarning] at hpart
    exact (Except.ok.inj hpart).symm

/-! ## The index of the files -/

/-- The files of changes that do not delete them. -/
def presentFiles (root : Path) (changes : List Patch.FileChange) : List Path :=
  (changes.filter fun change => change.status != .deleted).map (·.file root)

theorem filesOnDisk_eq (tree : FileTree) (root : Path) (changes : List Patch.FileChange) :
    filesOnDisk tree root changes = (presentFiles root changes).filter tree.isFile := rfl

/-- Files with what indexing them gives. -/
def indexOf (parser : Syntax.Parser) (tree : FileTree) (settings : Settings.Analysis)
    (files : List Path) : FileIndex :=
  files.map fun file => (file, SourceFile.load tree settings file parser)

theorem insert_of_new {index : FileIndex} {file : Path} {result : Except Failure SourceFile}
    (h : ∀ entry ∈ index, entry.1.same file = false) :
    index.insert file result = index ++ [(file, result)] := by
  induction index with
  | nil => rfl
  | cons entry rest ih =>
      obtain ⟨hentry, hrest⟩ := List.forall_mem_cons.mp h
      rw [FileIndex.insert, if_neg (ne_true_of_eq_false hentry), ih hrest]
      rfl

theorem remove_of_new {index : FileIndex} {file : Path}
    (h : ∀ entry ∈ index, entry.1.same file = false) : index.remove file = (none, index) := by
  induction index with
  | nil => rfl
  | cons entry rest ih =>
      obtain ⟨hentry, hrest⟩ := List.forall_mem_cons.mp h
      rw [FileIndex.remove, if_neg (ne_true_of_eq_false hentry), ih hrest]

/-- Different files are indexed one by one. -/
theorem ofFiles_eq (parser : Syntax.Parser) (tree : FileTree) (settings : Settings.Analysis)
    {files : List Path} (h : files.Pairwise fun p q => p.same q = false) :
    FileIndex.ofFiles parser tree settings files = indexOf parser tree settings files := by
  induction files using List.reverseRecOn with
  | nil => rfl
  | append_singleton files file ih =>
      obtain ⟨hfiles, -, hfile⟩ := List.pairwise_append.mp h
      have hnew : ∀ entry ∈ indexOf parser tree settings files, entry.1.same file = false := by
        intro entry hentry
        obtain ⟨other, hother, rfl⟩ := List.mem_map.mp hentry
        exact hfile other hother file (List.mem_singleton.mpr rfl)
      have hlast : indexOf parser tree settings (files ++ [file]) =
          indexOf parser tree settings files ++
            [(file, SourceFile.load tree settings file parser)] := List.map_append
      rw [FileIndex.ofFiles] at ih ⊢
      rw [List.foldl_append, ih hfiles, hlast]
      exact insert_of_new hnew

/-! ## All changes -/

/-- A file on disk contributes what the index holds for it. -/
theorem ofFileChanges_present {index left : FileIndex} {change : Patch.FileChange}
    {rest : List Patch.FileChange} {found : Option (Except Failure SourceFile)}
    {part others : Analysis} (h : change.status ≠ .deleted)
    (hfound : index.remove (change.file root) = (found, left))
    (hpart : ofPresentFile (change.file root) change found = .ok part)
    (hothers : ofFileChanges parser root left rest = .ok others) :
    ofFileChanges parser root index (change :: rest) = .ok (append part others) := by
  unfold Patch.FileChange.file at hfound hpart
  rw [ofFileChanges, if_neg h]
  dsimp only
  rw [hfound]
  dsimp only
  rw [hpart]
  show (ofFileChanges parser root left rest).bind _ = _
  rw [hothers]
  rfl

/-- Each file on disk is found at the head of the index. -/
theorem remove_indexOf (parser : Syntax.Parser) (tree : FileTree) (settings : Settings.Analysis)
    {file : Path} {files : List Path} (h : ∀ other ∈ files, file.same other = false) :
    (indexOf parser tree settings ((file :: files).filter tree.isFile)).remove file =
      (indexed? parser tree settings file,
        indexOf parser tree settings (files.filter tree.isFile)) := by
  rw [List.filter_cons, indexed?]
  split
  · have hself : file.same file = true := beq_self_eq_true _
    show FileIndex.remove file ((file, _) :: _) = _
    rw [FileIndex.remove, if_pos hself]
    rfl
  · refine remove_of_new fun entry hentry => ?_
    obtain ⟨other, hother, rfl⟩ := List.mem_map.mp hentry
    have hne := h other (List.mem_filter.mp hother).1
    rw [Path.same, BEq.comm]
    exact hne

/-- **The analysis of the changes of different files is made of their parts**, in order. -/
theorem joined_of_ofFileChanges (hfaithful : Python.Faithful parser) (settings : Settings.Analysis)
    {changes : List Patch.FileChange} (hwhole : ∀ change ∈ changes, Whole tree root change)
    (hdistinct : (presentFiles root changes).Pairwise fun p q => p.same q = false) :
    ∃ parts, ofFileChanges parser root
          (indexOf parser tree settings (filesOnDisk tree root changes)) changes =
        .ok (joined parts) ∧
      List.Forall₂ (IsPart parser tree settings root) changes parts := by
  induction changes with
  | nil => exact ⟨[], rfl, .nil⟩
  | cons change rest ih =>
      have hown := hwhole change List.mem_cons_self
      have hrest : ∀ change ∈ rest, Whole tree root change := fun change hmem =>
        hwhole change (List.mem_cons_of_mem _ hmem)
      -- a deleted file takes nothing out of the index, and any other one only its own entry
      by_cases hdeleted : change.status = .deleted
      · have hfiles : presentFiles root (change :: rest) = presentFiles root rest := by
          simp [presentFiles, hdeleted]
        rw [hfiles] at hdistinct
        obtain ⟨parts, hrun, hparts⟩ := ih hrest hdistinct
        refine ⟨_, ?_, .cons (isPart_ofDeletedFile hdeleted) hparts⟩
        rw [filesOnDisk_eq, hfiles, ← filesOnDisk_eq, ofFileChanges, if_pos hdeleted, hrun]
        rfl
      · have hfiles : presentFiles root (change :: rest) =
            change.file root :: presentFiles root rest := by
          simp [presentFiles, hdeleted]
        rw [hfiles] at hdistinct
        obtain ⟨hfirst, hdistinct⟩ := List.pairwise_cons.mp hdistinct
        obtain ⟨parts, hrun, hparts⟩ := ih hrest hdistinct
        obtain ⟨part, hpart⟩ := ofPresentFile_ok hfaithful tree settings (change.file root) change
        refine ⟨part :: parts, ?_,
          .cons (isPart_ofPresentFile hfaithful hdeleted hown hpart) hparts⟩
        rw [filesOnDisk_eq, hfiles]
        exact ofFileChanges_present hdeleted (remove_indexOf parser tree settings hfirst) hpart hrun

end Analysis

end ChangeScope
