import ChangeScope.Patch.Hunk
import ChangeScope.Proofs.Patch.Declared
import ChangeScope.Proofs.Text.Lines

/-!
# Patches without trivial hunks

A patch is read and filtered at the same places: a title begins the part of a file, and a line with
two at signs a hunk of it. So the filtered patch has the parts of the patch with some hunks left
out (`FilePart.kept`), which leaves the path and the status of each file as they are and takes only
lines away. Main statement: `changes_dropTrivialHunks`.
-/

set_option autoImplicit false

namespace ChangeScope.Patch

open ChangeScope.Text

/-! ## Parts of a patch -/

/-- Lines between titles: a header, and hunks with the line that opens each of them. -/
structure Stretch where
  header : List Line
  hunks : List (Line × List Line)

namespace Stretch

def lines (s : Stretch) : List Line := s.header ++ s.hunks.flatMap fun h => h.1 :: h.2

/-- Lines cut before those that open hunks. -/
def ofLines (lines : List Line) : Stretch :=
  ⟨(cutBefore isHunkLine lines).1, (cutBefore isHunkLine lines).2⟩

/-- The hunk stays: it matters, or the file is deleted. -/
def keeps (s : Stretch) (hunk : Line × List Line) : Bool :=
  s.header.any isDeletionLine || isImportant hunk.2

/-- The stretch with the hunks that stay. -/
def kept (s : Stretch) : Stretch := { s with hunks := s.hunks.filter s.keeps }

/-- Only hunks begin like hunks, and no line begins like a file. -/
structure IsCut (s : Stretch) : Prop where
  header : ∀ line ∈ s.header, isHunkLine line = false
  hunks : ∀ h ∈ s.hunks, isHunkLine h.1 = true ∧ ∀ line ∈ h.2, isHunkLine line = false
  inside : ∀ line ∈ s.lines, isFileLine line = false

end Stretch

/-- The part of a file. -/
structure FilePart extends Stretch where
  title : Line

/-- The part with the hunks that stay. -/
def FilePart.kept (f : FilePart) : FilePart := { f with toStretch := f.toStretch.kept }

/-- What the part says about the file. -/
def FilePart.change (f : FilePart) : FileChange := FileChange.ofSection f.title f.lines

/-- The parts of a patch, behind the lines that no file begins. -/
structure Parts where
  front : Stretch
  files : List FilePart

namespace Parts

def lines (p : Parts) : List Line := p.front.lines ++ p.files.flatMap fun f => f.title :: f.lines

/-- The parts with the hunks that stay. -/
def kept (p : Parts) : Parts := ⟨p.front.kept, p.files.map FilePart.kept⟩

/-- The parts of a text. -/
def ofText (text : List Char) : Parts :=
  { front := .ofLines (cutBefore isFileLine (Text.lines text)).1
    files := (cutBefore isFileLine (Text.lines text)).2.map fun (title, body) =>
      { Stretch.ofLines body with title } }

/-- Each title begins a file, and nothing else does. -/
structure IsCut (p : Parts) : Prop where
  front : p.front.IsCut
  files : ∀ f ∈ p.files, isFileLine f.title = true ∧ f.IsCut

end Parts

/-- The number, in words of 64 bits, that a line with a plus sign gets behind `next`. -/
def IsCounted (next : Nat) (rows : List Line) (n : Nat) : Prop :=
  ∃ m, IsAdded next rows m ∧ n = m % 2 ^ 64

/-- The hunk touches the line: that at which it takes place when it has no lines of the new side,
and those with a plus sign. -/
def TouchesLine (hunk : Line × List Line) (n : Nat) : Prop :=
  ∃ start count, hunkRange? hunk.1 = some (start, count) ∧
    (count = 0 ∧ n = max start 1 ∨ IsCounted start hunk.2 n)

/-- What is told of a file without some hunks is a part of what is told with them. -/
structure IsSubChange (f : FilePart) (old new : FileChange) : Prop where
  path : new.path = old.path
  status : new.status = old.status
  whole : ∀ n, n ∈ old.lines ↔ old.status ≠ .deleted ∧ ∃ h ∈ f.hunks, TouchesLine h n
  lines : ∀ n, n ∈ new.lines ↔ old.status ≠ .deleted ∧
    ∃ h ∈ f.hunks, ((∃ line ∈ f.header, isDeletionLine line = true) ∨ isImportant h.2 = true) ∧
      TouchesLine h n
  subset : ∀ n ∈ new.lines, n ∈ old.lines
  removed : old.status = .deleted → new.removed = old.removed

/-! ## Cutting into parts -/

theorem Stretch.lines_ofLines (lines : List Line) : (ofLines lines).lines = lines :=
  (cutBefore_spec (p := isHunkLine) (l := lines) rfl).1.symm

theorem Stretch.isCut_ofLines {lines : List Line} (h : ∀ line ∈ lines, isFileLine line = false) :
    (ofLines lines).IsCut := by
  obtain ⟨-, hheader, hhunks⟩ := cutBefore_spec (p := isHunkLine) (l := lines) rfl
  refine ⟨hheader, hhunks, ?_⟩
  rw [lines_ofLines]
  exact h

theorem Parts.lines_ofText (text : List Char) : (ofText text).lines = Text.lines text := by
  have hlines := (cutBefore_spec (p := isFileLine) (l := Text.lines text) rfl).1
  unfold ofText lines
  rw [Stretch.lines_ofLines, List.flatMap_map]
  refine Eq.trans (congrArg _ (List.flatMap_congr fun f _ => ?_)) hlines.symm
  exact congrArg (f.1 :: ·) (Stretch.lines_ofLines f.2)

theorem Parts.isCut_ofText (text : List Char) : (ofText text).IsCut := by
  obtain ⟨-, hfront, hfiles⟩ := cutBefore_spec (p := isFileLine) (l := Text.lines text) rfl
  refine ⟨Stretch.isCut_ofLines hfront, fun f hf => ?_⟩
  obtain ⟨part, hpart, rfl⟩ := List.mem_map.mp hf
  exact ⟨(hfiles part hpart).1, Stretch.isCut_ofLines (hfiles part hpart).2⟩

/-! ## Hunks that stay -/

theorem Stretch.kept_kept (s : Stretch) : s.kept.kept = s.kept := by
  have hkeeps : s.kept.keeps = s.keeps := rfl
  show { s.kept with hunks := s.kept.hunks.filter s.kept.keeps } = s.kept
  rw [hkeeps]
  show { s with hunks := (s.hunks.filter s.keeps).filter s.keeps } = s.kept
  rw [List.filter_filter]
  simp only [Bool.and_self]
  rfl

theorem Stretch.mem_lines_kept {s : Stretch} {line : Line} (h : line ∈ s.kept.lines) :
    line ∈ s.lines := by
  rcases List.mem_append.mp h with h | h
  · exact List.mem_append_left _ h
  · obtain ⟨hunk, hhunk, h⟩ := List.mem_flatMap.mp h
    exact List.mem_append_right _ (List.mem_flatMap.mpr ⟨hunk, (List.mem_filter.mp hhunk).1, h⟩)

theorem Stretch.IsCut.kept {s : Stretch} (h : s.IsCut) : s.kept.IsCut where
  header := h.header
  hunks := fun hunk hhunk => h.hunks hunk (List.mem_filter.mp hhunk).1
  inside := fun line hline => h.inside line (mem_lines_kept hline)

theorem Parts.kept_kept (p : Parts) : p.kept.kept = p.kept := by
  unfold kept
  rw [Stretch.kept_kept, List.map_map]
  congr 1
  refine List.map_congr_left fun f _ => ?_
  show { f with toStretch := f.toStretch.kept.kept } = f.kept
  rw [Stretch.kept_kept]
  rfl

theorem Parts.mem_lines_kept {p : Parts} {line : Line} (h : line ∈ p.kept.lines) :
    line ∈ p.lines := by
  rcases List.mem_append.mp h with h | h
  · exact List.mem_append_left _ (Stretch.mem_lines_kept h)
  · obtain ⟨part, hpart, h⟩ := List.mem_flatMap.mp h
    obtain ⟨f, hf, rfl⟩ := List.mem_map.mp hpart
    refine List.mem_append_right _ (List.mem_flatMap.mpr ⟨f, hf, ?_⟩)
    rcases List.mem_cons.mp h with rfl | h
    · exact List.mem_cons_self
    · exact List.mem_cons_of_mem _ (Stretch.mem_lines_kept h)

theorem Parts.IsCut.kept {p : Parts} (h : p.IsCut) : p.kept.IsCut := by
  refine ⟨h.front.kept, fun part hpart => ?_⟩
  obtain ⟨f, hf, rfl⟩ := List.mem_map.mp hpart
  exact ⟨(h.files f hf).1, (h.files f hf).2.kept⟩

/-! ## Reading the parts -/

/-- A patch is read part by part. -/
theorem Parts.IsCut.changes {p : Parts} (h : p.IsCut) {text : List Char}
    (htext : Text.lines text = p.lines) : changes text = p.files.map FilePart.change := by
  have hgroups : (p.files.flatMap fun f => f.title :: f.lines) =
      (p.files.map fun f => (f.title, f.lines)).flatMap fun g => g.1 :: g.2 := by
    rw [List.flatMap_map]
  have hcut : (cutBefore isFileLine (Text.lines text)).2 =
      p.files.map fun f => (f.title, f.lines) := by
    rw [htext, lines, hgroups, cutBefore_append h.front.inside, cutBefore_groups]
    intro g hg
    obtain ⟨f, hf, rfl⟩ := List.mem_map.mp hg
    exact ⟨(h.files f hf).1, (h.files f hf).2.inside⟩
  unfold Patch.changes
  rw [hcut, List.map_map]
  rfl

/-! ## Filtering the parts -/

/-- The groups of a stretch behind its header. -/
theorem keepImportant_hunks {s : Stretch} (h : s.IsCut) (rest : List (Line × List Line)) :
    keepImportant (s.header.any isDeletionLine) (s.hunks ++ rest) =
      (s.kept.hunks.flatMap fun h => h.1 :: h.2) ++
        keepImportant (s.header.any isDeletionLine) rest := by
  have hplain : ∀ hunk ∈ s.hunks, isFileLine hunk.1 = false := fun hunk hhunk =>
    h.inside hunk.1 (List.mem_append_right _
      (List.mem_flatMap.mpr ⟨hunk, hhunk, List.mem_cons_self⟩))
  unfold Stretch.kept
  dsimp only
  generalize s.hunks = hunks at hplain
  induction hunks with
  | nil => rfl
  | cons hunk hunks ih =>
      have ih := ih fun other hother => hplain other (List.mem_cons_of_mem hunk hother)
      rw [List.cons_append, keepImportant,
        if_neg (Bool.eq_false_iff.mp (hplain hunk List.mem_cons_self)), List.filter_cons, ih]
      unfold Stretch.keeps
      split
      · rw [List.flatMap_cons, List.cons_append, List.cons_append, List.append_assoc]
      · rfl

theorem keepImportant_files {files : List FilePart}
    (h : ∀ f ∈ files, isFileLine f.title = true ∧ f.IsCut) (keepAll : Bool) :
    keepImportant keepAll (files.flatMap fun f => (f.title, f.header) :: f.hunks) =
      (files.map FilePart.kept).flatMap fun f => f.title :: f.lines := by
  induction files generalizing keepAll with
  | nil => rfl
  | cons f files ih =>
      obtain ⟨htitle, hcut⟩ := h f List.mem_cons_self
      have ih := ih fun other hother => h other (List.mem_cons_of_mem f hother)
      rw [List.flatMap_cons, List.cons_append, keepImportant, if_pos htitle,
        keepImportant_hunks hcut, ih, List.map_cons, List.flatMap_cons, List.cons_append,
        ← List.append_assoc]
      rfl

/-- The lines of a stretch are no titles, and those of its header open no hunk. -/
theorem Stretch.IsCut.plain {s : Stretch} (h : s.IsCut) :
    (∀ line ∈ s.header, (isFileLine line || isHunkLine line) = false) ∧
      ∀ hunk ∈ s.hunks, (isFileLine hunk.1 || isHunkLine hunk.1) = true ∧
        ∀ line ∈ hunk.2, (isFileLine line || isHunkLine line) = false := by
  refine ⟨fun line hline => ?_, fun hunk hhunk => ⟨?_, fun line hline => ?_⟩⟩
  · rw [h.inside line (List.mem_append_left _ hline), h.header line hline]
    rfl
  · rw [(h.hunks hunk hhunk).1, Bool.or_true]
  · have hin : line ∈ s.hunks.flatMap fun h => h.1 :: h.2 :=
      List.mem_flatMap.mpr ⟨hunk, hhunk, List.mem_cons_of_mem _ hline⟩
    rw [h.inside line (List.mem_append_right _ hin), (h.hunks hunk hhunk).2 line hline]
    rfl

/-- A patch is cut at titles and at the lines that open hunks. -/
theorem Parts.IsCut.cutBefore {p : Parts} (h : p.IsCut) :
    Text.cutBefore (fun line => isFileLine line || isHunkLine line) p.lines =
      (p.front.header,
        p.front.hunks ++ p.files.flatMap fun f => (f.title, f.header) :: f.hunks) := by
  have hlines : p.lines = p.front.header ++
      (p.front.hunks ++ p.files.flatMap fun f => (f.title, f.header) :: f.hunks).flatMap
        fun g => g.1 :: g.2 := by
    unfold lines Stretch.lines
    rw [List.flatMap_append, List.flatMap_assoc, List.append_assoc]
    rfl
  rw [hlines, cutBefore_append h.front.plain.1, cutBefore_groups, List.append_nil]
  intro g hg
  rcases List.mem_append.mp hg with hg | hg
  · exact h.front.plain.2 g hg
  · obtain ⟨f, hf, hg⟩ := List.mem_flatMap.mp hg
    obtain ⟨htitle, hcut⟩ := h.files f hf
    rcases List.mem_cons.mp hg with rfl | hg
    · exact ⟨by rw [htitle, Bool.true_or], hcut.plain.1⟩
    · exact hcut.plain.2 g hg

/-- **The filter leaves the parts with the hunks that stay.** -/
theorem Parts.IsCut.dropTrivialHunks {p : Parts} (h : p.IsCut) {text : List Char}
    (htext : Text.lines text = p.lines) :
    dropTrivialHunks text = textOfRows p.kept.lines := by
  unfold Patch.dropTrivialHunks
  dsimp only
  rw [htext, h.cutBefore]
  dsimp only
  rw [keepImportant_hunks h.front, keepImportant_files h.files, ← List.append_assoc]
  rfl

/-- The lines of the filtered patch, where carriage returns only end lines. -/
theorem lines_dropTrivialHunks {text : List Char} (h : EndsLines text) :
    Text.lines (dropTrivialHunks text) = (Parts.ofText text).kept.lines := by
  have hmem : ∀ line ∈ (Parts.ofText text).kept.lines, line ∈ Text.lines text := by
    intro line hline
    rw [← Parts.lines_ofText]
    exact Parts.mem_lines_kept hline
  rw [(Parts.isCut_ofText text).dropTrivialHunks (Parts.lines_ofText text).symm, lines_textOfRows]
  · refine Eq.trans (List.map_congr_left fun line hline => ?_) (List.map_id _)
    exact dropReturn_self fun hlast => h.not_mem line (hmem line hline) (List.mem_of_getLast? hlast)
  · exact fun line hline hfeed => (of_mem_lines (hmem line hline) hfeed).2 rfl

/-- A second filter finds nothing to leave out. -/
theorem dropTrivialHunks_dropTrivialHunks {text : List Char} (h : EndsLines text) :
    dropTrivialHunks (dropTrivialHunks text) = dropTrivialHunks text := by
  have hcut := Parts.isCut_ofText text
  rw [hcut.kept.dropTrivialHunks (lines_dropTrivialHunks h), Parts.kept_kept,
    hcut.dropTrivialHunks (Parts.lines_ofText text).symm]

/-! ## The lines that a hunk touches -/

theorem isHunkLine_of_hunkRange? {line : Line} (h : isHunkLine line = false) :
    hunkRange? line = none := by
  have hstarts : "@@ -".toList.isPrefixOf? line = none := by
    refine isPrefixOf?_eq_none_iff.mpr ?_
    rintro ⟨rest, rfl⟩
    rw [show isHunkLine ("@@ -".toList ++ rest) = true from rfl] at h
    exact absurd h (by decide)
  unfold hunkRange?
  rw [hstarts]
  rfl

theorem natural?_lt {cs : List Char} {n : Nat} (h : natural? cs = some n) : n < 2 ^ 64 := by
  have hdigits : ∀ digits : List Char, (if digits.isEmpty then none
      else (digitsValue? digits).filter fun n => n < 0x10000000000000000) = some n →
        n < 2 ^ 64 := by
    intro digits h
    split at h
    · exact absurd h (by simp)
    · exact of_decide_eq_true (Option.filter_eq_some_iff.mp h).2
  exact hdigits _ h

theorem hunkRange?_lt {line : Line} {start count : Nat}
    (h : hunkRange? line = some (start, count)) : start < 2 ^ 64 := by
  obtain ⟨rest, -, h⟩ := Option.bind_eq_some_iff.mp h
  obtain ⟨⟨before, after⟩, -, h⟩ := Option.bind_eq_some_iff.mp h
  obtain ⟨range, -, h⟩ := Option.bind_eq_some_iff.mp h
  split at h
  · obtain ⟨first, hfirst, h⟩ := Option.bind_eq_some_iff.mp h
    obtain ⟨length, -, h⟩ := Option.bind_eq_some_iff.mp h
    obtain ⟨rfl, -⟩ := Prod.mk.inj (Option.some.inj h)
    exact natural?_lt hfirst
  · obtain ⟨first, hfirst, h⟩ := Option.bind_eq_some_iff.mp h
    obtain ⟨rfl, -⟩ := Prod.mk.inj (Option.some.inj h)
    exact natural?_lt hfirst

theorem isCounted_mod {next : Nat} {rows : List Line} {n : Nat} :
    IsCounted (next % 2 ^ 64) rows n ↔ IsCounted next rows n := by
  constructor
  · rintro ⟨-, ⟨before, text, after, hrows, rfl⟩, rfl⟩
    exact ⟨_, ⟨before, text, after, hrows, rfl⟩, Nat.mod_add_mod _ _ _⟩
  · rintro ⟨-, ⟨before, text, after, hrows, rfl⟩, rfl⟩
    exact ⟨_, ⟨before, text, after, hrows, rfl⟩, (Nat.mod_add_mod _ _ _).symm⟩

theorem isCounted_cons {next : Nat} (hnext : next < 2 ^ 64) {line : Line} {rows : List Line}
    {n : Nat} :
    IsCounted next (line :: rows) n ↔
      (line.head? = some '+' ∧ n = next) ∨
        IsCounted (next + if isAdvance line then 1 else 0) rows n := by
  unfold IsCounted
  constructor
  · rintro ⟨m, hadded, rfl⟩
    rcases isAdded_cons.mp hadded with ⟨⟨text, rfl⟩, rfl⟩ | hadded
    · exact .inl ⟨rfl, Nat.mod_eq_of_lt hnext⟩
    · exact .inr ⟨m, hadded, rfl⟩
  · rintro (⟨hplus, rfl⟩ | ⟨m, hadded, rfl⟩)
    · exact ⟨n, isAdded_cons.mpr (.inl ⟨List.head?_eq_some_iff.mp hplus, rfl⟩),
        (Nat.mod_eq_of_lt hnext).symm⟩
    · exact ⟨m, isAdded_cons.mpr (.inr hadded), rfl⟩

/-- The lines of a hunk touch the numbers of those with a plus sign. -/
theorem mem_touchedLines_rows {rows : List Line} (hrows : ∀ line ∈ rows, hunkRange? line = none)
    {next : Nat} (hnext : next < 2 ^ 64) (rest : List Line) :
    ∃ later, ∀ n, n ∈ touchedLines next (rows ++ rest) ↔
      IsCounted next rows n ∨ n ∈ touchedLines later rest := by
  induction rows generalizing next with
  | nil =>
      refine ⟨next, fun n => (or_iff_right ?_).symm⟩
      rintro ⟨m, hadded, -⟩
      exact isAdded_nil hadded
  | cons line rows ih =>
      obtain ⟨later, hlater⟩ := ih (fun l hl => hrows l (List.mem_cons_of_mem line hl))
        (Nat.mod_lt (next + if isAdvance line then 1 else 0) (by decide))
      refine ⟨later, fun n => ?_⟩
      rw [List.cons_append, touchedLines_word (hrows line List.mem_cons_self) hnext,
        List.mem_append, hlater, isCounted_mod, isCounted_cons hnext, or_assoc]
      refine or_congr_left ?_
      split
      · next hplus => simp [hplus]
      · next hplus => simp [hplus]

/-- **Hunks touch their lines**, whatever number comes before. -/
theorem mem_touchedLines_hunks {hunks : List (Line × List Line)}
    (h : ∀ hunk ∈ hunks, (hunkRange? hunk.1).isSome = true ∧
      ∀ line ∈ hunk.2, hunkRange? line = none) (next n : Nat) :
    n ∈ touchedLines next (hunks.flatMap fun h => h.1 :: h.2) ↔
      ∃ hunk ∈ hunks, TouchesLine hunk n := by
  induction hunks generalizing next with
  | nil => simp [touchedLines]
  | cons hunk hunks ih =>
      obtain ⟨hopens, hrows⟩ := h hunk List.mem_cons_self
      obtain ⟨⟨start, count⟩, hrange⟩ := Option.isSome_iff_exists.mp hopens
      obtain ⟨later, hlater⟩ := mem_touchedLines_rows hrows (hunkRange?_lt hrange)
        (hunks.flatMap fun h => h.1 :: h.2)
      have ih := ih (fun other hother => h other (List.mem_cons_of_mem hunk hother)) later
      have htouches : TouchesLine hunk n ↔
          count = 0 ∧ n = max start 1 ∨ IsCounted start hunk.2 n := by
        unfold TouchesLine
        rw [hrange]
        simp
      rw [List.exists_mem_cons_iff, htouches, List.flatMap_cons, List.cons_append,
        touchedLines_cons, hrange]
      -- a hunk without lines on the new side touches the line that it stands behind
      cases count with
      | zero =>
          dsimp only
          rw [List.mem_cons, hlater, ih]
          simp only [true_and, or_assoc]
      | succ count =>
          dsimp only
          rw [hlater, ih]
          simp

/-! ## What is told of a file -/

/-- A file is deleted only by a line that says so. -/
theorem deletion_of_status {header : List Line} {heading : Heading}
    (hheading : heading.status ≠ .deleted)
    (h : (header.foldl Heading.read heading).status = .deleted) :
    header.any isDeletionLine = true := by
  induction header generalizing heading with
  | nil => exact absurd h hheading
  | cons line header ih =>
      rw [List.any_cons, Bool.or_eq_true]
      by_cases hline : isDeletionLine line = true
      · exact .inl hline
      · refine .inr (ih ?_ h)
        unfold Heading.read
        rw [if_neg hline]
        split
        · simp
        · split
          · exact hheading
          · split
            · split <;> exact hheading
            · exact hheading

section Change

variable {f : FilePart} (hcut : f.IsCut)
  (hopens : ∀ h ∈ f.hunks, (hunkRange? h.1).isSome = true)
include hcut hopens

/-- The header of a part is told by its header, and the rest by its hunks. -/
theorem change_eq : f.change =
    { path := ⟨String.ofList (f.header.foldl Heading.read ⟨titlePath f.title, .modified⟩).path⟩
      status := (f.header.foldl Heading.read ⟨titlePath f.title, .modified⟩).status
      lines :=
        if (f.header.foldl Heading.read ⟨titlePath f.title, .modified⟩).status = .deleted then []
        else OrderedSet.ofList (touchedLines 0 (f.hunks.flatMap fun h => h.1 :: h.2))
      removed := removedText (f.hunks.flatMap fun h => h.1 :: h.2) } := by
  have hheader : ∀ line ∈ f.header, (hunkRange? line).isNone = true := by
    intro line hline
    rw [isHunkLine_of_hunkRange? (hcut.header line hline)]
    rfl
  have hfirst : ∀ line, (f.hunks.flatMap fun h => h.1 :: h.2).head? = some line →
      (hunkRange? line).isNone = false := by
    intro line hline
    obtain ⟨hunk, hhunk, rfl⟩ := exists_of_head?_flatMap Prod.fst (fun _ => rfl) hline
    have hsome := hopens hunk hhunk
    rwa [Option.isNone_eq_false_iff]
  have hspan : f.lines.span (fun line => (hunkRange? line).isNone) =
      (f.header, f.hunks.flatMap fun h => h.1 :: h.2) := span_stretch hheader hfirst
  unfold FilePart.change FileChange.ofSection
  rw [hspan]

theorem mem_change_lines (n : Nat) :
    n ∈ f.change.lines ↔ f.change.status ≠ .deleted ∧ ∃ h ∈ f.hunks, TouchesLine h n := by
  have hhunks : ∀ h ∈ f.hunks, (hunkRange? h.1).isSome = true ∧
      ∀ line ∈ h.2, hunkRange? line = none := fun h hh =>
    ⟨hopens h hh, fun line hline => isHunkLine_of_hunkRange? ((hcut.hunks h hh).2 line hline)⟩
  rw [change_eq hcut hopens]
  dsimp only
  split
  · next hdeleted =>
      refine iff_of_false List.not_mem_nil ?_
      rintro ⟨halive, -⟩
      exact halive hdeleted
  · next halive =>
      rw [OrderedSet.mem_ofList, mem_touchedLines_hunks hhunks]
      exact (and_iff_right halive).symm

/-- Hunks that are left out take lines of the file away, and nothing else. -/
theorem isSubChange_kept : IsSubChange f f.change f.kept.change := by
  have hkept : ∀ h ∈ f.kept.hunks, (hunkRange? h.1).isSome = true := fun h hh =>
    hopens h (List.mem_filter.mp hh).1
  have hpath : f.kept.change.path = f.change.path := by
    rw [change_eq hcut hopens, change_eq hcut.kept hkept]
    rfl
  have hstatus : f.kept.change.status = f.change.status := by
    rw [change_eq hcut hopens, change_eq hcut.kept hkept]
    rfl
  have hlines : ∀ n, n ∈ f.kept.change.lines ↔ f.change.status ≠ .deleted ∧
      ∃ h ∈ f.hunks, ((∃ line ∈ f.header, isDeletionLine line = true) ∨ isImportant h.2 = true) ∧
        TouchesLine h n := by
    intro n
    have hkeeps : ∀ h, h ∈ f.kept.hunks ↔ h ∈ f.hunks ∧
        ((∃ line ∈ f.header, isDeletionLine line = true) ∨ isImportant h.2 = true) := by
      intro h
      show h ∈ f.hunks.filter f.keeps ↔ _
      rw [List.mem_filter, Stretch.keeps, Bool.or_eq_true, List.any_eq_true]
    rw [mem_change_lines hcut.kept hkept, hstatus]
    simp only [hkeeps, and_assoc]
  refine ⟨hpath, hstatus, mem_change_lines hcut hopens, hlines, fun n hn => ?_, fun hdeleted => ?_⟩
  · obtain ⟨halive, h, hh, -, htouches⟩ := (hlines n).mp hn
    exact (mem_change_lines hcut hopens n).mpr ⟨halive, h, hh, htouches⟩
  · -- the header of a deleted file says so, and then all hunks stay
    rw [change_eq hcut hopens] at hdeleted
    have hall := deletion_of_status (by simp) hdeleted
    have hsame : f.kept.hunks = f.hunks :=
      List.filter_eq_self.mpr fun h _ => by rw [Stretch.keeps, hall, Bool.true_or]
    rw [change_eq hcut hopens, change_eq hcut.kept hkept, hsame]

end Change

/-- **The filtered patch tells the same files with fewer lines.** Where every line that begins like
a hunk opens one, and carriage returns only end lines, the files of the filtered patch are those of
the patch, in order, with their paths and states. The lines of a file that is not deleted are those
that its hunks touch, and behind the filter those that the important ones touch, or all of them if
its header has a line of deletion; the text of a deleted file stays. A second filter changes
nothing. -/
theorem changes_dropTrivialHunks {text : List Char} (hends : EndsLines text)
    (hopens : ∀ line ∈ Text.lines text, isHunkLine line = true →
      (hunkRange? line).isSome = true) :
    (Parts.ofText text).lines = Text.lines text ∧ (Parts.ofText text).IsCut ∧
      changes text = (Parts.ofText text).files.map (·.change) ∧
      changes (dropTrivialHunks text) = (Parts.ofText text).files.map (·.kept.change) ∧
      (∀ f ∈ (Parts.ofText text).files, IsSubChange f f.change f.kept.change) ∧
      dropTrivialHunks (dropTrivialHunks text) = dropTrivialHunks text := by
  have hcut := Parts.isCut_ofText text
  refine ⟨Parts.lines_ofText text, hcut, hcut.changes (Parts.lines_ofText text).symm, ?_,
    fun f hf => ?_, dropTrivialHunks_dropTrivialHunks hends⟩
  · rw [hcut.kept.changes (lines_dropTrivialHunks hends)]
    exact List.map_map
  · refine isSubChange_kept (hcut.files f hf).2 fun h hh => ?_
    refine hopens h.1 ?_ (((hcut.files f hf).2.hunks h hh).1)
    rw [← Parts.lines_ofText]
    refine List.mem_append_right _ (List.mem_flatMap.mpr ⟨f, hf, List.mem_cons_of_mem _ ?_⟩)
    exact List.mem_append_right _ (List.mem_flatMap.mpr ⟨h, hh, List.mem_cons_self⟩)

/-- A comment and a line of code that change in one file, and another file that is gone. -/
def mixedPatch : List Char :=
  textOfRows ["diff --git a/f.py b/f.py".toList, "--- a/f.py".toList, "+++ b/f.py".toList,
    "@@ -1 +1 @@".toList, "-# old\r".toList, "+# new\r".toList,
    "@@ -4 +4,2 @@ def f(x):".toList, "-    return x".toList, "+    x = 1".toList,
    "+    return x".toList, "diff --git a/gone.py b/gone.py".toList,
    "deleted file mode 100644".toList, "--- a/gone.py".toList, "+++ /dev/null".toList,
    "@@ -1 +0,0 @@".toList, "-# gone".toList]

theorem changes_dropTrivialHunks_mixed :
    (EndsLines mixedPatch ∧ ∀ line ∈ Text.lines mixedPatch, isHunkLine line = true →
      (hunkRange? line).isSome = true) ∧
    (Parts.ofText mixedPatch).lines = Text.lines mixedPatch ∧ (Parts.ofText mixedPatch).IsCut ∧
      changes mixedPatch = (Parts.ofText mixedPatch).files.map (·.change) ∧
      changes (dropTrivialHunks mixedPatch) =
        (Parts.ofText mixedPatch).files.map (·.kept.change) ∧
      (∀ f ∈ (Parts.ofText mixedPatch).files, IsSubChange f f.change f.kept.change) ∧
      dropTrivialHunks (dropTrivialHunks mixedPatch) = dropTrivialHunks mixedPatch := by
  have hends : EndsLines mixedPatch := by decide +kernel
  have hopens : ∀ line ∈ Text.lines mixedPatch, isHunkLine line = true →
      (hunkRange? line).isSome = true := by decide +kernel
  exact ⟨⟨hends, hopens⟩, changes_dropTrivialHunks hends hopens⟩

end ChangeScope.Patch
