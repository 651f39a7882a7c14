import ChangeScope.Proofs.Patch.Reading

/-!
# Declared lines

The line that opens a hunk declares a range of the new file. The lines of a hunk touch no others
(`declares_of_touched`), but all that stands behind the last hunk of a file, up to the next file,
is read as if it were a part of that hunk: for example the lines of an unmerged file, which has a
title of another kind. Main statement: `declared_iff_clear`.
-/

set_option autoImplicit false

namespace ChangeScope.Patch

open ChangeScope.Text

/-! ## Sections -/

/-- A row below the line that opens a hunk. -/
inductive Row where
  /-- A line of both sides. -/
  | kept (text : Line)
  | removed (text : Line)
  | added (text : Line)
  /-- A note, such as on a file that does not end in a line feed. -/
  | note (text : Line)

/-- A row as it is written. -/
def Row.line : Row → Line
  | .kept text => ' ' :: text
  | .removed text => '-' :: text
  | .added text => '+' :: text
  | .note text => '\\' :: text

/-- The row is a line of the new side. -/
def Row.isNew : Row → Bool
  | .kept _ => true
  | .added _ => true
  | .removed _ => false
  | .note _ => false

/-- A hunk, perhaps with lines that stay. -/
structure Block where
  oldStart : Nat
  oldCount : Nat
  /-- The line of the new file where the rows begin. -/
  start : Nat
  /-- What stands behind the second `@@`. -/
  tail : Line
  rows : List Row

/-- The number of lines of the new side. -/
def Block.count (b : Block) : Nat := b.rows.countP Row.isNew

/-- The line that opens a hunk. -/
def Block.title (b : Block) : Line :=
  "@@ -".toList ++ (rangeText b.oldStart b.oldCount ++ (" +".toList ++
    (rangeText b.start b.count ++ (" @@".toList ++ b.tail))))

def Block.lines (b : Block) : List Line := b.title :: b.rows.map Row.line

/-- The line lies in the range that the hunk declares; one without new lines declares the line at
which it takes place. -/
def Block.Declares (b : Block) (n : Nat) : Prop :=
  if b.count = 0 then n = max b.start 1 else b.start ≤ n ∧ n < b.start + b.count

/-- What stands in a patch from the title of a file up to the next one. -/
structure FileSection where
  title : Line
  header : List Line
  blocks : List Block
  /-- What is not told of the file: notes, and sections of unmerged files, which have a title of
  another kind. -/
  others : List Line

def FileSection.body (s : FileSection) : List Line :=
  s.header ++ (s.blocks.flatMap Block.lines ++ s.others)

/-- The line lies in a range that the file's own hunks declare. -/
def FileSection.Declares (s : FileSection) (n : Nat) : Prop := ∃ b ∈ s.blocks, b.Declares n

/-- A line that opens neither a file nor a hunk. -/
def IsPlainLine (line : Line) : Prop := isFileLine line = false ∧ hunkRange? line = none

/-- A section as it is written: only titles open files and hunks, and line numbers are small. -/
structure FileSection.IsPlain (s : FileSection) : Prop where
  title : isFileLine s.title = true
  header : ∀ line ∈ s.header, IsPlainLine line
  others : ∀ line ∈ s.others, IsPlainLine line
  small : ∀ b ∈ s.blocks, b.start + b.rows.length + s.others.length ≤ 2 ^ 63

/-! ## Lines in a row -/

/-- The line takes a number of the new side. -/
def isAdvance (line : Line) : Bool := line.head? == some '+' || line.head? == some ' '

/-- How many numbers of the new side some lines take. -/
def advance (lines : List Line) : Nat := lines.countP isAdvance

@[simp] theorem advance_nil : advance [] = 0 := rfl

theorem advance_cons (line : Line) (lines : List Line) :
    advance (line :: lines) = advance lines + if isAdvance line then 1 else 0 := List.countP_cons

theorem advance_append (a b : List Line) : advance (a ++ b) = advance a + advance b :=
  List.countP_append

/-- A line with a plus sign, the lines before it, and the number that it gets behind `next`. -/
def IsAdded (next : Nat) (lines : List Line) (n : Nat) : Prop :=
  ∃ before text after, lines = before ++ ('+' :: text) :: after ∧ n = next + advance before

theorem isAdded_nil {next n : Nat} : ¬ IsAdded next [] n := by
  rintro ⟨before, text, after, h, -⟩
  exact absurd h (by simp)

theorem isAdded_cons {next : Nat} {line : Line} {lines : List Line} {n : Nat} :
    IsAdded next (line :: lines) n ↔
      ((∃ text, line = '+' :: text) ∧ n = next) ∨
        IsAdded (next + if isAdvance line then 1 else 0) lines n := by
  constructor
  · rintro ⟨before, text, after, h, rfl⟩
    rcases List.cons_eq_append_iff.mp h with ⟨rfl, h⟩ | ⟨before, rfl, rfl⟩
    · exact Or.inl ⟨⟨text, (List.cons.inj h).1⟩, rfl⟩
    · refine Or.inr ⟨before, text, after, rfl, ?_⟩
      rw [advance_cons]
      omega
  · rintro (⟨⟨text, rfl⟩, rfl⟩ | ⟨before, text, after, rfl, rfl⟩)
    · exact ⟨[], text, lines, rfl, rfl⟩
    · refine ⟨line :: before, text, after, rfl, ?_⟩
      rw [advance_cons]
      omega

/-- The number of an added line lies among those that the lines take. -/
theorem IsAdded.bounds {next : Nat} {lines : List Line} {n : Nat} (h : IsAdded next lines n) :
    next ≤ n ∧ n < next + advance lines := by
  obtain ⟨before, text, after, rfl, rfl⟩ := h
  have hone : isAdvance ('+' :: text) = true := rfl
  rw [advance_append, advance_cons, if_pos hone]
  omega

/-- A line of a hunk takes a number of 64 bits, or none. -/
theorem touchedLines_word {line : Line} (hline : hunkRange? line = none) {next : Nat}
    (hnext : next < 2 ^ 64) (rest : List Line) :
    touchedLines next (line :: rest) = (if line.head? = some '+' then [next] else []) ++
      touchedLines ((next + if isAdvance line then 1 else 0) % 2 ^ 64) rest := by
  rw [touchedLines_cons, hline]
  dsimp only
  split
  · rfl
  · rfl
  · next hplus hblank =>
      have hhead : ∀ c, c = '+' ∨ c = ' ' → line.head? ≠ some c := by
        intro c hc h
        obtain ⟨text, rfl⟩ := List.head?_eq_some_iff.mp h
        rcases hc with rfl | rfl
        · exact hplus text rfl
        · exact hblank text rfl
      have hstay : isAdvance line = false := by
        simp [isAdvance, hhead '+' (Or.inl rfl), hhead ' ' (Or.inr rfl)]
      rw [if_neg (hhead '+' (Or.inl rfl)), hstay, if_neg Bool.false_ne_true, Nat.add_zero,
        Nat.mod_eq_of_lt hnext]
      rfl

/-- One line of a hunk takes a number, or none. -/
theorem touchedLines_line {line : Line} (hline : hunkRange? line = none) {next : Nat}
    (hsmall : next < 2 ^ 63) (rest : List Line) :
    touchedLines next (line :: rest) = (if line.head? = some '+' then [next] else []) ++
      touchedLines (next + if isAdvance line then 1 else 0) rest := by
  have hlater : next + (if isAdvance line then 1 else 0) < 2 ^ 64 := by
    split <;> omega
  rw [touchedLines_word hline (by omega), Nat.mod_eq_of_lt hlater]

/-- Lines that open no hunk touch the numbers of those with a plus sign. -/
theorem mem_touchedLines {lines : List Line} (hlines : ∀ line ∈ lines, hunkRange? line = none)
    {next : Nat} (hsmall : next + lines.length ≤ 2 ^ 63) {n : Nat} (rest : List Line) :
    n ∈ touchedLines next (lines ++ rest) ↔
      IsAdded next lines n ∨ n ∈ touchedLines (next + advance lines) rest := by
  induction lines generalizing next with
  | nil => simp [isAdded_nil]
  | cons line lines ih =>
      rw [List.length_cons] at hsmall
      have hstep : next + (if isAdvance line then 1 else 0) + lines.length ≤ 2 ^ 63 := by
        split <;> omega
      have hcount : next + (if isAdvance line then 1 else 0) + advance lines =
          next + advance (line :: lines) := by
        rw [advance_cons]
        omega
      rw [List.cons_append, touchedLines_line (hlines line List.mem_cons_self) (by omega),
        List.mem_append, ih (fun l hl => hlines l (List.mem_cons_of_mem line hl)) hstep, hcount,
        isAdded_cons, or_assoc]
      refine or_congr_left ?_
      rw [← List.head?_eq_some_iff]
      split
      · next hplus => simp [hplus]
      · next hplus => simp [hplus]

/-! ## Hunks -/

theorem Row.hunkRange?_line (r : Row) : hunkRange? r.line = none := by
  cases r <;> exact hunkRange?_eq_none (by simp [Row.line])

/-- As many numbers are taken as the hunk declares. -/
theorem advance_rows (rows : List Row) : advance (rows.map Row.line) = rows.countP Row.isNew := by
  rw [advance, List.countP_map]
  refine List.countP_congr fun r _ => ?_
  cases r <;> simp [Row.line, isAdvance, Row.isNew]

/-- The line is touched by the hunk. -/
def Block.Touches (b : Block) (n : Nat) : Prop :=
  (b.count = 0 ∧ n = max b.start 1) ∨ IsAdded b.start (b.rows.map Row.line) n

/-- **A hunk touches lines that it declares.** -/
theorem Block.Touches.declares {b : Block} {n : Nat} (h : b.Touches n) : b.Declares n := by
  unfold Block.Declares
  rcases h with ⟨hempty, rfl⟩ | hadded
  · rw [if_pos hempty]
  · have hbounds := hadded.bounds
    rw [advance_rows, ← Block.count] at hbounds
    rw [if_neg (by omega)]
    exact hbounds

/-- A hunk touches its lines, and what stands behind it goes on with the number behind them. -/
theorem mem_touchedLines_block {b : Block} (hsmall : b.start + b.rows.length ≤ 2 ^ 63)
    (next : Nat) {n : Nat} (rest : List Line) :
    n ∈ touchedLines next (b.lines ++ rest) ↔
      b.Touches n ∨ n ∈ touchedLines (b.start + b.count) rest := by
  have hcount : b.count ≤ b.rows.length := List.countP_le_length
  have hrange : hunkRange? b.title = some (b.start, b.count) :=
    hunkRange?_opening b.oldStart b.oldCount (by omega) (by omega) b.tail
  have hrows : n ∈ touchedLines b.start (b.rows.map Row.line ++ rest) ↔
      IsAdded b.start (b.rows.map Row.line) n ∨ n ∈ touchedLines (b.start + b.count) rest := by
    rw [mem_touchedLines _ (by rwa [List.length_map]), advance_rows, ← Block.count]
    intro line hline
    obtain ⟨r, -, rfl⟩ := List.mem_map.mp hline
    exact r.hunkRange?_line
  rw [Block.lines, List.cons_append, touchedLines_cons, hrange]
  unfold Block.Touches
  by_cases hempty : b.count = 0
  · rw [hempty] at hrows ⊢
    simp only [List.mem_cons, hrows, true_and, or_assoc]
  · obtain ⟨count, hcount⟩ := Nat.exists_eq_succ_of_ne_zero hempty
    simp only [hempty, false_and, false_or, ← hrows]
    rw [hcount]

/-- Behind hunks the number goes on behind the last one. -/
theorem mem_touchedLines_blocks {blocks : List Block}
    (hsmall : ∀ b ∈ blocks, b.start + b.rows.length ≤ 2 ^ 63) (next : Nat) {n : Nat}
    (rest : List Line) :
    n ∈ touchedLines next (blocks.flatMap Block.lines ++ rest) ↔
      (∃ b ∈ blocks, b.Touches n) ∨
        n ∈ touchedLines (blocks.getLast?.elim next fun b => b.start + b.count) rest := by
  induction blocks generalizing next with
  | nil => simp
  | cons b blocks ih =>
      have hlast : (b :: blocks).getLast?.elim next (fun b => b.start + b.count) =
          blocks.getLast?.elim (b.start + b.count) fun b => b.start + b.count := by
        rw [List.getLast?_cons]
        cases blocks.getLast? <;> rfl
      rw [List.flatMap_cons, List.append_assoc,
        mem_touchedLines_block (hsmall b List.mem_cons_self),
        ih fun c hc => hsmall c (List.mem_cons_of_mem b hc), hlast, ← or_assoc,
        List.exists_mem_cons_iff]

/-! ## Files -/

/-- The line is touched by a hunk of the file, or by what stands behind the last one. -/
def FileSection.Touches (s : FileSection) (n : Nat) : Prop :=
  (∃ b ∈ s.blocks, b.Touches n) ∨
    ∃ last, s.blocks.getLast? = some last ∧ IsAdded (last.start + last.count) s.others n

/-- What stands behind the last hunk touches declared lines only. -/
def FileSection.IsClear (s : FileSection) : Prop :=
  ∀ last, s.blocks.getLast? = some last →
    ∀ n, IsAdded (last.start + last.count) s.others n → s.Declares n

/-- The hunks stand in the order of the file, with lines between them. -/
def FileSection.IsOrdered (s : FileSection) : Prop :=
  s.blocks.Pairwise fun a b => a.start < b.start ∧ a.start + a.count ≤ b.start

theorem FileSection.IsPlain.rows_small {s : FileSection} (hs : s.IsPlain) :
    ∀ b ∈ s.blocks, b.start + b.rows.length ≤ 2 ^ 63 := by
  intro b hb
  have hsmall := hs.small b hb
  omega

/-- The hunks of a section begin with the line that opens the first of them. -/
theorem FileSection.IsPlain.span_body {s : FileSection} (hs : s.IsPlain) :
    s.body.span (fun line => (hunkRange? line).isNone) =
      if s.blocks = [] then (s.header ++ s.others, [])
      else (s.header, s.blocks.flatMap Block.lines ++ s.others) := by
  have hplain : ∀ {lines : List Line}, (∀ line ∈ lines, IsPlainLine line) →
      ∀ line ∈ lines, (hunkRange? line).isNone = true := by
    intro lines hlines line hline
    rw [(hlines line hline).2]
    rfl
  unfold FileSection.body
  cases hblocks : s.blocks with
  | nil =>
      have hall : ∀ line ∈ s.header ++ s.others, IsPlainLine line := by
        intro line hline
        rcases List.mem_append.mp hline with hline | hline
        · exact hs.header line hline
        · exact hs.others line hline
      have hspan := span_stretch (b := []) (hplain hall) (fun c hc => absurd hc (by simp))
      rw [List.append_nil] at hspan
      rw [if_pos rfl, List.flatMap_nil, List.nil_append, hspan]
  | cons b blocks =>
      have hfirst : ∀ line, ((b :: blocks).flatMap Block.lines ++ s.others).head? = some line →
          (hunkRange? line).isNone = false := by
        intro line hline
        obtain rfl : b.title = line := Option.some.inj hline
        have hsmall := hs.rows_small b (by rw [hblocks]; exact List.mem_cons_self)
        have hcount : b.count ≤ b.rows.length := List.countP_le_length
        rw [Block.title, hunkRange?_opening b.oldStart b.oldCount (by omega) (by omega)]
        rfl
      rw [if_neg (List.cons_ne_nil _ _)]
      exact span_stretch (hplain hs.header) hfirst

/-- The header of a section with hunks tells the status of the file. -/
theorem FileSection.IsPlain.status {s : FileSection} (hs : s.IsPlain) (hblocks : s.blocks ≠ []) :
    (FileChange.ofSection s.title s.body).status =
      (s.header.foldl Heading.read ⟨titlePath s.title, .modified⟩).status := by
  unfold FileChange.ofSection
  rw [hs.span_body, if_neg hblocks]

/-- The touched lines of a section. -/
theorem FileSection.IsPlain.mem_lines {s : FileSection} (hs : s.IsPlain) {n : Nat} :
    n ∈ (FileChange.ofSection s.title s.body).lines ↔
      (FileChange.ofSection s.title s.body).status ≠ .deleted ∧ s.Touches n := by
  have hother : ∀ line ∈ s.others, hunkRange? line = none := fun line hline =>
    (hs.others line hline).2
  have hhunks : n ∈ touchedLines 0 (s.body.span fun line => (hunkRange? line).isNone).2 ↔
      s.Touches n := by
    rw [hs.span_body]
    unfold FileSection.Touches
    cases hlast : s.blocks.getLast? with
    | none =>
        rw [List.getLast?_eq_none_iff.mp hlast, if_pos rfl]
        simp [touchedLines]
    | some last =>
        have hmem : last ∈ s.blocks := List.mem_of_getLast? hlast
        have hsmall := hs.small last hmem
        have hcount : last.count ≤ last.rows.length := List.countP_le_length
        -- the rows behind the last hunk are counted on from its end
        have htail := @mem_touchedLines s.others hother (last.start + last.count) (by omega) n []
        rw [List.append_nil] at htail
        rw [if_neg (List.ne_nil_of_mem hmem), mem_touchedLines_blocks hs.rows_small, hlast,
          Option.elim_some, htail]
        simp [touchedLines]
  unfold FileChange.ofSection
  dsimp only
  split
  · next hdeleted =>
      constructor
      · intro hn
        exact absurd hn List.not_mem_nil
      · rintro ⟨halive, -⟩
        exact absurd hdeleted halive
  · next halive =>
      rw [OrderedSet.mem_ofList, hhunks]
      exact (and_iff_right halive).symm

/-- Hunks before the last one declare no line behind it. -/
theorem FileSection.IsOrdered.clear_iff {s : FileSection} (hs : s.IsOrdered) {last : Block}
    (hlast : s.blocks.getLast? = some last) (hcount : 0 < last.count) :
    s.IsClear ↔ ∀ line ∈ s.others, line.head? ≠ some '+' := by
  constructor
  · intro hclear line hline hplus
    obtain ⟨text, rfl⟩ := List.head?_eq_some_iff.mp hplus
    obtain ⟨before, after, hsplit⟩ := List.append_of_mem hline
    obtain ⟨b, hb, hdeclares⟩ := hclear last hlast _ ⟨before, text, after, hsplit, rfl⟩
    -- a hunk that is not the last one ends where the last one begins, or before
    have hbelow : b = last ∨ b.start < last.start ∧ b.start + b.count ≤ last.start := by
      obtain ⟨front, hfront⟩ := List.getLast?_eq_some_iff.mp hlast
      have hordered := hs
      unfold FileSection.IsOrdered at hordered
      rw [hfront] at hb hordered
      rcases List.mem_append.mp hb with hb | hb
      · exact Or.inr ((List.pairwise_append.mp hordered).2.2 b hb last List.mem_cons_self)
      · exact Or.inl (List.mem_singleton.mp hb)
    unfold Block.Declares at hdeclares
    rcases hbelow with rfl | hbelow
    · rw [if_neg (by omega)] at hdeclares
      omega
    · split at hdeclares <;> omega
  · rintro hplus last' - n ⟨before, text, after, hsplit, -⟩
    exact absurd rfl (hplus ('+' :: text) (by rw [hsplit]; simp))

/-- A patch of some files is read section by section. -/
theorem changes_files {text : List Char} {front : List Line} {files : List FileSection}
    (hlines : Text.lines text = front ++ files.flatMap fun s => s.title :: s.body)
    (hfront : ∀ line ∈ front, isFileLine line = false) (hfiles : ∀ s ∈ files, s.IsPlain) :
    changes text = files.map fun s => FileChange.ofSection s.title s.body := by
  have hgroups : (files.flatMap fun s => s.title :: s.body) =
      (files.map fun s => (s.title, s.body)).flatMap fun g => g.1 :: g.2 := by
    rw [List.flatMap_map]
  -- no row of a section is taken for the title of the next one
  have hbody : ∀ s ∈ files, ∀ line ∈ s.body, isFileLine line = false := by
    intro s hs line hline
    unfold FileSection.body at hline
    rcases List.mem_append.mp hline with hline | hline
    · exact ((hfiles s hs).header line hline).1
    rcases List.mem_append.mp hline with hline | hline
    · obtain ⟨b, -, hline⟩ := List.mem_flatMap.mp hline
      rcases List.mem_cons.mp hline with rfl | hline
      · rfl
      · obtain ⟨r, -, rfl⟩ := List.mem_map.mp hline
        cases r <;> rfl
    · exact ((hfiles s hs).others line hline).1
  have hcut : (cutBefore isFileLine (Text.lines text)).2 =
      files.map fun s => (s.title, s.body) := by
    rw [hlines, hgroups, cutBefore_append hfront, cutBefore_groups]
    intro g hg
    obtain ⟨s, hs, rfl⟩ := List.mem_map.mp hg
    exact ⟨(hfiles s hs).title, hbody s hs⟩
  rw [changes, hcut, List.map_map]
  rfl

/-- **Touched lines are declared, unless other lines are taken for a hunk's.** In a patch of some
files, each file is told with the lines that its hunks touch, and with those that the lines behind
its last hunk touch, if they have a plus sign. All are declared by the hunks of the file if and
only if the file is deleted or the latter are; where the last hunk has lines of the new file, this
is so if and only if no line with a plus sign stands behind it. -/
theorem declared_iff_clear {text : List Char} {front : List Line} {files : List FileSection}
    (hlines : Text.lines text = front ++ files.flatMap fun s => s.title :: s.body)
    (hfront : ∀ line ∈ front, isFileLine line = false) (hfiles : ∀ s ∈ files, s.IsPlain) :
    List.Forall₂ (fun s c =>
      (∀ n, n ∈ c.lines ↔ c.status ≠ .deleted ∧ s.Touches n) ∧
      ((∀ n ∈ c.lines, s.Declares n) ↔ c.status = .deleted ∨ s.IsClear) ∧
      (s.IsOrdered → ∀ last, s.blocks.getLast? = some last → 0 < last.count →
        (s.IsClear ↔ ∀ line ∈ s.others, line.head? ≠ some '+'))) files (changes text) := by
  rw [changes_files hlines hfront hfiles, List.forall₂_map_right_iff, List.forall₂_same]
  intro s hs
  have hmem : ∀ n, _ := fun n => @FileSection.IsPlain.mem_lines s (hfiles s hs) n
  refine ⟨hmem, ?_, fun hordered last hlast hcount => hordered.clear_iff hlast hcount⟩
  show (∀ n ∈ (FileChange.ofSection s.title s.body).lines, s.Declares n) ↔
    (FileChange.ofSection s.title s.body).status = .deleted ∨ s.IsClear
  constructor
  · intro hall
    refine or_iff_not_imp_left.mpr fun halive last hlast n hadded => ?_
    exact hall n ((hmem n).mpr ⟨halive, Or.inr ⟨last, hlast, hadded⟩⟩)
  · rintro hclear n hn
    obtain ⟨halive, ⟨b, hb, htouches⟩ | ⟨last, hlast, hadded⟩⟩ := (hmem n).mp hn
    · exact ⟨b, hb, htouches.declares⟩
    · exact hclear.resolve_left halive last hlast n hadded

/-! ## A file with a conflict behind another one -/

namespace Unmerged

def hunk : Block := ⟨1, 1, 1, [], [.removed "x = 1".toList, .added "x = 2".toList]⟩

/-- A changed line of one file, and a conflict in the next. -/
def file : FileSection :=
  { title := "diff --git a/a.py b/a.py".toList
    header := ["--- a/a.py".toList, "+++ b/a.py".toList]
    blocks := [hunk]
    others := ["diff --cc b.py".toList, "--- a/b.py".toList, "+++ b/b.py".toList,
      "@@@ -1,1 -1,1 +1,5 @@@".toList, "++<<<<<<< ours".toList, " +y = 1".toList,
      "++=======".toList, "+ y = 2".toList, "++>>>>>>> theirs".toList] }

def text : List Char := textOfRows (file.title :: file.body)

theorem title_hunk : hunk.title = "@@ -1 +1 @@".toList := by
  decide

theorem lines_text : Text.lines text = [] ++ [file].flatMap fun s => s.title :: s.body := by
  have hrows : file.title :: file.body = file.title :: (file.header ++
      ("@@ -1 +1 @@".toList :: hunk.rows.map Row.line ++ file.others)) := by
    rw [← title_hunk]
    rfl
  rw [text, List.flatMap_singleton, List.nil_append, hrows, lines_textOfRows (by decide)]
  rfl

theorem isPlain_file : file.IsPlain where
  title := rfl
  header := by
    intro line hline
    rcases List.mem_pair.mp hline with rfl | rfl <;> exact ⟨rfl, rfl⟩
  others := by
    have hall : ∀ line ∈ file.others, isFileLine line = false ∧ hunkRange? line = none := by
      decide
    exact hall
  small := by
    intro b hb
    obtain rfl := List.mem_singleton.mp hb
    decide

theorem isPlain_files : ∀ s ∈ [file], s.IsPlain := by
  intro s hs
  obtain rfl := List.mem_singleton.mp hs
  exact isPlain_file

theorem changes_text : changes text = [FileChange.ofSection file.title file.body] :=
  changes_files lines_text (fun _ hline => absurd hline List.not_mem_nil) isPlain_files

end Unmerged

theorem declared_iff_clear_unmerged :
    Text.lines Unmerged.text = [] ++ [Unmerged.file].flatMap (fun s => s.title :: s.body) ∧
      Unmerged.file.IsPlain ∧
      List.Forall₂ (fun s c =>
        (∀ n, n ∈ c.lines ↔ c.status ≠ .deleted ∧ s.Touches n) ∧
        ((∀ n ∈ c.lines, s.Declares n) ↔ c.status = .deleted ∨ s.IsClear) ∧
        (s.IsOrdered → ∀ last, s.blocks.getLast? = some last → 0 < last.count →
          (s.IsClear ↔ ∀ line ∈ s.others, line.head? ≠ some '+')))
        [Unmerged.file] (changes Unmerged.text) := by
  exact ⟨Unmerged.lines_text, Unmerged.isPlain_file, declared_iff_clear Unmerged.lines_text
    (fun _ hline => absurd hline List.not_mem_nil) Unmerged.isPlain_files⟩

/-- The line that names the file with the conflict is taken for a line of the other file. -/
theorem unmerged_line_not_declared :
    Text.lines Unmerged.text = [] ++ [Unmerged.file].flatMap (fun s => s.title :: s.body) ∧
      Unmerged.file.IsPlain ∧ ∃ c, changes Unmerged.text = [c] ∧ 2 ∈ c.lines ∧
        ¬ Unmerged.file.Declares 2 := by
  refine ⟨Unmerged.lines_text, Unmerged.isPlain_file, _, Unmerged.changes_text, ?_, ?_⟩
  · have hadded : IsAdded 2 Unmerged.file.others 2 :=
      ⟨["diff --cc b.py".toList, "--- a/b.py".toList], "++ b/b.py".toList, _, rfl, rfl⟩
    refine Unmerged.isPlain_file.mem_lines.mpr ⟨?_, Or.inr ⟨Unmerged.hunk, rfl, hadded⟩⟩
    rw [Unmerged.isPlain_file.status (List.cons_ne_nil _ _)]
    decide
  · rintro ⟨b, hb, hdeclares⟩
    obtain rfl := List.mem_singleton.mp hb
    have hcount : Unmerged.hunk.count = 1 := rfl
    unfold Block.Declares at hdeclares
    rw [hcount, if_neg (by decide)] at hdeclares
    exact absurd hdeclares.2 (by decide)

end ChangeScope.Patch
