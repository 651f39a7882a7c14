import ChangeScope.Patch
import ChangeScope.Proofs.Text.Digits
import ChangeScope.Proofs.Text.Fields

/-!
# The written form of changes

A list of file changes is written as a patch without context lines: for each file a title, the
lines of its mode and index, the names of both sides when there are hunks, and the hunks. The lines
of that text are the rows that were written (`lines_render`).
-/

set_option autoImplicit false

namespace ChangeScope.Patch

open ChangeScope.Text

/-! ## Hunks -/

/-- A hunk without context lines. -/
structure Hunk where
  oldStart : Nat
  oldCount : Nat
  removed : List Line
  /-- The line of the new file where the added lines begin. -/
  start : Nat
  added : List Line
  /-- What stands behind the second `@@`. -/
  tail : Line
  /-- The removed lines are marked as the end of a file without a line feed. -/
  removedOpen : Bool
  /-- The added lines are. -/
  addedOpen : Bool

/-- A range of lines: its start and its length, which is left out when it is 1. -/
def rangeText (start count : Nat) : List Char :=
  if count = 1 then Nat.toDigits 10 start
  else Nat.toDigits 10 start ++ ',' :: Nat.toDigits 10 count

/-- The line that opens a hunk. -/
def Hunk.title (h : Hunk) : Line :=
  "@@ -".toList ++ (rangeText h.oldStart h.oldCount ++ (" +".toList ++
    (rangeText h.start h.added.length ++ (" @@".toList ++ h.tail))))

/-- The mark of a file that does not end in a line feed. -/
def openRows (isOpen : Bool) : List Line :=
  if isOpen then ["\\ No newline at end of file".toList] else []

/-- The rows of a hunk. -/
def Hunk.rows (h : Hunk) : List Line :=
  h.title :: (h.removed.map ('-' :: ·) ++ (openRows h.removedOpen ++
    (h.added.map ('+' :: ·) ++ openRows h.addedOpen)))

/-! ## Files -/

/-- What becomes of a file, with the modes that are written for it. -/
inductive Fate where
  /-- The modes are written only when they differ. -/
  | modified (modes : Option (Line × Line))
  | added (mode : Line)
  | deleted (mode : Line)

/-- The status that the fate of a file stands for. -/
def Fate.status : Fate → Status
  | .modified _ => .modified
  | .added _ => .added
  | .deleted _ => .deleted

/-- The modes that are written. -/
def Fate.modes : Fate → List Line
  | .modified none => []
  | .modified (some (old, new)) => [old, new]
  | .added mode => [mode]
  | .deleted mode => [mode]

/-- The rows of the modes. -/
def Fate.rows : Fate → List Line
  | .modified none => []
  | .modified (some (old, new)) => ["old mode ".toList ++ old, "new mode ".toList ++ new]
  | .added mode => ["new file mode ".toList ++ mode]
  | .deleted mode => ["deleted file mode ".toList ++ mode]

/-- The change of a file. -/
structure Edit where
  path : List Char
  fate : Fate
  /-- What stands in the index line, if there is one. -/
  index : Option Line
  hunks : List Hunk

/-- The first row of a file. -/
def Edit.title (e : Edit) : Line :=
  "diff --git ".toList ++ (("a/".toList ++ e.path) ++ (" b/".toList ++ e.path))

/-- The path as the name of a side, behind which a tab stands when there is a blank in it. -/
def Edit.sidePath (e : Edit) : List Char := e.path ++ if ' ' ∈ e.path then ['\t'] else []

/-- The rows that name both sides. -/
def Edit.sideRows (e : Edit) : List Line :=
  match e.fate with
  | .modified _ => ["--- a/".toList ++ e.sidePath, "+++ b/".toList ++ e.sidePath]
  | .added _ => ["--- /dev/null".toList, "+++ b/".toList ++ e.sidePath]
  | .deleted _ => ["--- a/".toList ++ e.sidePath, "+++ /dev/null".toList]

/-- The rows between the title and the hunks. -/
def Edit.header (e : Edit) : List Line :=
  e.fate.rows ++ (e.index.toList.map ("index ".toList ++ ·) ++
    if e.hunks.isEmpty then [] else e.sideRows)

/-- The rows below the title. -/
def Edit.body (e : Edit) : List Line := e.header ++ e.hunks.flatMap Hunk.rows

/-- The patch of some changes. -/
def render (es : List Edit) : List Char := textOfRows (es.flatMap fun e => e.title :: e.body)

/-! ## Changes that can be written -/

/-- The texts of a hunk stand on lines of their own, and its line numbers are small. -/
structure Hunk.IsPlain (h : Hunk) : Prop where
  removed : ∀ line ∈ h.removed, '\n' ∉ line ∧ line.getLast? ≠ some '\r'
  added : ∀ line ∈ h.added, '\n' ∉ line ∧ line.getLast? ≠ some '\r'
  tail : '\n' ∉ h.tail
  small : h.start + h.added.length ≤ 2 ^ 63

/-- The path can be told from the words around it. -/
structure Edit.IsPlain (e : Edit) : Prop where
  path_ne : e.path ≠ []
  path_line : '\n' ∉ e.path
  path_side : ¬ " b/".toList <:+: e.path
  path_last : ∀ c, e.path.getLast? = some c → isBlank c = false
  modes : ∀ mode ∈ e.fate.modes, '\n' ∉ mode
  index : ∀ text, e.index = some text → '\n' ∉ text
  hunks : ∀ h ∈ e.hunks, h.IsPlain

/-! ## The rows of a header -/

/-- The words that a row of a header begins with. -/
def headerWords : List Line :=
  ["old mode ".toList, "new mode ".toList, "new file mode ".toList, "deleted file mode ".toList,
    "index ".toList, "--- a/".toList, "+++ b/".toList]

/-- The rows that stand for the missing side of a file. -/
def missingSides : List Line := ["--- /dev/null".toList, "+++ /dev/null".toList]

/-- What the words of a header stand before. -/
def Edit.headerTexts (e : Edit) : List Line := e.fate.modes ++ e.index.toList ++ [e.sidePath]

theorem Fate.mem_rows {f : Fate} {row : Line} (h : row ∈ f.rows) :
    ∃ front ∈ headerWords, ∃ mode ∈ f.modes, row = front ++ mode := by
  match f with
  | .modified none => exact absurd h List.not_mem_nil
  | .modified (some (old, new)) =>
      rcases List.mem_pair.mp h with rfl | rfl
      · exact ⟨_, by decide, old, List.mem_cons_self, rfl⟩
      · exact ⟨_, by decide, new, List.mem_cons_of_mem old List.mem_cons_self, rfl⟩
  | .added mode =>
      obtain rfl := List.mem_singleton.mp h
      exact ⟨_, by decide, mode, List.mem_cons_self, rfl⟩
  | .deleted mode =>
      obtain rfl := List.mem_singleton.mp h
      exact ⟨_, by decide, mode, List.mem_cons_self, rfl⟩

theorem Edit.mem_sideRows {e : Edit} {row : Line} (h : row ∈ e.sideRows) :
    row ∈ missingSides ∨ ∃ front ∈ headerWords, row = front ++ e.sidePath := by
  unfold Edit.sideRows at h
  split at h
  · rcases List.mem_pair.mp h with rfl | rfl
    · exact Or.inr ⟨_, by decide, rfl⟩
    · exact Or.inr ⟨_, by decide, rfl⟩
  · rcases List.mem_pair.mp h with rfl | rfl
    · exact Or.inl (by decide)
    · exact Or.inr ⟨_, by decide, rfl⟩
  · rcases List.mem_pair.mp h with rfl | rfl
    · exact Or.inr ⟨_, by decide, rfl⟩
    · exact Or.inl (by decide)

/-- A row of a header is a missing side, or some words of the patch and a text of the change. -/
theorem Edit.mem_header {e : Edit} {row : Line} (h : row ∈ e.header) :
    row ∈ missingSides ∨ ∃ front ∈ headerWords, ∃ text ∈ e.headerTexts, row = front ++ text := by
  unfold Edit.header at h
  unfold Edit.headerTexts
  rcases List.mem_append.mp h with h | h
  · obtain ⟨front, hfront, mode, hmode, rfl⟩ := Fate.mem_rows h
    exact Or.inr ⟨front, hfront, mode,
      List.mem_append_left _ (List.mem_append_left _ hmode), rfl⟩
  · rcases List.mem_append.mp h with h | h
    · obtain ⟨text, htext, rfl⟩ := List.mem_map.mp h
      exact Or.inr ⟨_, by decide, text,
        List.mem_append_left _ (List.mem_append_right _ htext), rfl⟩
    · split at h
      · exact absurd h List.not_mem_nil
      · rcases Edit.mem_sideRows h with h | ⟨front, hfront, rfl⟩
        · exact Or.inl h
        · exact Or.inr ⟨front, hfront, e.sidePath,
            List.mem_append_right _ List.mem_cons_self, rfl⟩

/-! ## Rows stand on one line -/

theorem mem_rangeText {start count : Nat} {c : Char} (h : c ∈ rangeText start count) :
    c.isDigit = true ∨ c = ',' := by
  unfold rangeText at h
  split at h
  · exact Or.inl (isDigits_toDigits start c h)
  · rcases List.mem_append.mp h with hin | hin
    · exact Or.inl (isDigits_toDigits start c hin)
    · rcases List.mem_cons.mp hin with rfl | hin
      · exact Or.inr rfl
      · exact Or.inl (isDigits_toDigits count c hin)

theorem not_mem_rangeText {start count : Nat} {c : Char} (hdigit : c.isDigit = false)
    (hcomma : c ≠ ',') : c ∉ rangeText start count := by
  intro h
  rcases mem_rangeText h with hc | hc
  · rw [hdigit] at hc
    exact absurd hc (by decide)
  · exact hcomma hc

theorem Hunk.IsPlain.oneLine {h : Hunk} (hh : h.IsPlain) : ∀ row ∈ h.rows, '\n' ∉ row := by
  have htitle : '\n' ∉ h.title := by
    have hrange : ∀ start count, '\n' ∉ rangeText start count :=
      fun start count => not_mem_rangeText (by decide) (by decide)
    have hopening : '\n' ∉ "@@ -".toList ∧ '\n' ∉ " +".toList ∧ '\n' ∉ " @@".toList := by decide
    unfold Hunk.title
    simp only [List.mem_append, not_or]
    exact ⟨hopening.1, hrange _ _, hopening.2.1, hrange _ _, hopening.2.2, hh.tail⟩
  have hcontent : ∀ {c : Char} {ls : List Line}, c ≠ '\n' →
      (∀ line ∈ ls, '\n' ∉ line ∧ line.getLast? ≠ some '\r') →
      ∀ row ∈ ls.map (c :: ·), '\n' ∉ row := by
    intro c ls hc hls row hrow
    obtain ⟨line, hline, rfl⟩ := List.mem_map.mp hrow
    rw [List.mem_cons, not_or]
    exact ⟨hc.symm, (hls line hline).1⟩
  have hopen : ∀ b, ∀ row ∈ openRows b, '\n' ∉ row := by
    intro b row hrow
    cases b with
    | false => exact absurd hrow List.not_mem_nil
    | true =>
        obtain rfl := List.mem_singleton.mp hrow
        decide
  intro row hrow
  unfold Hunk.rows at hrow
  simp only [List.mem_cons, List.mem_append] at hrow
  rcases hrow with rfl | hrow | hrow | hrow | hrow
  · exact htitle
  · exact hcontent (by decide) hh.removed row hrow
  · exact hopen _ row hrow
  · exact hcontent (by decide) hh.added row hrow
  · exact hopen _ row hrow

theorem Edit.IsPlain.headerTexts_oneLine {e : Edit} (he : e.IsPlain) :
    ∀ text ∈ e.headerTexts, '\n' ∉ text := by
  intro text htext
  unfold Edit.headerTexts at htext
  rcases List.mem_append.mp htext with htext | htext
  · rcases List.mem_append.mp htext with hmode | hindex
    · exact he.modes text hmode
    · exact he.index text (Option.mem_toList.mp hindex)
  · obtain rfl := List.mem_singleton.mp htext
    unfold Edit.sidePath
    rw [List.mem_append, not_or]
    refine ⟨he.path_line, ?_⟩
    split <;> decide

theorem Edit.IsPlain.header_oneLine {e : Edit} (he : e.IsPlain) :
    ∀ row ∈ e.header, '\n' ∉ row := by
  have hmissing : ∀ row ∈ missingSides, '\n' ∉ row := by decide
  have hwords : ∀ front ∈ headerWords, '\n' ∉ front := by decide
  intro row hrow
  rcases Edit.mem_header hrow with hrow | ⟨front, hfront, text, htext, rfl⟩
  · exact hmissing row hrow
  · rw [List.mem_append, not_or]
    exact ⟨hwords front hfront, he.headerTexts_oneLine text htext⟩

theorem Edit.IsPlain.oneLine {e : Edit} (he : e.IsPlain) :
    ∀ row ∈ e.title :: e.body, '\n' ∉ row := by
  intro row hrow
  rcases List.mem_cons.mp hrow with rfl | hrow
  · unfold Edit.title
    have hwords : '\n' ∉ "diff --git ".toList ∧ '\n' ∉ "a/".toList ∧ '\n' ∉ " b/".toList := by
      decide
    simp only [List.mem_append, not_or]
    exact ⟨hwords.1, ⟨hwords.2.1, he.path_line⟩, hwords.2.2, he.path_line⟩
  · rcases List.mem_append.mp hrow with hrow | hrow
    · exact he.header_oneLine row hrow
    · obtain ⟨h, hh, hrow⟩ := List.mem_flatMap.mp hrow
      exact (he.hunks h hh).oneLine row hrow

/-! ## The lines of a patch -/

/-- A hunk whose tail has lost a carriage return. -/
def Hunk.trimmed (h : Hunk) : Hunk := { h with tail := dropReturn h.tail }

/-- The fate of a file whose modes have lost their carriage returns. -/
def Fate.trimmed : Fate → Fate
  | .modified modes => .modified (modes.map fun (old, new) => (dropReturn old, dropReturn new))
  | .added mode => .added (dropReturn mode)
  | .deleted mode => .deleted (dropReturn mode)

/-- A change that was read line by line. -/
def Edit.trimmed (e : Edit) : Edit :=
  { e with
    fate := e.fate.trimmed
    index := e.index.map dropReturn
    hunks := e.hunks.map Hunk.trimmed }

theorem dropReturn_self {line : Line} (h : line.getLast? ≠ some '\r') : dropReturn line = line := by
  unfold dropReturn
  rw [if_neg h]

theorem Hunk.IsPlain.rows_trimmed {h : Hunk} (hh : h.IsPlain) :
    h.rows.map dropReturn = h.trimmed.rows := by
  have hcontent : ∀ {c : Char} {ls : List Line}, c ≠ '\r' →
      (∀ line ∈ ls, '\n' ∉ line ∧ line.getLast? ≠ some '\r') →
      (ls.map (c :: ·)).map dropReturn = ls.map (c :: ·) := by
    intro c ls hc hls
    rw [List.map_map]
    apply List.map_congr_left
    intro line hline
    apply dropReturn_self
    rw [List.getLast?_cons]
    cases hlast : line.getLast? with
    | none => simpa using hc
    | some d =>
        rw [← hlast]
        have hd := (hls line hline).2
        rw [hlast] at hd ⊢
        exact hd
  have hopen : ∀ b, (openRows b).map dropReturn = openRows b := by
    intro b
    cases b with
    | false => rfl
    | true => rfl
  have htitle : dropReturn h.title = h.trimmed.title := by
    -- the tail stands behind an at sign
    have hfront : ∀ a b : List Char, (a ++ (b ++ " @@".toList)).getLast? ≠ some '\r' := by
      intro a b
      rw [← List.append_assoc, List.getLast?_append]
      simp
    have hsplit : ∀ tail : Line, "@@ -".toList ++ (rangeText h.oldStart h.oldCount ++
        (" +".toList ++ (rangeText h.start h.added.length ++ (" @@".toList ++ tail)))) =
          ("@@ -".toList ++ ((rangeText h.oldStart h.oldCount ++ (" +".toList ++
            rangeText h.start h.added.length)) ++ " @@".toList)) ++ tail := by
      intro tail
      simp only [List.append_assoc]
    unfold Hunk.title
    rw [hsplit, dropReturn_append (hfront _ _), ← hsplit]
    rfl
  unfold Hunk.rows
  rw [List.map_cons, List.map_append, List.map_append, List.map_append, htitle,
    hcontent (by decide) hh.removed, hcontent (by decide) hh.added, hopen, hopen]
  rfl

theorem Fate.rows_trimmed (fate : Fate) : fate.rows.map dropReturn = fate.trimmed.rows := by
  match fate with
  | .modified none => rfl
  | .modified (some (old, new)) =>
      show [dropReturn ("old mode ".toList ++ old), dropReturn ("new mode ".toList ++ new)] = _
      rw [dropReturn_append (by decide), dropReturn_append (by decide)]
      rfl
  | .added mode =>
      show [dropReturn ("new file mode ".toList ++ mode)] = _
      rw [dropReturn_append (by decide)]
      rfl
  | .deleted mode =>
      show [dropReturn ("deleted file mode ".toList ++ mode)] = _
      rw [dropReturn_append (by decide)]
      rfl

theorem Edit.IsPlain.path_getLast {e : Edit} (he : e.IsPlain) :
    ∃ c, e.path.getLast? = some c ∧ isBlank c = false := by
  cases hlast : e.path.getLast? with
  | none => exact absurd (List.getLast?_eq_none_iff.mp hlast) he.path_ne
  | some c => exact ⟨c, rfl, he.path_last c hlast⟩

/-- A row that ends in the path, perhaps with a tab, ends in no carriage return. -/
theorem Edit.IsPlain.row_end {e : Edit} (he : e.IsPlain) (front : Line) :
    (front ++ e.path).getLast? ≠ some '\r' ∧ (front ++ e.sidePath).getLast? ≠ some '\r' := by
  obtain ⟨c, hlast, hc⟩ := he.path_getLast
  have hreturn : c ≠ '\r' := by
    rintro rfl
    exact absurd hc (by decide)
  have hpath : ∀ a : Line, (a ++ e.path).getLast? ≠ some '\r' := by
    intro a
    rw [List.getLast?_append, hlast]
    simpa using hreturn
  refine ⟨hpath front, ?_⟩
  unfold Edit.sidePath
  split
  · rw [← List.append_assoc, List.getLast?_concat]
    decide
  · rw [List.append_nil]
    exact hpath front

theorem Edit.IsPlain.header_trimmed {e : Edit} (he : e.IsPlain) :
    e.header.map dropReturn = e.trimmed.header := by
  have hindex : (e.index.toList.map ("index ".toList ++ ·)).map dropReturn =
      (e.index.map dropReturn).toList.map ("index ".toList ++ ·) := by
    cases e.index with
    | none => rfl
    | some text =>
        show [dropReturn ("index ".toList ++ text)] = _
        rw [dropReturn_append (by decide)]
        rfl
  have hsides : e.sideRows.map dropReturn = e.trimmed.sideRows := by
    have hkeep : ∀ front : Line, dropReturn (front ++ e.sidePath) = front ++ e.sidePath :=
      fun front => dropReturn_self (he.row_end front).2
    unfold Edit.sideRows
    show _ = match e.fate.trimmed with
      | .modified _ => ["--- a/".toList ++ e.sidePath, "+++ b/".toList ++ e.sidePath]
      | .added _ => ["--- /dev/null".toList, "+++ b/".toList ++ e.sidePath]
      | .deleted _ => ["--- a/".toList ++ e.sidePath, "+++ /dev/null".toList]
    cases e.fate with
    | modified modes =>
        show [dropReturn _, dropReturn _] = [_, _]
        rw [hkeep, hkeep]
    | added mode =>
        show [dropReturn _, dropReturn _] = [_, _]
        rw [hkeep, dropReturn_self (by decide)]
    | deleted mode =>
        show [dropReturn _, dropReturn _] = [_, _]
        rw [hkeep, dropReturn_self (by decide)]
  have hempty : e.trimmed.hunks.isEmpty = e.hunks.isEmpty := List.isEmpty_map
  unfold Edit.header
  rw [List.map_append, List.map_append, Fate.rows_trimmed, hindex, hempty]
  cases e.hunks.isEmpty with
  | true => rfl
  | false =>
      show _ ++ (_ ++ e.sideRows.map dropReturn) = _ ++ (_ ++ e.trimmed.sideRows)
      rw [hsides]
      rfl

/-- Reading line by line changes nothing in a written change but its carriage returns. -/
theorem Edit.IsPlain.rows_trimmed {e : Edit} (he : e.IsPlain) :
    (e.title :: e.body).map dropReturn = e.trimmed.title :: e.trimmed.body := by
  have htitle : dropReturn e.title = e.trimmed.title := by
    have hsplit : e.title =
        ("diff --git ".toList ++ (("a/".toList ++ e.path) ++ " b/".toList)) ++ e.path := by
      unfold Edit.title
      simp only [List.append_assoc]
    rw [dropReturn_self]
    · rfl
    · rw [hsplit]
      exact (he.row_end _).1
  have hhunks : (e.hunks.flatMap Hunk.rows).map dropReturn =
      (e.hunks.map Hunk.trimmed).flatMap Hunk.rows := by
    rw [List.map_flatMap, List.flatMap_map]
    apply List.flatMap_congr
    intro h hh
    exact (he.hunks h hh).rows_trimmed
  unfold Edit.body
  rw [List.map_cons, List.map_append, htitle, he.header_trimmed, hhunks]
  rfl

/-- **The lines of a patch are the rows that were written**, but for their carriage returns. -/
theorem lines_render {es : List Edit} (hes : ∀ e ∈ es, e.IsPlain) :
    Text.lines (render es) =
      (es.map Edit.trimmed).flatMap fun e => e.title :: e.body := by
  unfold render
  rw [lines_textOfRows, List.map_flatMap, List.flatMap_map]
  · apply List.flatMap_congr
    intro e he
    exact (hes e he).rows_trimmed
  · intro row hrow
    obtain ⟨e, he, hrow⟩ := List.mem_flatMap.mp hrow
    exact (hes e he).oneLine row hrow

end ChangeScope.Patch
