import ChangeScope.Proofs.Ordered
import ChangeScope.Proofs.Patch.Written

/-!
# Reading a written patch

The line that opens a hunk gives its range back (`hunkRange?_opening`), the rows of hunks their
touched lines and removed text (`touchedLines_hunks`, `removedText_hunks`), and the header of a
file its path and status (`heading_header`). So reading a patch undoes writing it
(`changes_render`).
-/

set_option autoImplicit false

namespace ChangeScope.Patch

open ChangeScope.Text

/-! ## The range of a hunk -/

/-- Only a line that begins with an at sign opens a hunk. -/
theorem hunkRange?_eq_none {line : Line} (h : line.head? ≠ some '@') : hunkRange? line = none := by
  have hstarts : "@@ -".toList.isPrefixOf? line = none := by
    apply isPrefixOf?_eq_none_iff.mpr
    rintro ⟨rest, rfl⟩
    exact h rfl
  unfold hunkRange?
  rw [hstarts]
  rfl

/-- The range of the new side, from its first word on. -/
theorem range_rangeText {start count : Nat} (hstart : start < 2 ^ 64) (hcount : count < 2 ^ 64) :
    (match splitOnce [','] (rangeText start count) with
      | some (first, length) => do
          let first ← natural? first
          let length ← natural? length
          some (first, length)
      | none => do
          let first ← natural? (rangeText start count)
          some (first, 1)) = some (start, count) := by
  have hcomma : ∀ n : Nat, ',' ∉ Nat.toDigits 10 n := by
    intro n hin
    exact absurd (isDigits_toDigits n ',' hin) (by decide)
  unfold rangeText
  by_cases hone : count = 1
  · rw [if_pos hone, splitOnce_eq_none (hcomma start), natural?_toDigits hstart, hone]
    rfl
  · rw [if_neg hone]
    show (match splitOnce [','] (Nat.toDigits 10 start ++ ([','] ++ Nat.toDigits 10 count)) with
      | some (first, length) => (natural? first).bind fun first =>
          (natural? length).bind fun length => some (first, length)
      | none => _) = _
    rw [splitOnce_append (hcomma start)]
    show ((natural? (Nat.toDigits 10 start)).bind fun first =>
      (natural? (Nat.toDigits 10 count)).bind fun length => some (first, length)) = _
    rw [natural?_toDigits hstart, natural?_toDigits hcount]
    rfl

/-- **The line that opens a hunk gives the range of the new side back**, whatever stands behind
it. -/
theorem hunkRange?_opening (oldStart oldCount : Nat) {start count : Nat} (hstart : start < 2 ^ 64)
    (hcount : count < 2 ^ 64) (tail : Line) :
    hunkRange? ("@@ -".toList ++ (rangeText oldStart oldCount ++ (" +".toList ++
      (rangeText start count ++ (" @@".toList ++ tail))))) = some (start, count) := by
  -- the old range holds no blank, so the new one stands behind the first plus sign after a blank
  have hold : ' ' ∉ rangeText oldStart oldCount := not_mem_rangeText (by decide) (by decide)
  have hsplit : splitOnce " +".toList (rangeText oldStart oldCount ++
      (" +".toList ++ (rangeText start count ++ (" @@".toList ++ tail)))) =
        some (rangeText oldStart oldCount, rangeText start count ++ (" @@".toList ++ tail)) :=
    splitOnce_append hold ['+'] _
  have hword : (words (rangeText start count ++ (" @@".toList ++ tail))).head? =
      some (rangeText start count) := by
    apply words_head
    · unfold rangeText
      split
      · exact Nat.toDigits_ne_nil
      · exact List.append_ne_nil_of_left_ne_nil Nat.toDigits_ne_nil _
    · intro c hc
      rcases mem_rangeText hc with hdigit | rfl
      · exact isBlank_of_digit hdigit
      · decide
    · decide
  unfold hunkRange?
  rw [isPrefixOf?_eq_some_iff.mpr rfl]
  show ((splitOnce " +".toList _).bind fun parts => _) = _
  rw [hsplit]
  show ((words _).head?.bind fun range => _) = _
  rw [hword]
  exact range_rangeText hstart hcount

theorem hunkRange?_title {h : Hunk} (hsmall : h.start + h.added.length ≤ 2 ^ 63) :
    hunkRange? h.title = some (h.start, h.added.length) :=
  hunkRange?_opening h.oldStart h.oldCount (by omega) (by omega) h.tail

/-! ## The rows of hunks -/

/-- The touched lines of a hunk, in order. -/
def Hunk.touched (h : Hunk) : List Nat :=
  if h.added = [] then [max h.start 1] else List.range' h.start h.added.length

theorem touchedLines_cons (next : Nat) (line : Line) (rest : List Line) :
    touchedLines next (line :: rest) =
      match hunkRange? line with
      | some (start, 0) => max start 1 :: touchedLines start rest
      | some (start, _ + 1) => touchedLines start rest
      | none =>
          match line with
          | '+' :: _ => next :: touchedLines (nextLine next) rest
          | ' ' :: _ => touchedLines (nextLine next) rest
          | _ => touchedLines next rest := rfl

theorem touchedLines_skip {next : Nat} {row : Line} (rest : List Line)
    (hrow : row.head? = some '-' ∨ row.head? = some '\\') :
    touchedLines next (row :: rest) = touchedLines next rest := by
  have hrange : hunkRange? row = none := by
    apply hunkRange?_eq_none
    rcases hrow with hc | hc
    · rw [hc]
      decide
    · rw [hc]
      decide
  rw [touchedLines_cons, hrange]
  cases row with
  | nil => rcases hrow with hc | hc <;> exact absurd hc (by simp)
  | cons c text =>
      rcases hrow with hc | hc
      · obtain rfl : c = '-' := Option.some.inj hc
        rfl
      · obtain rfl : c = '\\' := Option.some.inj hc
        rfl

theorem touchedLines_removed (next : Nat) (lines rest : List Line) :
    touchedLines next (lines.map ('-' :: ·) ++ rest) = touchedLines next rest := by
  induction lines with
  | nil => rfl
  | cons line lines ih =>
      rw [List.map_cons, List.cons_append, touchedLines_skip _ (Or.inl rfl), ih]

theorem touchedLines_open (next : Nat) (isOpen : Bool) (rest : List Line) :
    touchedLines next (openRows isOpen ++ rest) = touchedLines next rest := by
  cases isOpen with
  | false => rfl
  | true => exact touchedLines_skip rest (Or.inr rfl)

/-- Added lines touch one line each, as long as their numbers are small. -/
theorem touchedLines_added {next : Nat} {lines : List Line} (h : next + lines.length ≤ 2 ^ 63)
    (rest : List Line) : touchedLines next (lines.map ('+' :: ·) ++ rest) =
      List.range' next lines.length ++ touchedLines (next + lines.length) rest := by
  induction lines generalizing next with
  | nil => rfl
  | cons line lines ih =>
      rw [List.length_cons] at h
      have hnext : nextLine next = next + 1 := by
        unfold nextLine
        omega
      have hrange : hunkRange? ('+' :: line) = none := by
        apply hunkRange?_eq_none
        simp
      calc touchedLines next (('+' :: line) :: (lines.map ('+' :: ·) ++ rest))
          = next :: touchedLines (nextLine next) (lines.map ('+' :: ·) ++ rest) := by
            rw [touchedLines_cons, hrange]
            rfl
        _ = next :: (List.range' (next + 1) lines.length ++
              touchedLines (next + 1 + lines.length) rest) := by
            rw [hnext, ih (by omega)]
        _ = List.range' next (lines.length + 1) ++
              touchedLines (next + (lines.length + 1)) rest := by
            rw [List.range'_succ, List.cons_append, Nat.add_right_comm, Nat.add_assoc]

/-- The rows of a hunk touch its lines, whatever came before. -/
theorem touchedLines_hunk {h : Hunk} (hsmall : h.start + h.added.length ≤ 2 ^ 63) (next : Nat)
    (rest : List Line) :
    ∃ later, touchedLines next (h.rows ++ rest) = h.touched ++ touchedLines later rest := by
  have hbelow : ∀ n, touchedLines n (h.removed.map ('-' :: ·) ++ (openRows h.removedOpen ++
      (h.added.map ('+' :: ·) ++ (openRows h.addedOpen ++ rest)))) =
        touchedLines n (h.added.map ('+' :: ·) ++ (openRows h.addedOpen ++ rest)) := by
    intro n
    rw [touchedLines_removed, touchedLines_open]
  have hrows : h.rows ++ rest = h.title :: (h.removed.map ('-' :: ·) ++
      (openRows h.removedOpen ++ (h.added.map ('+' :: ·) ++ (openRows h.addedOpen ++ rest)))) := by
    unfold Hunk.rows
    simp only [List.cons_append, List.append_assoc]
  refine ⟨h.start + h.added.length, ?_⟩
  rw [hrows, touchedLines_cons, hunkRange?_title hsmall]
  unfold Hunk.touched
  by_cases hempty : h.added = []
  · -- without added lines the place counts
    rw [if_pos hempty, hempty]
    show max h.start 1 :: touchedLines h.start _ = _
    rw [hempty] at hbelow
    rw [hbelow, List.map_nil, List.nil_append, touchedLines_open]
    rfl
  · rw [if_neg hempty]
    obtain ⟨count, hcount⟩ : ∃ count, h.added.length = count + 1 :=
      ⟨h.added.length - 1, by have := List.length_pos_iff_ne_nil.mpr hempty; omega⟩
    rw [hcount]
    show touchedLines h.start _ = _
    rw [hbelow, touchedLines_added hsmall, touchedLines_open, hcount]

/-- **The rows of hunks touch the lines of the hunks.** -/
theorem touchedLines_hunks {hunks : List Hunk}
    (h : ∀ hunk ∈ hunks, hunk.start + hunk.added.length ≤ 2 ^ 63) (next : Nat) :
    touchedLines next (hunks.flatMap Hunk.rows) = hunks.flatMap Hunk.touched := by
  induction hunks generalizing next with
  | nil => rfl
  | cons hunk hunks ih =>
      have hrest := ih fun other hother => h other (List.mem_cons_of_mem hunk hother)
      obtain ⟨later, hlater⟩ := touchedLines_hunk (h hunk List.mem_cons_self) next
        (hunks.flatMap Hunk.rows)
      rw [List.flatMap_cons, List.flatMap_cons, hlater, hrest]

theorem removedText_append (a b : List Line) :
    removedText (a ++ b) = removedText a ++ removedText b := List.flatMap_append

/-- The removed text of the rows of a hunk. -/
theorem removedText_hunk (h : Hunk) : removedText h.rows = textOfRows h.removed := by
  have hremoved : ∀ lines : List Line,
      removedText (lines.map ('-' :: ·)) = textOfRows lines := by
    intro lines
    unfold removedText textOfRows
    rw [List.flatMap_map]
    rfl
  have hadded : ∀ lines : List Line, removedText (lines.map ('+' :: ·)) = [] := by
    intro lines
    unfold removedText
    rw [List.flatMap_map]
    exact List.flatMap_eq_nil_iff.mpr fun line _ => rfl
  have hopen : ∀ b, removedText (openRows b) = [] := by
    intro b
    cases b with
    | false => rfl
    | true => rfl
  have htitle : ∀ rest : List Line, removedText (h.title :: rest) = removedText rest :=
    fun rest => rfl
  unfold Hunk.rows
  rw [htitle, removedText_append, removedText_append, removedText_append, hremoved, hadded, hopen,
    hopen, List.append_nil, List.append_nil, List.append_nil]

theorem removedText_hunks (hunks : List Hunk) :
    removedText (hunks.flatMap Hunk.rows) = hunks.flatMap fun h => textOfRows h.removed := by
  induction hunks with
  | nil => rfl
  | cons hunk hunks ih =>
      rw [List.flatMap_cons, List.flatMap_cons, removedText_append, removedText_hunk, ih]

/-! ## The header of a file -/

/-- The last ` b/` of a title stands before the path. -/
theorem titlePath_title {e : Edit} (he : ¬ " b/".toList <:+: e.path) :
    titlePath e.title = e.path := by
  have hlast : ¬ " b/".toList <:+: 'b' :: '/' :: e.path := by
    intro hin
    rcases List.infix_cons_iff.mp hin with hstarts | hin
    · exact absurd (List.cons_prefix_cons.mp hstarts).1 (by decide)
    · rcases List.infix_cons_iff.mp hin with hstarts | hin
      · exact absurd (List.cons_prefix_cons.mp hstarts).1 (by decide)
      · exact he hin
  have hsplit : splitLast " b/".toList (("a/".toList ++ e.path) ++ (" b/".toList ++ e.path)) =
      some ("a/".toList ++ e.path, e.path) := splitLast_append hlast _
  unfold titlePath
  show (match splitLast " b/".toList (("a/".toList ++ e.path) ++ (" b/".toList ++ e.path)) with
    | some (_, path) => path
    | none => []) = e.path
  rw [hsplit]

/-- The name of a side gives the path back. -/
theorem Edit.trimEnd_sidePath {e : Edit} (hne : e.path ≠ [])
    (hlast : ∀ c, e.path.getLast? = some c → isBlank c = false) : trimEnd e.sidePath = e.path := by
  obtain ⟨c, hc⟩ : ∃ c, e.path.getLast? = some c := by
    cases hc : e.path.getLast? with
    | none => exact absurd (List.getLast?_eq_none_iff.mp hc) hne
    | some c => exact ⟨c, rfl⟩
  have htab : ∀ d ∈ (if ' ' ∈ e.path then ['\t'] else []), isBlank d = true := by
    intro d hd
    split at hd
    · obtain rfl := List.mem_singleton.mp hd
      decide
    · exact absurd hd List.not_mem_nil
  calc trimEnd e.sidePath
      = dropTrailing isBlank e.path := dropTrailing_append htab e.path
    _ = e.path := dropTrailing_self hc (hlast c hc)

/-- A row that begins otherwise than those of modes and sides leaves the heading as it is. -/
theorem Heading.read_index (heading : Heading) (text : Line) :
    heading.read ("index ".toList ++ text) = heading := rfl

theorem Heading.read_oldSide {heading : Heading} (hpath : heading.path ≠ []) (text : Line) :
    heading.read ("--- a/".toList ++ text) = heading := by
  obtain ⟨path, status⟩ := heading
  obtain ⟨c, rest, rfl⟩ := List.exists_cons_of_ne_nil hpath
  rfl

theorem Heading.read_newSide (heading : Heading) (text : Line) :
    heading.read ("+++ b/".toList ++ text) = { heading with path := trimEnd text } := rfl

theorem foldl_fateRows (fate : Fate) (path : List Char) :
    fate.rows.foldl Heading.read ⟨path, .modified⟩ = ⟨path, fate.status⟩ := by
  match fate with
  | .modified none => rfl
  | .modified (some (old, new)) => rfl
  | .added mode => rfl
  | .deleted mode => rfl

theorem foldl_sideRows {e : Edit} (hne : e.path ≠ [])
    (hlast : ∀ c, e.path.getLast? = some c → isBlank c = false) (status : Status) :
    e.sideRows.foldl Heading.read ⟨e.path, status⟩ = ⟨e.path, status⟩ := by
  have htrim := e.trimEnd_sidePath hne hlast
  have hnew : Heading.read ⟨e.path, status⟩ ("+++ b/".toList ++ e.sidePath) =
      ⟨e.path, status⟩ := by
    rw [Heading.read_newSide, htrim]
  have hold : Heading.read ⟨e.path, status⟩ ("--- a/".toList ++ e.sidePath) = ⟨e.path, status⟩ :=
    Heading.read_oldSide hne _
  unfold Edit.sideRows
  cases e.fate with
  | modified modes =>
      show ["--- a/".toList ++ e.sidePath, "+++ b/".toList ++ e.sidePath].foldl Heading.read
        ⟨e.path, status⟩ = ⟨e.path, status⟩
      rw [List.foldl_cons, List.foldl_cons, hold, hnew]
      rfl
  | added mode =>
      show ["--- /dev/null".toList, "+++ b/".toList ++ e.sidePath].foldl Heading.read
        ⟨e.path, status⟩ = ⟨e.path, status⟩
      rw [List.foldl_cons, List.foldl_cons]
      exact hnew
  | deleted mode =>
      show ["--- a/".toList ++ e.sidePath, "+++ /dev/null".toList].foldl Heading.read
        ⟨e.path, status⟩ = ⟨e.path, status⟩
      rw [List.foldl_cons, List.foldl_cons, hold]
      rfl

/-- A row with the blobs tells nothing. -/
theorem foldl_indexRow (heading : Heading) (index : Option Line) :
    (index.toList.map ("index ".toList ++ ·)).foldl Heading.read heading = heading := by
  cases index with
  | none => rfl
  | some text => exact Heading.read_index heading text

/-- **The header of a file gives its path and status back.** -/
theorem heading_header {e : Edit} (hne : e.path ≠ [])
    (hlast : ∀ c, e.path.getLast? = some c → isBlank c = false) :
    e.header.foldl Heading.read ⟨e.path, .modified⟩ = ⟨e.path, e.fate.status⟩ := by
  unfold Edit.header
  rw [List.foldl_append, List.foldl_append, foldl_fateRows, foldl_indexRow]
  split
  · rfl
  · exact foldl_sideRows hne hlast e.fate.status

/-- No row of a header opens a hunk or a file. -/
theorem Edit.header_plain (e : Edit) :
    ∀ row ∈ e.header, hunkRange? row = none ∧ isFileLine row = false := by
  have hmissing : ∀ row ∈ missingSides, hunkRange? row = none ∧ isFileLine row = false := by
    intro row hrow
    rcases List.mem_pair.mp hrow with rfl | rfl <;> exact ⟨rfl, rfl⟩
  have hwords : ∀ front ∈ headerWords, ∀ text : Line,
      hunkRange? (front ++ text) = none ∧ isFileLine (front ++ text) = false := by
    intro front hfront text
    simp only [headerWords, List.mem_cons, List.not_mem_nil, or_false] at hfront
    rcases hfront with rfl | rfl | rfl | rfl | rfl | rfl | rfl <;> exact ⟨rfl, rfl⟩
  intro row hrow
  rcases Edit.mem_header hrow with hrow | ⟨front, hfront, text, -, rfl⟩
  · exact hmissing row hrow
  · exact hwords front hfront text

/-- No row of a hunk opens a file, whatever its lines look like. -/
theorem Hunk.rows_plain (h : Hunk) : ∀ row ∈ h.rows, isFileLine row = false := by
  intro row hrow
  unfold Hunk.rows at hrow
  simp only [List.mem_cons, List.mem_append, List.mem_map] at hrow
  have hopen : ∀ b, row ∈ openRows b → isFileLine row = false := by
    intro b hin
    cases b with
    | false => exact absurd hin List.not_mem_nil
    | true =>
        obtain rfl := List.mem_singleton.mp hin
        rfl
  rcases hrow with rfl | ⟨line, -, rfl⟩ | hin | ⟨line, -, rfl⟩ | hin
  · rfl
  · rfl
  · exact hopen _ hin
  · rfl
  · exact hopen _ hin

/-! ## The change of a file -/

/-- A hunk touches its added lines; without any it touches the line at which it takes place. -/
def Hunk.Touches (h : Hunk) (n : Nat) : Prop :=
  if h.added = [] then n = max h.start 1 else h.start ≤ n ∧ n < h.start + h.added.length

theorem Hunk.mem_touched {h : Hunk} {n : Nat} : n ∈ h.touched ↔ h.Touches n := by
  unfold Hunk.touched Hunk.Touches
  split
  · exact List.mem_singleton
  · exact List.mem_range'_1

/-- The change that was read is the one that was written. -/
structure Describes (e : Edit) (c : FileChange) : Prop where
  path : c.path = ⟨String.ofList e.path⟩
  status : c.status = e.fate.status
  /-- The touched lines are a set, written in increasing order. -/
  increasing : c.lines.Pairwise (· < ·)
  lines : ∀ n, n ∈ c.lines ↔ e.fate.status ≠ .deleted ∧ ∃ h ∈ e.hunks, h.Touches n
  removed : c.removed = e.hunks.flatMap fun h => textOfRows h.removed

/-- Where groups of rows are put together, the first of all rows is the first one of a group. -/
theorem exists_of_head?_flatMap {α β : Type} {rows : α → List β} {groups : List α} (first : α → β)
    (hrows : ∀ group, (rows group).head? = some (first group)) {row : β}
    (h : (groups.flatMap rows).head? = some row) : ∃ group ∈ groups, first group = row := by
  cases groups with
  | nil => exact absurd h (by simp)
  | cons group others =>
      rw [List.flatMap_cons, List.head?_append, hrows, Option.some_or] at h
      exact ⟨group, List.mem_cons_self, Option.some.inj h⟩

/-- What a section says that was written for a change. -/
theorem ofSection_edit {e : Edit} (hne : e.path ≠ []) (hside : ¬ " b/".toList <:+: e.path)
    (hlast : ∀ c, e.path.getLast? = some c → isBlank c = false)
    (hsmall : ∀ h ∈ e.hunks, h.start + h.added.length ≤ 2 ^ 63) :
    FileChange.ofSection e.title e.body =
      { path := ⟨String.ofList e.path⟩
        status := e.fate.status
        lines := if e.fate.status = .deleted then []
          else OrderedSet.ofList (e.hunks.flatMap Hunk.touched)
        removed := e.hunks.flatMap fun h => textOfRows h.removed } := by
  have hheader : ∀ row ∈ e.header, (hunkRange? row).isNone = true := by
    intro row hrow
    rw [(e.header_plain row hrow).1]
    rfl
  have hfirst : ∀ row, (e.hunks.flatMap Hunk.rows).head? = some row →
      (hunkRange? row).isNone = false := by
    intro row hrow
    obtain ⟨h, hh, rfl⟩ := exists_of_head?_flatMap Hunk.title (fun _ => rfl) hrow
    rw [hunkRange?_title (hsmall h hh)]
    rfl
  have hspan : e.body.span (fun line => (hunkRange? line).isNone) =
      (e.header, e.hunks.flatMap Hunk.rows) := span_stretch hheader hfirst
  unfold FileChange.ofSection
  rw [hspan, titlePath_title hside]
  show FileChange.mk _ _ _ _ = _
  rw [heading_header hne hlast, touchedLines_hunks hsmall, removedText_hunks]

theorem describes_section {e : Edit} (he : e.IsPlain) :
    Describes e (FileChange.ofSection e.trimmed.title e.trimmed.body) := by
  -- only texts behind the first words of a row are trimmed
  have hstatus : e.trimmed.fate.status = e.fate.status := by
    unfold Edit.trimmed
    cases e.fate <;> rfl
  have hsmall : ∀ h ∈ e.trimmed.hunks, h.start + h.added.length ≤ 2 ^ 63 := by
    intro h hh
    obtain ⟨h', hh', rfl⟩ := List.mem_map.mp hh
    exact (he.hunks h' hh').small
  have htouched : e.trimmed.hunks.flatMap Hunk.touched = e.hunks.flatMap Hunk.touched :=
    List.flatMap_map _ _ _
  have hremoved : (e.trimmed.hunks.flatMap fun h => textOfRows h.removed) =
      e.hunks.flatMap fun h => textOfRows h.removed := List.flatMap_map _ _ _
  have hsection := ofSection_edit (e := e.trimmed) he.path_ne he.path_side he.path_last hsmall
  rw [hsection, hstatus, htouched, hremoved]
  refine ⟨rfl, rfl, ?_, fun n => ?_, rfl⟩
  · show (if e.fate.status = .deleted then [] else _ : LineSet).Pairwise (· < ·)
    split
    · exact .nil
    · exact OrderedSet.ofList_increasing _
  · show n ∈ (if e.fate.status = .deleted then [] else _ : LineSet) ↔ _
    split
    · next hdeleted =>
        constructor
        · intro hn
          exact absurd hn List.not_mem_nil
        · rintro ⟨halive, -⟩
          exact absurd hdeleted halive
    · next halive =>
        rw [OrderedSet.mem_ofList, List.mem_flatMap]
        constructor
        · rintro ⟨h, hh, hn⟩
          exact ⟨halive, h, hh, Hunk.mem_touched.mp hn⟩
        · rintro ⟨-, h, hh, hn⟩
          exact ⟨h, hh, Hunk.mem_touched.mpr hn⟩

/-- **Reading a patch undoes writing it.** -/
theorem changes_render {es : List Edit} (hes : ∀ e ∈ es, e.IsPlain) :
    List.Forall₂ Describes es (changes (render es)) := by
  have hgroups : ((es.map Edit.trimmed).flatMap fun e => e.title :: e.body) =
      (es.map fun e => (e.trimmed.title, e.trimmed.body)).flatMap fun g => g.1 :: g.2 := by
    rw [List.flatMap_map, List.flatMap_map]
  have hcut : cutBefore isFileLine (Text.lines (render es)) =
      ([], es.map fun e => (e.trimmed.title, e.trimmed.body)) := by
    rw [lines_render hes, hgroups]
    apply cutBefore_groups
    intro g hg
    obtain ⟨e, -, rfl⟩ := List.mem_map.mp hg
    refine ⟨rfl, fun row hrow => ?_⟩
    -- contents that look like a title stand behind a sign
    rcases List.mem_append.mp hrow with hrow | hrow
    · exact (e.trimmed.header_plain row hrow).2
    · obtain ⟨h, -, hrow⟩ := List.mem_flatMap.mp hrow
      exact h.rows_plain row hrow
  have hchanges : changes (render es) =
      es.map fun e => FileChange.ofSection e.trimmed.title e.trimmed.body := by
    unfold changes
    rw [hcut, List.map_map]
    rfl
  rw [hchanges, List.forall₂_map_right_iff, List.forall₂_same]
  exact fun e he => describes_section (hes e he)

/-- A hunk whose lines look like the headers of a patch. -/
def disguisedHunk : Hunk :=
  { oldStart := 3
    oldCount := 1
    removed := ["-- a/other.py".toList]
    start := 3
    added := ["++ b/other.py".toList, "diff --git a/x b/x".toList]
    tail := " def f(a +b): @@ -1 +9 @@\r".toList
    removedOpen := true
    addedOpen := false }

/-- A changed file, one that is gone, and an empty new one. -/
def disguisedEdits : List Edit :=
  [{ path := "my file.py".toList, fate := .modified (some ("100644".toList, "100755".toList)),
     index := some "3f2a..9c1b".toList, hunks := [disguisedHunk] },
   { path := "gone.py".toList, fate := .deleted "100644".toList, index := none,
     hunks := [{ disguisedHunk with start := 0, added := [] }] },
   { path := "new.py".toList, fate := .added "100644".toList, index := none, hunks := [] }]

theorem disguisedEdits_plain : ∀ e ∈ disguisedEdits, e.IsPlain := by
  intro e he
  have hhunk : disguisedHunk.IsPlain := ⟨by decide, by decide, by decide, by decide⟩
  simp only [disguisedEdits, List.mem_cons, List.not_mem_nil, or_false] at he
  rcases he with rfl | rfl | rfl
  · refine ⟨by decide, by decide, by decide, ?_, by decide, ?_, ?_⟩
    · rintro c ⟨⟩
      decide
    · rintro text ⟨⟩
      decide
    · intro h hh
      obtain rfl := List.mem_singleton.mp hh
      exact hhunk
  · refine ⟨by decide, by decide, by decide, ?_, by decide, ?_, ?_⟩
    · rintro c ⟨⟩
      decide
    · rintro text ⟨⟩
    · intro h hh
      obtain rfl := List.mem_singleton.mp hh
      exact ⟨by decide, by decide, by decide, by decide⟩
  · refine ⟨by decide, by decide, by decide, ?_, by decide, ?_, ?_⟩
    · rintro c ⟨⟩
      decide
    · rintro text ⟨⟩
    · intro h hh
      exact absurd hh List.not_mem_nil

theorem changes_render_disguised :
    (∀ e ∈ disguisedEdits, e.IsPlain) ∧
      List.Forall₂ Describes disguisedEdits (changes (render disguisedEdits)) :=
  ⟨disguisedEdits_plain, changes_render disguisedEdits_plain⟩

end ChangeScope.Patch
