import ChangeScope.Proofs.Text.Fields

/-!
# Counting lines

A text has a line for each of its line feeds, and one more for what follows the last of them. So a
character lies on a line of the text, whose number the line feeds before it tell
(`count_lt_length_lines`). The lines of a text are built up character by character
(`lines_newline`, `lines_cons`). Where carriage returns only end lines, no line holds one
(`EndsLines.not_mem`).
-/

set_option autoImplicit false

namespace ChangeScope.Text

theorem length_rows (cs : List Char) : (rows cs).length = cs.count '\n' + 1 := by
  unfold rows
  induction cs with
  | nil => rfl
  | cons c rest ih =>
      obtain ⟨field, others, hrest, hcons⟩ := fields_cons (p := (· == '\n')) c rest
      rw [hrest, List.length_cons] at ih
      rw [hcons, List.count_cons]
      split <;> simp only [List.length_cons] <;> omega

theorem length_linesOfRows_le (rs : List (List Char)) : (linesOfRows rs).length ≤ rs.length := by
  induction rs with
  | nil => exact Nat.le_refl 0
  | cons row others ih =>
      cases others with
      | nil =>
          rw [linesOfRows]
          split <;> simp
      | cons next others =>
          rw [linesOfRows, List.length_cons, List.length_cons]
          · omega
          · intro hnil
            exact absurd hnil (List.cons_ne_nil next others)

theorem linesOfRows_cons {row : List Char} {others : List (List Char)} (h : others ≠ []) :
    linesOfRows (row :: others) = dropReturn row :: linesOfRows others := by
  rw [linesOfRows]
  exact h

/-- A row that ends is a line. -/
theorem lines_append_newline {row : List Char} (h : '\n' ∉ row) (rest : List Char) :
    lines (row ++ '\n' :: rest) = dropReturn row :: lines rest := by
  have hplain : ∀ c ∈ row, (c == '\n') = false := by
    intro c hc
    rw [beq_eq_false_iff_ne]
    exact ne_of_mem_of_not_mem hc h
  unfold lines rows
  rw [fields_append rfl, fields_plain hplain, List.singleton_append,
    linesOfRows_cons (fields_ne_nil _ _)]

theorem lines_newline (cs : List Char) : lines ('\n' :: cs) = [] :: lines cs :=
  lines_append_newline List.not_mem_nil cs

/-- A character that ends no line comes to the first one. -/
theorem lines_cons {c : Char} (hfeed : c ≠ '\n') (hreturn : c ≠ '\r') (rest : List Char) :
    lines (c :: rest) = (c :: (lines rest).headD []) :: (lines rest).tail := by
  obtain ⟨first, others, hrows, hcons⟩ := fields_cons (p := (· == '\n')) c rest
  rw [if_neg (by simpa using hfeed)] at hcons
  unfold lines rows
  rw [hcons, hrows]
  by_cases hothers : others = []
  · -- the last row is a line only if it is not empty, and behind the character it is one
    subst hothers
    cases first <;> rfl
  · have hc : [c].getLast? ≠ some '\r' := by simpa using hreturn
    rw [linesOfRows_cons hothers, linesOfRows_cons hothers]
    exact congrArg (· :: _) (dropReturn_append hc first)

/-- A further character makes at least one line, and none less than there were. -/
theorem length_lines_le_cons (c : Char) (cs : List Char) :
    (lines cs).length ≤ (lines (c :: cs)).length ∧ 0 < (lines (c :: cs)).length := by
  by_cases hc : c = '\n'
  · subst hc
    rw [lines_newline, List.length_cons]
    omega
  · obtain ⟨field, others, hrest, hcons⟩ := fields_cons (p := (· == '\n')) c cs
    unfold lines rows
    rw [hcons, hrest, if_neg (by simpa using hc)]
    cases others with
    | nil =>
        rw [linesOfRows, linesOfRows]
        split <;> simp
    | cons next others =>
        rw [linesOfRows_cons (List.cons_ne_nil _ _), linesOfRows_cons (List.cons_ne_nil _ _)]
        simp

/-- The lines of an end of a text come after the line feeds before it. -/
theorem count_add_length_lines_le (a b : List Char) :
    a.count '\n' + (lines b).length ≤ (lines (a ++ b)).length := by
  induction a with
  | nil => simp
  | cons c a ih =>
      rw [List.cons_append, List.count_cons]
      by_cases hc : c = '\n'
      · subst hc
        rw [lines_newline, List.length_cons]
        simp only [beq_self_eq_true, if_true]
        omega
      · have hle := (length_lines_le_cons c (a ++ b)).1
        rw [if_neg (by simpa using hc)]
        omega

/-- **Every character lies on a line of the text.** -/
theorem count_lt_length_lines (a : List Char) (c : Char) (b : List Char) :
    a.count '\n' < (lines (a ++ c :: b)).length := by
  have hle := count_add_length_lines_le a (c :: b)
  have hpos := (length_lines_le_cons c b).2
  omega

theorem lines_ne_nil {cs : List Char} (h : cs ≠ []) : lines cs ≠ [] := by
  obtain ⟨c, rest, rfl⟩ := List.exists_cons_of_ne_nil h
  exact List.length_pos_iff.mp (length_lines_le_cons c rest).2

/-! ## Characters of lines -/

theorem dropReturn_subset (row : List Char) : dropReturn row ⊆ row := by
  unfold dropReturn
  split
  · exact List.dropLast_subset row
  · exact List.Subset.refl row

/-- A line comes from a row. -/
theorem exists_row_of_mem_linesOfRows {rs : List (List Char)} {line : List Char}
    (h : line ∈ linesOfRows rs) : ∃ row ∈ rs, line ⊆ row := by
  induction rs with
  | nil => exact absurd h List.not_mem_nil
  | cons row others ih =>
      by_cases hothers : others = []
      · subst hothers
        rw [linesOfRows] at h
        split at h
        · exact absurd h List.not_mem_nil
        · exact ⟨row, List.mem_cons_self, List.mem_singleton.mp h ▸ List.Subset.refl row⟩
      · rw [linesOfRows_cons hothers] at h
        rcases List.mem_cons.mp h with rfl | h
        · exact ⟨row, List.mem_cons_self, dropReturn_subset row⟩
        · obtain ⟨found, hfound, hsub⟩ := ih h
          exact ⟨found, List.mem_cons_of_mem row hfound, hsub⟩

/-- A line has the characters of the text but for line feeds. -/
theorem of_mem_lines {cs line : List Char} (h : line ∈ lines cs) {c : Char} (hc : c ∈ line) :
    c ∈ cs ∧ c ≠ '\n' := by
  obtain ⟨row, hmem, hsub⟩ := exists_row_of_mem_linesOfRows h
  obtain ⟨hin, hne⟩ := of_mem_field hmem (hsub hc)
  exact ⟨hin, by simpa using hne⟩

/-- Every carriage return stands right before a line feed. -/
def EndsLines (cs : List Char) : Prop := ∀ a b, cs = a ++ '\r' :: b → b.head? = some '\n'

theorem endsLines_iff {cs : List Char} :
    EndsLines cs ↔ ∀ s ∈ cs.tails, s.head? = some '\r' → s.tail.head? = some '\n' := by
  constructor
  · intro h s hs hreturn
    obtain ⟨rest, rfl⟩ := List.head?_eq_some_iff.mp hreturn
    obtain ⟨front, heq⟩ := (List.mem_tails _ _).mp hs
    exact h front rest heq.symm
  · rintro h a b rfl
    exact h ('\r' :: b) ((List.mem_tails _ _).mpr (List.suffix_append a _)) rfl

instance (cs : List Char) : Decidable (EndsLines cs) := decidable_of_iff _ endsLines_iff.symm

theorem EndsLines.tail {c : Char} {cs : List Char} (h : EndsLines (c :: cs)) : EndsLines cs :=
  fun a b heq => h (c :: a) b (congrArg (c :: ·) heq)

/-- The lines of a text hold no carriage return that stood before a line feed. -/
theorem EndsLines.not_mem {cs : List Char} (h : EndsLines cs) : ∀ line ∈ lines cs, '\r' ∉ line := by
  induction cs with
  | nil => exact fun line hline => absurd hline List.not_mem_nil
  | cons c rest ih =>
      have ih := ih h.tail
      by_cases hfeed : c = '\n'
      · subst hfeed
        rw [lines_newline]
        exact List.forall_mem_cons.mpr ⟨List.not_mem_nil, ih⟩
      by_cases hreturn : c = '\r'
      · -- a line feed comes next, so both leave an empty line
        subst hreturn
        obtain ⟨rest, rfl⟩ := List.head?_eq_some_iff.mp (h [] rest rfl)
        have hnot : '\n' ∉ ['\r'] := by decide
        have hlines : lines ('\r' :: '\n' :: rest) = [] :: lines rest :=
          lines_append_newline hnot rest
        rw [lines_newline] at ih
        rw [hlines]
        exact ih
      · rw [lines_cons hfeed hreturn]
        refine List.forall_mem_cons.mpr ⟨?_, fun line hline => ih line (List.mem_of_mem_tail hline)⟩
        rw [List.mem_cons, not_or]
        refine ⟨Ne.symm hreturn, ?_⟩
        cases hlines : lines rest with
        | nil => exact List.not_mem_nil
        | cons first others =>
            rw [hlines] at ih
            exact ih first List.mem_cons_self

/-! ## Whole lines -/

theorem newline_not_mem_row {cs row : List Char} (h : row ∈ rows cs) : '\n' ∉ row := by
  intro hmem
  have hno := (of_mem_field h hmem).2
  simp at hno

theorem join_rows (cs : List Char) : join ['\n'] (rows cs) = cs := by
  unfold rows
  induction cs with
  | nil => rfl
  | cons c rest ih =>
      obtain ⟨field, others, hrest, hcons⟩ := fields_cons (p := (· == '\n')) c rest
      rw [hrest] at ih
      rw [hcons]
      split
      · next hc =>
          rw [join_cons_cons, ih, beq_iff_eq.mp hc]
          rfl
      · cases others with
        | nil => exact congrArg (c :: ·) ih
        | cons next others =>
            rw [join_cons_cons] at ih ⊢
            rw [List.cons_append, ih]

theorem rows_join {ls : List (List Char)} (hne : ls ≠ []) (h : ∀ l ∈ ls, '\n' ∉ l) :
    rows (join ['\n'] ls) = ls :=
  fields_join hne h

/-- Lines in front are followed by a line feed each. -/
theorem join_append_right (a : List (List Char)) {b : List (List Char)} (hb : b ≠ []) :
    join ['\n'] (a ++ b) = textOfRows a ++ join ['\n'] b := by
  induction a with
  | nil => rfl
  | cons row rest ih =>
      obtain ⟨next, others, hcons⟩ : ∃ next others, rest ++ b = next :: others :=
        List.exists_cons_of_ne_nil (List.append_ne_nil_of_right_ne_nil rest hb)
      rw [List.cons_append, hcons, join_cons_cons, ← hcons, ih]
      simp [textOfRows]

/-- The lines from `first` to `last` as they stand in a text: a line ends before them, or the text
begins, and a line feed comes after them, or the text ends. -/
def IsLines (text : List Char) (first last : Nat) (piece : List Char) : Prop :=
  ∃ before after, before ++ piece ++ after = text ∧
    (before = [] ∨ before.getLast? = some '\n') ∧ (after = [] ∨ after.head? = some '\n') ∧
    before.count '\n' + 1 = first ∧ first + piece.count '\n' = last

theorem count_textOfRows {ls : List (List Char)} (h : ∀ l ∈ ls, '\n' ∉ l) :
    (textOfRows ls).count '\n' = ls.length := by
  have hrows := congrArg List.length (rows_textOfRows h)
  rw [length_rows, List.length_append, List.length_singleton] at hrows
  omega

/-- **Lines joined again are a piece of the text**, and their rows are the rows that were joined. -/
theorem isLines_join {text : List Char} {first last : Nat} (hpos : 1 ≤ first)
    (hle : first ≤ last) (hlast : last ≤ (rows text).length) :
    IsLines text first last (join ['\n'] (((rows text).take last).drop (first - 1))) ∧
      rows (join ['\n'] (((rows text).take last).drop (first - 1))) =
        ((rows text).take last).drop (first - 1) := by
  let front := (rows text).take (first - 1)
  let inner := ((rows text).take last).drop (first - 1)
  let rest := (rows text).drop last
  -- the rows before the piece, those of the piece and those behind it make up the text
  have hsplit : front ++ (inner ++ rest) = rows text := by
    have hfront : front = ((rows text).take last).take (first - 1) := by
      rw [List.take_take, Nat.min_eq_left (by omega)]
    rw [hfront, ← List.append_assoc, List.take_append_drop, List.take_append_drop]
  have hlength : inner.length = last - (first - 1) := by
    rw [List.length_drop, List.length_take, Nat.min_eq_left hlast]
  have hinner : inner ≠ [] := by
    intro hnil
    rw [hnil, List.length_nil] at hlength
    omega
  have hno : ∀ l ∈ rows text, '\n' ∉ l := fun _ hl => newline_not_mem_row hl
  have hnoFront : ∀ l ∈ front, '\n' ∉ l := fun l hl => hno l (List.mem_of_mem_take hl)
  have hnoInner : ∀ l ∈ inner, '\n' ∉ l := fun l hl =>
    hno l (List.mem_of_mem_take (List.mem_of_mem_drop hl))
  have hrows := rows_join hinner hnoInner
  refine ⟨⟨textOfRows front, rest.flatMap ('\n' :: ·), ?_, ?_, ?_, ?_, ?_⟩, hrows⟩
  · rw [List.append_assoc, ← join_append_left hinner, ← join_append_right front
      (List.append_ne_nil_of_left_ne_nil hinner rest), hsplit, join_rows]
  · rcases List.eq_nil_or_concat' front with hnil | ⟨init, row, hconcat⟩
    · exact .inl (by rw [hnil]; rfl)
    · refine .inr ?_
      rw [hconcat]
      simp [textOfRows]
  · cases rest with
    | nil => exact .inl rfl
    | cons row others => exact .inr rfl
  · rw [count_textOfRows hnoFront, List.length_take, Nat.min_eq_left (by omega)]
    omega
  · have hcount := length_rows (join ['\n'] inner)
    rw [hrows, hlength] at hcount
    show first + (join ['\n'] inner).count '\n' = last
    omega

end ChangeScope.Text
