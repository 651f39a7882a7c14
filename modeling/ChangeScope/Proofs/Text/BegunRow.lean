import Mathlib.Data.List.Infix
import ChangeScope.Proofs.Text.Lines

/-!
# The row that a text begins

What stands behind the last line feed of a text is a row that is not ended. It is a line if there is
something on it, so it tells how many lines the text has (`length_lines`).
-/

set_option autoImplicit false

namespace ChangeScope.Text

/-- What stands behind the last line feed of a text. -/
def begunRow (cs : List Char) : List Char := (cs.reverse.takeWhile (· != '\n')).reverse

theorem begunRow_append {b : List Char} (h : '\n' ∉ b) (a : List Char) :
    begunRow (a ++ b) = begunRow a ++ b := by
  have hb : ∀ c ∈ b.reverse, (c != '\n') = true := by
    intro c hc
    rw [bne_iff_ne]
    exact ne_of_mem_of_not_mem (List.mem_reverse.mp hc) h
  rw [begunRow, List.reverse_append, List.takeWhile_append_of_pos hb, List.reverse_append,
    List.reverse_reverse, begunRow]

theorem begunRow_newline (a b : List Char) : begunRow (a ++ '\n' :: b) = begunRow b := by
  have hsplit : (a ++ '\n' :: b).reverse = b.reverse ++ '\n' :: a.reverse := by simp
  rw [begunRow, begunRow, hsplit, List.takeWhile_append]
  split
  · -- nothing more is taken over the line feed
    next hall =>
      rw [List.takeWhile_cons_of_neg (by simp), List.append_nil,
        (List.takeWhile_prefix _).eq_of_length hall]
  · rfl

theorem begunRow_of_not_mem {cs : List Char} (h : '\n' ∉ cs) : begunRow cs = cs := by
  simpa [begunRow] using begunRow_append h []

/-- A text has a line for each line feed, and the begun row if anything stands on it. -/
theorem length_lines (cs : List Char) :
    (lines cs).length = cs.count '\n' + if begunRow cs = [] then 0 else 1 := by
  by_cases hmem : '\n' ∈ cs
  · -- the first row is a line, and the rest is shorter
    obtain ⟨row, rest, hsplit, hrow⟩ := List.eq_append_cons_of_mem hmem
    have ih := length_lines rest
    rw [hsplit, lines_append_newline hrow, List.length_cons, ih, begunRow_newline,
      List.count_append, List.count_cons_self, List.count_eq_zero_of_not_mem hrow]
    omega
  · rw [begunRow_of_not_mem hmem, List.count_eq_zero_of_not_mem hmem]
    by_cases hnil : cs = []
    · subst hnil
      rfl
    · have hplain : ∀ c ∈ cs, (c == '\n') = false := by
        intro c hc
        rw [beq_eq_false_iff_ne]
        exact ne_of_mem_of_not_mem hc hmem
      unfold lines rows
      rw [if_neg hnil, fields_plain hplain, linesOfRows, if_neg (by simpa using hnil)]
      rfl
termination_by cs.length
decreasing_by
  rw [hsplit, List.length_append, List.length_cons]
  omega

/-- A text has the lines of its beginnings. -/
theorem length_lines_le_of_prefix {a b : List Char} (h : a <+: b) :
    (lines a).length ≤ (lines b).length := by
  obtain ⟨more, rfl⟩ := h
  rw [length_lines, length_lines, List.count_append]
  by_cases hmore : '\n' ∈ more
  · have hpos := List.count_pos_iff.mpr hmore
    split <;> split <;> omega
  · rw [begunRow_append hmore]
    by_cases ha : begunRow a = []
    · rw [if_pos ha]
      omega
    · rw [if_neg ha, if_neg (List.append_ne_nil_of_left_ne_nil ha more)]
      omega

/-! ## Texts that end on one row -/

/-- Of two beginnings of a text with the same line feeds the longer one has more on its last row. -/
theorem begunRow_mono {a b : List Char} (h : a <+: b) (hcount : b.count '\n' ≤ a.count '\n') :
    begunRow a <+: begunRow b := by
  obtain ⟨more, rfl⟩ := h
  rw [List.count_append] at hcount
  have hmore : '\n' ∉ more := List.count_eq_zero.mp (by omega)
  rw [begunRow_append hmore]
  exact List.prefix_append _ more

/-- What ends on a row before which only blanks stand, without ending among these blanks, has no
line of this row. -/
theorem length_lines_le_count {a b : List Char} {blank : Char → Bool} (h : a <+: b)
    (hblank : ∀ c ∈ begunRow b, blank c = true)
    (hends : begunRow a = [] ∨ ∃ c ∈ begunRow a, blank c = false) :
    (lines a).length ≤ b.count '\n' := by
  rw [length_lines]
  rcases Nat.lt_or_ge (a.count '\n') (b.count '\n') with hlt | hge
  · split <;> omega
  · have hsub := (begunRow_mono h hge).subset
    rcases hends with hnil | ⟨c, hc, hmark⟩
    · rw [if_pos hnil]
      exact h.sublist.count_le '\n'
    · rw [hblank c (hsub hc)] at hmark
      cases hmark

end ChangeScope.Text
