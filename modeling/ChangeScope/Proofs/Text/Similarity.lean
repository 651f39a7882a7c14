import Mathlib.Algebra.Order.Field.Basic
import Mathlib.Data.Rat.Cast.Order
import Mathlib.Tactic.FieldSimp
import Mathlib.Tactic.Linarith
import Mathlib.Tactic.NormNum
import ChangeScope.Text.Similarity

/-!
# The longest common subsequence

Each row of the table belongs to the items of the first list that were read so far: its entries
are the lengths of the longest common subsequences with the growing beginnings of the second list
(`IsRow`). One more item leads from a row to the next one (`IsRow.nextRow`), so the last entry of
the last row is the length for both lists (`getLast?_lastRow`). The main statement,
`similarity_by_longest_common`, says this together with what follows for the ratio: it lies between
0 and 1, does not depend on the order of the two lists, and is 1 for equal lists only.
-/

set_option autoImplicit false

namespace ChangeScope.Text

variable {α : Type} {a b c done ys : List α} {x y : α} {m n left : Nat} {row : List Nat}

/-! ## Longest common subsequences -/

/-- The greatest length of a list that is a subsequence of both lists. -/
structure IsLongestCommon (n : Nat) (a b : List α) : Prop where
  reached : ∃ c : List α, c.Sublist a ∧ c.Sublist b ∧ c.length = n
  bound : ∀ c : List α, c.Sublist a → c.Sublist b → c.length ≤ n

/-- A subsequence either does without the last item or ends in it. -/
theorem sublist_concat_iff :
    c.Sublist (a ++ [x]) ↔ c.Sublist a ∨ ∃ d, c = d ++ [x] ∧ d.Sublist a := by
  rw [List.sublist_append_iff]
  constructor
  · rintro ⟨d, e, rfl, hd, he⟩
    rcases List.sublist_singleton.mp he with rfl | rfl
    · exact Or.inl (by simpa using hd)
    · exact Or.inr ⟨d, rfl, hd⟩
  · rintro (hc | ⟨d, rfl, hd⟩)
    · exact ⟨c, [], by simp, hc, List.nil_sublist _⟩
    · exact ⟨d, [x], rfl, hd, List.Sublist.refl _⟩

namespace IsLongestCommon

theorem unique (hm : IsLongestCommon m a b) (hn : IsLongestCommon n a b) : m = n := by
  obtain ⟨c, hca, hcb, rfl⟩ := hm.reached
  obtain ⟨d, hda, hdb, rfl⟩ := hn.reached
  exact le_antisymm (hn.bound c hca hcb) (hm.bound d hda hdb)

theorem symm (h : IsLongestCommon n a b) : IsLongestCommon n b a := by
  obtain ⟨c, hca, hcb, hlen⟩ := h.reached
  exact ⟨⟨c, hcb, hca, hlen⟩, fun d hdb hda => h.bound d hda hdb⟩

theorem le_left (h : IsLongestCommon n a b) : n ≤ a.length := by
  obtain ⟨c, hca, -, rfl⟩ := h.reached
  exact hca.length_le

theorem le_right (h : IsLongestCommon n a b) : n ≤ b.length := h.symm.le_left

theorem of_nil (b : List α) : IsLongestCommon 0 [] b where
  reached := ⟨[], List.nil_sublist _, List.nil_sublist _, rfl⟩
  bound c hc _ := by simp [List.sublist_nil.mp hc]

theorem self (a : List α) : IsLongestCommon a.length a a where
  reached := ⟨a, List.Sublist.refl _, List.Sublist.refl _, rfl⟩
  bound _ hc _ := hc.length_le

/-- As long as both lists: nothing can be left out on either side. -/
theorem eq_of_length (h : IsLongestCommon n a b) (ha : n = a.length) (hb : n = b.length) :
    a = b := by
  obtain ⟨c, hca, hcb, hlen⟩ := h.reached
  calc a = c := (hca.eq_of_length (hlen.trans ha)).symm
    _ = b := hcb.eq_of_length (hlen.trans hb)

/-- **The diagonal step.** Taking an equal last item is never worse than leaving it out: without
it a common subsequence of the longer lists loses at most one item. -/
theorem concat_same (h : IsLongestCommon n a b) :
    IsLongestCommon (n + 1) (a ++ [x]) (b ++ [x]) := by
  obtain ⟨c, hca, hcb, rfl⟩ := h.reached
  refine ⟨⟨c ++ [x], hca.append_right [x], hcb.append_right [x], by simp⟩, ?_⟩
  intro d hda hdb
  -- what `d` has before its last item is common to the shorter lists
  have hshort : d.dropLast.length ≤ c.length := by
    apply h.bound
    · rcases sublist_concat_iff.mp hda with hd | ⟨e, rfl, he⟩
      · exact (List.dropLast_sublist d).trans hd
      · simpa using he
    · rcases sublist_concat_iff.mp hdb with hd | ⟨e, rfl, he⟩
      · exact (List.dropLast_sublist d).trans hd
      · simpa using he
  rw [List.length_dropLast] at hshort
  omega

/-- **The step aside.** Two different last items are not both taken. -/
theorem concat_ne (hne : x ≠ y) (hm : IsLongestCommon m (a ++ [x]) b)
    (hn : IsLongestCommon n a (b ++ [y])) :
    IsLongestCommon (max m n) (a ++ [x]) (b ++ [y]) := by
  constructor
  · rcases le_total n m with hle | hle
    · obtain ⟨c, hca, hcb, rfl⟩ := hm.reached
      exact ⟨c, hca, hcb.trans (List.sublist_append_left b [y]), (max_eq_left hle).symm⟩
    · obtain ⟨c, hca, hcb, rfl⟩ := hn.reached
      exact ⟨c, hca.trans (List.sublist_append_left a [x]), hcb, (max_eq_right hle).symm⟩
  · intro c hca hcb
    rcases sublist_concat_iff.mp hcb with hb | ⟨d, rfl, -⟩
    · exact le_max_of_le_left (hm.bound c hca hb)
    · -- `c` ends in `y`, so it cannot end in `x`
      rcases sublist_concat_iff.mp hca with ha | ⟨e, he, -⟩
      · exact le_max_of_le_right (hn.bound _ ha hcb)
      · have hyx : y = x := by simpa using congrArg List.getLast? he
        exact absurd hyx.symm hne

end IsLongestCommon

/-! ## Rows -/

/-- The entries of a row from some beginning `done` of the second list on: the first one belongs
to `done`, and each further one to one item more of the rest. -/
inductive IsRow (a : List α) : List α → List α → List Nat → Prop
  | last {done : List α} {n : Nat} : IsLongestCommon n a done → IsRow a done [] [n]
  | more {done ys : List α} {y : α} {n : Nat} {row : List Nat} :
      IsLongestCommon n a done → IsRow a (done ++ [y]) ys row → IsRow a done (y :: ys) (n :: row)

/-- The row above the first item. -/
theorem isRow_zeros (done ys : List α) :
    IsRow [] done ys (List.replicate (ys.length + 1) 0) := by
  induction ys generalizing done with
  | nil => exact .last (.of_nil done)
  | cons y ys ih => exact .more (.of_nil done) (ih (done ++ [y]))

theorem IsRow.head (h : IsRow a done ys row) :
    ∃ n above, row = n :: above ∧ IsLongestCommon n a done := by
  cases h with
  | last hn => exact ⟨_, _, rfl, hn⟩
  | more hn _ => exact ⟨_, _, rfl, hn⟩

theorem IsRow.getLast? (h : IsRow a done ys row) :
    ∃ n, row.getLast? = some n ∧ IsLongestCommon n a (done ++ ys) := by
  induction h with
  | last hn => exact ⟨_, rfl, by simpa using hn⟩
  | more _ hrow ih =>
    obtain ⟨n, hlast, hn⟩ := ih
    obtain ⟨k, above, rfl, -⟩ := hrow.head
    exact ⟨n, by simpa using hlast, by simpa using hn⟩

variable [DecidableEq α]

/-- One more item of the first list, from an entry of its row on. The induction follows the rest
of the second list; `left` is the entry of the new row that was made last. -/
theorem IsRow.rowAfter (h : IsRow a done ys row) (hleft : IsLongestCommon left (a ++ [x]) done) :
    IsRow (a ++ [x]) done ys (left :: rowAfter x ys row left) := by
  induction ys generalizing done row left with
  | nil => exact .last hleft
  | cons y ys ih =>
    cases h with
    | more hcorner hrow =>
      obtain ⟨up, above, rfl, hup⟩ := hrow.head
      refine .more hleft (ih hrow ?_)
      by_cases hxy : x = y
      · subst hxy
        simpa using hcorner.concat_same
      · simpa [hxy] using hleft.concat_ne hxy hup

/-- **A step of the table.** -/
theorem IsRow.nextRow (h : IsRow a [] b row) : IsRow (a ++ [x]) [] b (nextRow b row x) :=
  h.rowAfter (IsLongestCommon.of_nil (a ++ [x])).symm

/-- **The whole table**, from any row on. -/
theorem IsRow.foldl (h : IsRow a [] b row) (rest : List α) :
    IsRow (a ++ rest) [] b (rest.foldl (Text.nextRow b) row) := by
  induction rest generalizing a row with
  | nil => simpa using h
  | cons x rest ih => simpa using ih (h.nextRow (x := x))

theorem isRow_lastRow (a b : List α) : IsRow a [] b (lastRow a b) :=
  (isRow_zeros [] b).foldl a

theorem getLast?_lastRow (a b : List α) :
    ∃ n, (lastRow a b).getLast? = some n ∧ IsLongestCommon n a b := by
  simpa using (isRow_lastRow a b).getLast?

theorem isLongestCommon_commonLength (a b : List α) :
    IsLongestCommon (commonLength a b) a b := by
  obtain ⟨n, hlast, hn⟩ := getLast?_lastRow a b
  simpa [commonLength, hlast] using hn

theorem commonLength_comm (a b : List α) : commonLength a b = commonLength b a :=
  (isLongestCommon_commonLength a b).unique (isLongestCommon_commonLength b a).symm

/-! ## The ratio -/

theorem similarity_eq (a b : List α) :
    similarity a b =
      if a = [] ∧ b = [] then 1 else (2 * commonLength a b : ℚ) / (a.length + b.length) := by
  simp [similarity]

theorem similarity_comm (a b : List α) : similarity a b = similarity b a := by
  simp only [similarity_eq, commonLength_comm a b, and_comm, add_comm]

/-- Twice the common length is at most the sum of the lengths, and reaches it for equal lists
only. -/
theorem two_mul_commonLength (a b : List α) :
    2 * commonLength a b ≤ a.length + b.length ∧
      (2 * commonLength a b = a.length + b.length ↔ a = b) := by
  have h := isLongestCommon_commonLength a b
  have hleft := h.le_left
  have hright := h.le_right
  refine ⟨by omega, fun heq => h.eq_of_length (by omega) (by omega), ?_⟩
  rintro rfl
  have hself := h.unique (IsLongestCommon.self a)
  omega

omit [DecidableEq α] in
theorem length_pos_of_some (h : ¬(a = [] ∧ b = [])) : 0 < (a.length + b.length : ℚ) := by
  have hpos : 0 < a.length + b.length := by
    by_contra hzero
    exact h ⟨List.length_eq_zero_iff.mp (by omega), List.length_eq_zero_iff.mp (by omega)⟩
  exact_mod_cast hpos

theorem similarity_nonneg (a b : List α) : 0 ≤ similarity a b := by
  rw [similarity_eq]
  split
  · exact zero_le_one
  · positivity

theorem similarity_le_one (a b : List α) : similarity a b ≤ 1 := by
  rw [similarity_eq]
  split
  · exact le_refl 1
  · next hsome =>
    rw [div_le_one (length_pos_of_some hsome)]
    exact_mod_cast (two_mul_commonLength a b).1

theorem similarity_eq_one_iff (a b : List α) : similarity a b = 1 ↔ a = b := by
  rw [similarity_eq]
  split
  · next hnone => simp [hnone]
  · next hsome =>
    rw [div_eq_one_iff_eq (length_pos_of_some hsome).ne', ← (two_mul_commonLength a b).2]
    exact_mod_cast Iff.rfl

/-- **The table yields the length of a longest common subsequence**, and the ratio made of it lies
between 0 and 1, is the same for both orders of the lists, and is 1 just for equal lists. -/
theorem similarity_by_longest_common (a b : List α) :
    (∃ n, (lastRow a b).getLast? = some n ∧ IsLongestCommon n a b ∧
      similarity a b = if a = [] ∧ b = [] then 1 else (2 * n : ℚ) / (a.length + b.length)) ∧
    0 ≤ similarity a b ∧ similarity a b ≤ 1 ∧ similarity a b = similarity b a ∧
    (similarity a b = 1 ↔ a = b) := by
  obtain ⟨n, hlast, hn⟩ := getLast?_lastRow a b
  have hcommon : commonLength a b = n := (isLongestCommon_commonLength a b).unique hn
  exact ⟨⟨n, hlast, hn, hcommon ▸ similarity_eq a b⟩, similarity_nonneg a b, similarity_le_one a b,
    similarity_comm a b, similarity_eq_one_iff a b⟩

end ChangeScope.Text
