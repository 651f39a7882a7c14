import ChangeScope.Proofs.Text

/-!
# Decimal digits

A number below `2 ^ 64` is read back from its decimal digits (`natural?_toDigits`).
-/

set_option autoImplicit false

namespace ChangeScope.Text

/-- Nothing but decimal digits. -/
def IsDigits (cs : List Char) : Prop := ∀ c ∈ cs, c.isDigit = true

theorem isDigits_toDigits (n : Nat) : IsDigits (Nat.toDigits 10 n) := fun _ hc =>
  Nat.isDigit_of_mem_toDigits (by norm_num) (by norm_num) hc

theorem IsDigits.append {a b : List Char} (ha : IsDigits a) (hb : IsDigits b) :
    IsDigits (a ++ b) := by
  intro c hc
  rcases List.mem_append.mp hc with h | h
  · exact ha c h
  · exact hb c h

theorem IsDigits.ne {cs : List Char} (h : IsDigits cs) {c d : Char} (hc : c ∈ cs)
    (hd : d.isDigit = false) : (c != d) = true := by
  rw [bne_iff_ne]
  rintro rfl
  rw [h c hc] at hd
  exact absurd hd (by simp)

/-- A digit is no white space. -/
theorem isBlank_of_digit {c : Char} (h : c.isDigit = true) : isBlank c = false := by
  have hrange : 48 ≤ c.toNat ∧ c.toNat ≤ 57 := by
    simp only [Char.isDigit, Bool.and_eq_true, decide_eq_true_eq, UInt32.le_iff_toNat_le] at h
    exact h
  unfold isBlank
  simp only [Bool.or_eq_false_iff, Bool.and_eq_false_iff, decide_eq_false_iff_not,
    beq_eq_false_iff_ne]
  omega

/-- The value of digits behind others. -/
theorem foldlM_digits {cs : List Char} (h : IsDigits cs) (n : Nat) :
    cs.foldlM (fun n c => if '0' ≤ c ∧ c ≤ '9' then some (10 * n + (c.toNat - '0'.toNat)) else none)
      n = some (Nat.ofDigitChars 10 cs n) := by
  induction cs generalizing n with
  | nil => rfl
  | cons c rest ih =>
      have hc : '0' ≤ c ∧ c ≤ '9' := by
        have hdigit := h c List.mem_cons_self
        simp only [Char.isDigit, Bool.and_eq_true, decide_eq_true_eq] at hdigit
        exact hdigit
      have hrest := ih fun d hd => h d (List.mem_cons_of_mem c hd)
      rw [List.foldlM_cons, if_pos hc, Nat.ofDigitChars_cons]
      exact hrest _

/-- **A number is read back from its digits.** -/
theorem natural?_toDigits {n : Nat} (h : n < 2 ^ 64) : natural? (Nat.toDigits 10 n) = some n := by
  have hdigits := isDigits_toDigits n
  have hvalue : digitsValue? (Nat.toDigits 10 n) = some n := by
    unfold digitsValue?
    rw [foldlM_digits hdigits, Nat.ofDigitChars_ten_toDigits]
  obtain ⟨c, rest, hcons⟩ := List.exists_cons_of_ne_nil (Nat.toDigits_ne_nil (b := 10) (n := n))
  have hplus : c ≠ '+' := by
    rintro rfl
    have hdigit := hdigits '+' (by rw [hcons]; exact List.mem_cons_self)
    exact absurd hdigit (by decide)
  unfold natural?
  rw [hcons] at hvalue ⊢
  split
  · next heq => exact absurd (List.cons.inj heq).1 hplus
  · show (if (c :: rest).isEmpty = true then none
      else (digitsValue? (c :: rest)).filter fun n => decide (n < 2 ^ 64)) = some n
    rw [List.isEmpty_cons, if_neg Bool.false_ne_true, hvalue, Option.filter_some,
      if_pos (decide_eq_true h)]

end ChangeScope.Text
