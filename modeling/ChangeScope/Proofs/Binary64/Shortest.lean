import ChangeScope.Binary64.Shortest
import Mathlib.Tactic

/-!
# The shortest decimal determines its number

The numbers that round to a binary64 number form an interval, and the intervals of different
magnitudes have no number in common (`eq_of_roundsTo`). Seventeen digits always reach into the
interval, so the search for the shortest decimal never fails and its result rounds to the number
(`roundsTo_shortest`).
-/

set_option autoImplicit false

namespace ChangeScope.Binary64

/-! ## Rounding intervals

All bounds are counted in quarters of the last place of the significand. -/

/-- A quarter of the last place. -/
def quarter (x : Binary64) : ℚ := 2 ^ (x.exponent - 2)

/-- How many quarters the interval reaches down. -/
def reach (x : Binary64) : Nat := if x.fractionBits = 0 && 1 < x.exponentBits then 1 else 2

/-- The rational lies in the rounding interval; the ends count for an even significand. -/
def RoundsTo (x : Binary64) (q : ℚ) : Prop :=
  (4 * x.significand - x.reach : ℚ) * x.quarter ≤ q ∧
    q ≤ (4 * x.significand + 2 : ℚ) * x.quarter ∧
    (x.significand % 2 = 1 →
      (4 * x.significand - x.reach : ℚ) * x.quarter ≠ q ∧
        q ≠ (4 * x.significand + 2 : ℚ) * x.quarter)

theorem quarter_pos (x : Binary64) : 0 < x.quarter := zpow_pos (by norm_num) _

theorem reach_le (x : Binary64) : x.reach ≤ 2 := by
  unfold reach
  split <;> omega

theorem fractionBits_lt (x : Binary64) : x.fractionBits < 2 ^ 52 := Nat.mod_lt _ (by norm_num)

theorem significand_lt (x : Binary64) : x.significand < 2 ^ 53 := by
  have := x.fractionBits_lt
  unfold significand
  split <;> omega

/-- The significand of a number whose interval reaches down by one quarter only. -/
theorem significand_of_reach {x : Binary64} (h : x.reach = 1) : x.significand = 2 ^ 52 := by
  unfold reach at h
  split at h
  · next hx =>
      simp only [Bool.and_eq_true, decide_eq_true_eq] at hx
      unfold significand
      rw [if_neg (by omega), hx.1]
      norm_num
  · omega

theorem roundsTo_of_between {x : Binary64} {q : ℚ}
    (hlow : (4 * x.significand - x.reach : ℚ) * x.quarter < q)
    (hhigh : q < (4 * x.significand + 2 : ℚ) * x.quarter) : x.RoundsTo q :=
  ⟨hlow.le, hhigh.le, fun _ => ⟨hlow.ne, hhigh.ne⟩⟩

/-! ## Different magnitudes have disjoint intervals -/

/-- A number is made up of its sign bit, its exponent bits and its fraction bits. -/
theorem eq_of_parts {x y : Binary64} (hs : x.isNegative = y.isNegative)
    (he : x.exponentBits = y.exponentBits) (hf : x.fractionBits = y.fractionBits) : x = y := by
  have hx := x.bits.toNat_lt
  have hy := y.bits.toNat_lt
  have hs' : (2 ^ 63 ≤ x.bits.toNat ↔ 2 ^ 63 ≤ y.bits.toNat) := by
    simpa [isNegative, UInt64.le_iff_toNat_le] using hs
  unfold exponentBits at he
  unfold fractionBits at hf
  have hbits : x.bits.toNat = y.bits.toNat := by omega
  cases x
  cases y
  exact congrArg Binary64.mk (UInt64.toNat_inj.mp hbits)

/-- The magnitude of the first number is smaller. -/
def Below (x y : Binary64) : Prop :=
  x.exponentBits < y.exponentBits ∨
    x.exponentBits = y.exponentBits ∧ x.fractionBits < y.fractionBits

/-- On one exponent the smaller number has the smaller significand; else the greater number has a
full significand and a greater exponent. -/
theorem Below.cases {x y : Binary64} (h : x.Below y) :
    x.exponent = y.exponent ∧ x.significand < y.significand ∨
      x.exponent < y.exponent ∧ 2 ^ 54 ≤ 4 * y.significand - y.reach + 1 := by
  have hx := x.fractionBits_lt
  have hreach : y.reach = if y.fractionBits = 0 ∧ 1 < y.exponentBits then 1 else 2 := by
    simp [reach]
  simp only [exponent, significand]
  rcases h with h | ⟨he, hf⟩
  · by_cases h1 : x.exponentBits = 0 ∧ y.exponentBits = 1
    · left
      simp [h1.1, h1.2]
      omega
    · right
      split at hreach <;> split <;> split <;> omega
  · left
    rw [he]
    split <;> omega

/-- The grid of a greater exponent is coarser by a power of two. -/
theorem quarter_of_exponent_lt {x y : Binary64} (h : x.exponent < y.exponent) :
    ∃ k : Nat, y.quarter = 2 * 2 ^ k * x.quarter := by
  obtain ⟨k, hk⟩ : ∃ k : Nat, y.exponent = x.exponent + (k + 1) :=
    ⟨(y.exponent - x.exponent - 1).toNat, by omega⟩
  refine ⟨k, ?_⟩
  rw [quarter, quarter, show y.exponent - 2 = (x.exponent - 2) + ((k + 1 : Nat) : Int) by omega,
    zpow_add₀ (by norm_num), zpow_natCast, pow_succ]
  ring

/-- The interval of the smaller number ends before the other begins; where they meet, one of the
significands is odd. -/
theorem Below.high_le_low {x y : Binary64} (h : x.Below y) :
    (4 * x.significand + 2 : ℚ) * x.quarter ≤ (4 * y.significand - y.reach : ℚ) * y.quarter ∧
      ((4 * x.significand + 2 : ℚ) * x.quarter = (4 * y.significand - y.reach : ℚ) * y.quarter →
        x.significand % 2 = 1 ∨ y.significand % 2 = 1) := by
  have hu := x.quarter_pos
  have hr := y.reach_le
  rcases h.cases with ⟨he, hm⟩ | ⟨he, hm⟩
  · have hq : y.quarter = x.quarter := by rw [quarter, quarter, he]
    have hcast : ((4 * x.significand + 2 + y.reach : Nat) : ℚ) ≤ (4 * y.significand : Nat) :=
      Nat.cast_le.mpr (by omega)
    push_cast at hcast
    rw [hq]
    refine ⟨mul_le_mul_of_nonneg_right (by linarith) hu.le, fun heq => ?_⟩
    have hnat : ((4 * x.significand + 2 + y.reach : Nat) : ℚ) = (4 * y.significand : Nat) := by
      push_cast
      linarith [mul_right_cancel₀ hu.ne' heq]
    have := Nat.cast_injective hnat
    omega
  · obtain ⟨k, hq⟩ := quarter_of_exponent_lt he
    have hx := x.significand_lt
    have hpow : (1 : ℚ) ≤ 2 ^ k := one_le_pow₀ (by norm_num)
    have hlow : (2 ^ 54 - 1 : ℚ) ≤ 4 * y.significand - y.reach := by
      have : ((2 ^ 54 + y.reach : Nat) : ℚ) ≤ (4 * y.significand + 1 : Nat) :=
        Nat.cast_le.mpr (by omega)
      push_cast at this
      linarith
    have hhigh : (x.significand : ℚ) ≤ 2 ^ 53 - 1 := by
      have : ((x.significand + 1 : Nat) : ℚ) ≤ (2 ^ 53 : Nat) :=
        Nat.cast_le.mpr (Nat.succ_le_of_lt hx)
      push_cast at this
      linarith
    -- the factor between the two scales is at least two
    have hstep : (2 ^ 55 - 2 : ℚ) ≤ (4 * y.significand - y.reach) * (2 * 2 ^ k) := by
      calc (2 ^ 55 - 2 : ℚ) = (2 ^ 54 - 1) * 2 := by norm_num
        _ ≤ (4 * y.significand - y.reach) * (2 * 2 ^ k) :=
            mul_le_mul hlow (by linarith) (by norm_num) (le_trans (by norm_num) hlow)
    rw [hq, ← mul_assoc]
    refine ⟨mul_le_mul_of_nonneg_right (by linarith) hu.le, fun heq => Or.inl ?_⟩
    have heq' := mul_right_cancel₀ hu.ne' heq
    have : ((x.significand + 1 : Nat) : ℚ) = (2 ^ 53 : Nat) := by
      push_cast
      linarith
    have := Nat.cast_injective this
    omega

theorem Below.not_roundsTo {x y : Binary64} (h : x.Below y) {q : ℚ} (hx : x.RoundsTo q) :
    ¬ y.RoundsTo q := by
  intro hy
  obtain ⟨hle, hodd⟩ := h.high_le_low
  have hxy := le_antisymm hle (hy.1.trans hx.2.1)
  have hq := le_antisymm hx.2.1 (hle.trans hy.1)
  rcases hodd hxy with ho | ho
  · exact (hx.2.2 ho).2 hq
  · exact (hy.2.2 ho).1 (hxy.symm.trans hq.symm)

/-- **A rational rounds to one magnitude only.** -/
theorem eq_of_roundsTo {x y : Binary64} {q : ℚ} (hs : x.isNegative = y.isNegative)
    (hx : x.RoundsTo q) (hy : y.RoundsTo q) : x = y := by
  by_contra hne
  have : x.Below y ∨ y.Below x := by
    by_contra hcon
    simp only [Below, not_or, not_and] at hcon
    exact hne (eq_of_parts hs (by omega) (by omega))
  rcases this with h | h
  · exact h.not_roundsTo hx hy
  · exact h.not_roundsTo hy hx

/-! ## The interval in the search -/

theorem scaleTwo_snd_pos (e : Int) : 0 < (scaleTwo 1 e).2 := by
  simp only [scaleTwo, Nat.pow_eq]
  split
  · exact one_pos
  · positivity

theorem scaleTwo_fst (n : Nat) (e : Int) :
    ((scaleTwo n e).1 : ℚ) = n * 2 ^ e * (scaleTwo 1 e).2 := by
  simp only [scaleTwo, Nat.pow_eq]
  split
  · next h =>
      obtain ⟨k, rfl⟩ := Int.eq_ofNat_of_zero_le h
      simp
  · next h =>
      obtain ⟨k, hk⟩ := Int.eq_ofNat_of_zero_le (show 0 ≤ -e by omega)
      rw [hk, show e = -(k : Int) by omega]
      simp

theorem scaleTen_snd_pos (k : Int) : 0 < (scaleTen 1 k).2 := by
  simp only [scaleTen, Nat.pow_eq]
  split
  · exact one_pos
  · positivity

theorem scaleTen_fst (k : Int) : ((scaleTen 1 k).1 : ℚ) = 10 ^ k * (scaleTen 1 k).2 := by
  simp only [scaleTen, Nat.pow_eq]
  split
  · next h =>
      obtain ⟨j, rfl⟩ := Int.eq_ofNat_of_zero_le h
      simp
  · next h =>
      obtain ⟨j, hj⟩ := Int.eq_ofNat_of_zero_le (show 0 ≤ -k by omega)
      rw [hj, show k = -(j : Int) by omega]
      simp

theorem interval_den_pos (x : Binary64) : 0 < x.interval.den := scaleTwo_snd_pos _

theorem interval_value (x : Binary64) :
    (x.interval.value : ℚ) = 4 * x.significand * x.quarter * x.interval.den := by
  rw [show x.interval.value = (scaleTwo (4 * x.significand) (x.exponent - 2)).1 from rfl,
    scaleTwo_fst]
  push_cast
  rfl

theorem interval_high (x : Binary64) :
    (x.interval.high : ℚ) = (4 * x.significand + 2) * x.quarter * x.interval.den := by
  rw [show x.interval.high = (scaleTwo (4 * x.significand + 2) (x.exponent - 2)).1 from rfl,
    scaleTwo_fst]
  push_cast
  rfl

theorem interval_low {x : Binary64} (h : 0 < x.significand) :
    (x.interval.low : ℚ) = (4 * x.significand - x.reach) * x.quarter * x.interval.den := by
  have hr := x.reach_le
  rw [show x.interval.low = (scaleTwo (4 * x.significand - x.reach) (x.exponent - 2)).1 from rfl,
    scaleTwo_fst, Nat.cast_sub (by omega)]
  push_cast
  rfl

/-- The test of the search is membership in the rounding interval. -/
theorem holds_iff {x : Binary64} (hm : 0 < x.significand) (n : Nat) {d : Nat} (hd : 0 < d) :
    x.interval.holds n d = true ↔ x.RoundsTo (n / d) := by
  have hden : (0 : ℚ) < x.interval.den := Nat.cast_pos.mpr x.interval_den_pos
  have hd' : (0 : ℚ) < d := Nat.cast_pos.mpr hd
  set low : ℚ := (4 * x.significand - x.reach) * x.quarter with hlow
  set high : ℚ := (4 * x.significand + 2) * x.quarter with hhigh
  -- the search compares integers, both sides having been multiplied by both denominators
  have h1 : x.interval.low * d ≤ n * x.interval.den ↔ low ≤ n / d := by
    rw [le_div_iff₀ hd', ← Nat.cast_le (α := ℚ)]
    push_cast
    rw [interval_low hm, ← hlow, mul_right_comm, mul_le_mul_iff_left₀ hden]
  have h2 : n * x.interval.den ≤ x.interval.high * d ↔ (n / d : ℚ) ≤ high := by
    rw [div_le_iff₀ hd', ← Nat.cast_le (α := ℚ)]
    push_cast
    rw [interval_high, ← hhigh, mul_right_comm high, mul_le_mul_iff_left₀ hden]
  have h3 : n * x.interval.den ≤ x.interval.low * d ↔ (n / d : ℚ) ≤ low := by
    rw [div_le_iff₀ hd', ← Nat.cast_le (α := ℚ)]
    push_cast
    rw [interval_low hm, ← hlow, mul_right_comm low, mul_le_mul_iff_left₀ hden]
  have h4 : x.interval.high * d ≤ n * x.interval.den ↔ high ≤ n / d := by
    rw [le_div_iff₀ hd', ← Nat.cast_le (α := ℚ)]
    push_cast
    rw [interval_high, ← hhigh, mul_right_comm, mul_le_mul_iff_left₀ hden]
  unfold Interval.holds RoundsTo
  rw [show x.interval.closed = decide (x.significand % 2 = 0) from rfl]
  split
  · next hc =>
      have hc : x.significand % 2 = 0 := by simpa using hc
      simp only [Bool.and_eq_true, decide_eq_true_eq, h1, h2]
      refine ⟨fun h => ⟨h.1, h.2, fun ho => absurd ho (by omega)⟩, fun h => ⟨h.1, h.2.1⟩⟩
  · next hc =>
      have ho : x.significand % 2 = 1 := by
        have : ¬ x.significand % 2 = 0 := by simpa using hc
        omega
      simp only [Bool.and_eq_true, decide_eq_true_eq, ← Nat.not_le, h3, h4, not_le]
      constructor
      · rintro ⟨ha, hb⟩
        exact ⟨ha.le, hb.le, fun _ => ⟨ha.ne, hb.ne⟩⟩
      · rintro ⟨ha, hb, hne⟩
        exact ⟨lt_of_le_of_ne ha (hne ho).1, lt_of_le_of_ne hb (hne ho).2⟩

/-! ## Neighbours on a decimal grid -/

/-- The greatest multiple of `10 ^ k` up to the number, as a factor. -/
def Interval.floorAt (i : Interval) (k : Int) : Nat :=
  i.value * (scaleTen 1 k).2 / (i.den * (scaleTen 1 k).1)

/-- The multiple of `10 ^ k` lies in the interval. -/
def Interval.hasAt (i : Interval) (k : Int) (n : Nat) : Bool :=
  i.holds (n * (scaleTen 1 k).1) (scaleTen 1 k).2

theorem hasAt_iff {x : Binary64} (hm : 0 < x.significand) (k : Int) (n : Nat) :
    x.interval.hasAt k n = true ↔ x.RoundsTo (n * 10 ^ k) := by
  have hd : ((scaleTen 1 k).2 : ℚ) ≠ 0 := Nat.cast_ne_zero.mpr (scaleTen_snd_pos k).ne'
  rw [Interval.hasAt, holds_iff hm _ (scaleTen_snd_pos k)]
  push_cast
  rw [scaleTen_fst, ← mul_assoc, mul_div_cancel_right₀ _ hd]

/-- A neighbour is a positive multiple in the interval; there is none only where both multiples
around the number lie outside. -/
theorem Interval.neighbour?_cases (i : Interval) (k : Int) :
    (∃ n, i.neighbour? k = some n ∧ 0 < n ∧ i.hasAt k n = true) ∨
      i.neighbour? k = none ∧ (i.floorAt k = 0 ∨ i.hasAt k (i.floorAt k) = false) ∧
        i.hasAt k (i.floorAt k + 1) = false := by
  simp only [neighbour?, show ∀ n, i.holds (n * (scaleTen 1 k).1) (scaleTen 1 k).2 = i.hasAt k n
    from fun _ => rfl, show i.value * (scaleTen 1 k).2 / (i.den * (scaleTen 1 k).1) = i.floorAt k
    from rfl]
  cases hb : i.hasAt k (i.floorAt k) && i.floorAt k != 0 <;>
    cases ha : i.hasAt k (i.floorAt k + 1)
  · refine Or.inr ⟨rfl, ?_, rfl⟩
    rw [Bool.and_eq_false_iff, bne_eq_false_iff_eq] at hb
    exact hb.symm
  · exact Or.inl ⟨_, rfl, Nat.succ_pos _, ha⟩
  · rw [Bool.and_eq_true, bne_iff_ne] at hb
    exact Or.inl ⟨_, rfl, Nat.pos_of_ne_zero hb.2, hb.1⟩
  · rw [Bool.and_eq_true, bne_iff_ne] at hb
    have hlow : 0 < i.floorAt k ∧ i.hasAt k (i.floorAt k) = true :=
      ⟨Nat.pos_of_ne_zero hb.2, hb.1⟩
    have hhigh : 0 < i.floorAt k + 1 ∧ i.hasAt k (i.floorAt k + 1) = true := ⟨Nat.succ_pos _, ha⟩
    -- both multiples lie inside, and the search takes one of them
    left
    simp only
    split
    · exact ⟨_, rfl, hlow⟩
    · split
      · exact ⟨_, rfl, hhigh⟩
      · split
        · exact ⟨_, rfl, hlow⟩
        · exact ⟨_, rfl, hhigh⟩

/-- The number lies between two multiples next to each other. -/
theorem floorAt_bounds (x : Binary64) (k : Int) :
    (x.interval.floorAt k : ℚ) * 10 ^ k ≤ 4 * x.significand * x.quarter ∧
      4 * x.significand * x.quarter < ((x.interval.floorAt k + 1 : Nat) : ℚ) * 10 ^ k := by
  have hk : (0 : ℚ) < 10 ^ k := zpow_pos (by norm_num) _
  have hden : (0 : ℚ) < x.interval.den := Nat.cast_pos.mpr x.interval_den_pos
  have hd : (0 : ℚ) < (scaleTen 1 k).2 := Nat.cast_pos.mpr (scaleTen_snd_pos k)
  have hunit : (0 : ℚ) < ((x.interval.den * (scaleTen 1 k).1 : Nat) : ℚ) := by
    push_cast
    rw [scaleTen_fst]
    positivity
  have hratio : ((x.interval.value * (scaleTen 1 k).2 : Nat) : ℚ) /
      (x.interval.den * (scaleTen 1 k).1 : Nat) = 4 * x.significand * x.quarter / 10 ^ k := by
    push_cast
    rw [interval_value, scaleTen_fst]
    field_simp
  constructor
  · rw [← le_div_iff₀ hk, ← hratio]
    exact Nat.cast_div_le
  · rw [← div_lt_iff₀ hk, ← hratio, div_lt_iff₀ hunit, ← Nat.cast_mul, Nat.cast_lt]
    exact Nat.lt_mul_of_div_lt (Nat.lt_succ_self _) (Nat.cast_pos.mp hunit)

/-- The interval is longer than a step that divides the number into `10 ^ 16` parts or more. -/
theorem step_lt_length (x : Binary64) {k : Int}
    (h : (10 : ℚ) ^ 16 * 10 ^ k ≤ 4 * x.significand * x.quarter) :
    (10 : ℚ) ^ k < (2 + x.reach) * x.quarter := by
  have hreach : (4 * x.significand : ℚ) < 10 ^ 16 * (2 + x.reach) := by
    rcases (show x.reach = 1 ∨ x.reach = 2 by unfold reach; split <;> omega) with hr | hr
    · rw [hr, significand_of_reach hr]
      norm_num
    · have hlt : (x.significand : ℚ) < (2 ^ 53 : Nat) := Nat.cast_lt.mpr x.significand_lt
      rw [hr]
      push_cast at hlt ⊢
      linarith
  have hscaled := mul_lt_mul_of_pos_right hreach x.quarter_pos
  nlinarith

/-- One of the multiples around the number lies in its interval when the grid is that fine. -/
theorem exists_neighbour {x : Binary64} (hm : 0 < x.significand) {k : Int}
    (h : (10 : ℚ) ^ 16 * 10 ^ k ≤ 4 * x.significand * x.quarter) :
    ∃ n, x.interval.neighbour? k = some n := by
  have hk : (0 : ℚ) < 10 ^ k := zpow_pos (by norm_num) _
  obtain ⟨hlow, hhigh⟩ := x.floorAt_bounds k
  have hlen := x.step_lt_length h
  have hquarter := x.quarter_pos
  rcases x.interval.neighbour?_cases k with ⟨n, hn, -⟩ | ⟨-, hout, hout'⟩
  · exact ⟨n, hn⟩
  exfalso
  rcases hout with hzero | hout
  · rw [hzero, zero_add, Nat.cast_one, one_mul] at hhigh
    nlinarith
  · -- both multiples lie outside, so the interval fits between them
    rw [← Bool.not_eq_true, hasAt_iff hm] at hout hout'
    have hbelow :
        (x.interval.floorAt k : ℚ) * 10 ^ k ≤ (4 * x.significand - x.reach) * x.quarter := by
      by_contra hlt
      exact hout (roundsTo_of_between (not_le.mp hlt) (by linarith))
    have habove : (4 * x.significand + 2 : ℚ) * x.quarter ≤
        ((x.interval.floorAt k + 1 : Nat) : ℚ) * 10 ^ k := by
      by_contra hlt
      refine hout' (roundsTo_of_between ?_ (not_le.mp hlt))
      have hnonneg : (0 : ℚ) ≤ x.reach * x.quarter := by positivity
      linarith
    push_cast at habove
    linarith

/-! ## The search -/

/-- The place of the decimal point is not too high. -/
theorem pow_decimalPoint_le {num den : Nat} (hden : 0 < den) (h : den ≤ num * 10 ^ 400) :
    (10 : ℚ) ^ (decimalPoint num den - 1) ≤ num / den := by
  have hden' : (0 : ℚ) < den := Nat.cast_pos.mpr hden
  have hpow : ∀ n, 0 < n → 10 ^ ((Nat.toDigits 10 n).length - 1) ≤ n := by
    intro n hn
    by_contra hlt
    rcases Nat.eq_zero_or_pos ((Nat.toDigits 10 n).length - 1) with h0 | h0
    · rw [h0] at hlt
      omega
    · have := (Nat.length_toDigits_le_iff (by norm_num) h0).mpr (not_le.mp hlt)
      omega
  have hlen : ∀ n : Nat, 1 ≤ (Nat.toDigits 10 n).length := fun n => Nat.length_toDigits_pos
  simp only [decimalPoint, Nat.pow_eq]
  split
  · next hle =>
      have hq := hpow (num / den) (Nat.div_pos hle hden)
      have hl := hlen (num / den)
      rw [le_div_iff₀ hden', show ((Nat.toDigits 10 (num / den)).length : Int) - 1 =
        ((Nat.toDigits 10 (num / den)).length - 1 : Nat) by omega, zpow_natCast]
      have := (Nat.le_div_iff_mul_le hden).mp hq
      exact_mod_cast this
  · -- a number below one is read off with 400 more places
    have hq := hpow (num * 10 ^ 400 / den) (Nat.div_pos h hden)
    have hl := hlen (num * 10 ^ 400 / den)
    show (10 : ℚ) ^ (((Nat.toDigits 10 (num * 10 ^ 400 / den)).length : Int) - 400 - 1) ≤ _
    rw [le_div_iff₀ hden', show ((Nat.toDigits 10 (num * 10 ^ 400 / den)).length : Int) - 400 - 1 =
      (((Nat.toDigits 10 (num * 10 ^ 400 / den)).length - 1 : Nat) : Int) - (400 : Nat) by omega,
      zpow_sub₀ (by norm_num), zpow_natCast, zpow_natCast, div_mul_eq_mul_div, div_le_iff₀
      (by positivity)]
    have := (Nat.le_div_iff_mul_le hden).mp hq
    have hcast : ((10 ^ ((Nat.toDigits 10 (num * 10 ^ 400 / den)).length - 1) * den : Nat) : ℚ) ≤
        (num * 10 ^ 400 : Nat) := Nat.cast_le.mpr this
    push_cast at hcast
    exact hcast

/-- No number is so small that its place of the point is cut off. -/
theorem interval_den_le {x : Binary64} (hm : 0 < x.significand) :
    x.interval.den ≤ x.interval.value * 10 ^ 400 := by
  show (scaleTwo 1 (x.exponent - 2)).2 ≤
    (scaleTwo (4 * x.significand) (x.exponent - 2)).1 * 10 ^ 400
  have hexp : -1074 ≤ x.exponent := by
    unfold exponent
    split <;> omega
  simp only [scaleTwo, Nat.pow_eq]
  split
  · exact Nat.mul_pos (Nat.mul_pos (by omega) (by positivity)) (by positivity)
  · calc 2 ^ (-(x.exponent - 2)).toNat ≤ 2 ^ 1200 := Nat.pow_le_pow_right (by norm_num) (by omega)
      _ = (2 ^ 3) ^ 400 := by rw [← pow_mul]
      _ ≤ 10 ^ 400 := Nat.pow_le_pow_left (by norm_num) _
      _ ≤ 4 * x.significand * 10 ^ 400 := Nat.le_mul_of_pos_left _ (by omega)

/-- The search ends at a grid that has a multiple in the interval, if one of its grids does. -/
theorem search_spec {x : Binary64} (hm : 0 < x.significand) (point : Int) (tries : Nat) :
    ∀ count : Nat,
      (∃ j < tries, ∃ n, x.interval.neighbour? (point - (count + j : Nat)) = some n) →
      0 < (search x.interval point tries count).1 ∧
        x.RoundsTo ((search x.interval point tries count).1 *
          10 ^ (search x.interval point tries count).2) := by
  induction tries with
  | zero =>
      rintro count ⟨j, hj, -⟩
      omega
  | succ tries ih =>
      rintro count ⟨j, hj, n, hn⟩
      rcases x.interval.neighbour?_cases (point - count) with ⟨d, hd, hpos, hhas⟩ | ⟨hnone, -⟩
      · simp only [search, hd]
        exact ⟨hpos, (hasAt_iff hm _ _).mp hhas⟩
      · simp only [search, hnone]
        refine ih (count + 1) ⟨j - 1, ?_⟩
        have hj0 : j ≠ 0 := by
          rintro rfl
          rw [Nat.add_zero, hnone] at hn
          exact absurd hn (by simp)
        exact ⟨by omega, n, by rw [← hn]; congr 2; omega⟩

theorem stripZeros_spec (tries : Nat) : ∀ (digits : Nat) (k : Int), 0 < digits →
    0 < (stripZeros tries digits k).1 ∧
      ((stripZeros tries digits k).1 : ℚ) * 10 ^ (stripZeros tries digits k).2 =
        digits * 10 ^ k := by
  induction tries with
  | zero => exact fun digits k h => ⟨h, rfl⟩
  | succ tries ih =>
      intro digits k h
      unfold stripZeros
      split
      · next hten =>
          simp only [Bool.and_eq_true, decide_eq_true_eq, bne_iff_ne] at hten
          obtain ⟨hpos, hval⟩ := ih (digits / 10) (k + 1) (by omega)
          refine ⟨hpos, hval.trans ?_⟩
          have hdigits : (digits : ℚ) = (digits / 10 : Nat) * 10 := by
            exact_mod_cast (by omega : digits = digits / 10 * 10)
          rw [hdigits, zpow_add₀ (by norm_num), zpow_one]
          ring
      · exact ⟨h, rfl⟩

/-- **The shortest decimal rounds to its number.** -/
theorem roundsTo_shortest {x : Binary64} (hm : 0 < x.significand) :
    0 < x.shortest.1 ∧ x.RoundsTo (x.shortest.1 * 10 ^ x.shortest.2) := by
  have hden := x.interval_den_pos
  have hden' : (0 : ℚ) < x.interval.den := Nat.cast_pos.mpr hden
  have hvalue : (x.interval.value : ℚ) / x.interval.den = 4 * x.significand * x.quarter := by
    rw [interval_value, mul_div_cancel_right₀ _ hden'.ne']
  set point := decimalPoint x.interval.value x.interval.den with hpoint
  have hle := pow_decimalPoint_le hden (interval_den_le hm)
  rw [← hpoint, hvalue] at hle
  have hgrid : (10 : ℚ) ^ 16 * 10 ^ (point - 17) ≤ 4 * x.significand * x.quarter := by
    refine le_trans (le_of_eq ?_) hle
    rw [← zpow_natCast, ← zpow_add₀ (by norm_num)]
    congr 1
    push_cast
    ring
  obtain ⟨hpos, hrounds⟩ := search_spec hm point 18 1
    ⟨16, by norm_num, exists_neighbour hm (by exact_mod_cast hgrid)⟩
  obtain ⟨hpos', hval⟩ := stripZeros_spec 20 _ (search x.interval point 18 1).2 hpos
  show 0 < (stripZeros 20 (search x.interval point 18 1).1 (search x.interval point 18 1).2).1 ∧ _
  exact ⟨hpos', by rw [← hval] at hrounds; exact hrounds⟩

end ChangeScope.Binary64
