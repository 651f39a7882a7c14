import ChangeScope.Proofs.Binary64.Shortest

/-!
# Decimals are read as the numbers that they round to

A fraction becomes the number whose rounding interval it lies in, and infinity from the end of the
greatest interval on (`ofFraction_spec`); so does a decimal (`ofDecimal_spec`).
-/

set_option autoImplicit false

namespace ChangeScope.Binary64

theorem two_zpow_pos (e : Int) : (0 : ℚ) < 2 ^ e := zpow_pos (by norm_num) e

theorem two_zpow_le {a b : Int} (h : a ≤ b) : (2 : ℚ) ^ a ≤ 2 ^ b :=
  zpow_le_zpow_right₀ (by norm_num) h

/-! ## Rounding to natural numbers -/

/-- The natural number is nearest to the rational, the even one of two. -/
def IsRounded (m : Nat) (q : ℚ) : Prop :=
  (2 * m - 1 : ℚ) ≤ 2 * q ∧ 2 * q ≤ 2 * m + 1 ∧
    (m % 2 = 1 → (2 * m - 1 : ℚ) < 2 * q ∧ 2 * q < 2 * m + 1)

theorem isRounded_roundDiv (num : Nat) {den : Nat} (hden : 0 < den) :
    IsRounded (roundDiv num den) (num / den) := by
  have hden' : (0 : ℚ) < den := Nat.cast_pos.mpr hden
  have hrest : num % den < den := Nat.mod_lt num hden
  have hsum : (num : ℚ) = den * (num / den : Nat) + (num % den : Nat) := by
    exact_mod_cast (Nat.div_add_mod num den).symm
  have hvalue : 2 * (num / den : ℚ) = 2 * (num / den : Nat) + 2 * (num % den : Nat) / den := by
    rw [hsum]
    field_simp
  have hlow : (0 : ℚ) ≤ 2 * (num % den : Nat) / den := by positivity
  have hhigh : (2 * (num % den : Nat) / den : ℚ) < 2 := by
    rw [div_lt_iff₀ hden']
    exact_mod_cast Nat.mul_lt_mul_of_pos_left hrest (by decide)
  have hbelow : 2 * (num % den) < den → (2 * (num % den : Nat) / den : ℚ) < 1 := by
    intro h
    rw [div_lt_one hden']
    exact_mod_cast h
  have habove : den < 2 * (num % den) → (1 : ℚ) < 2 * (num % den : Nat) / den := by
    intro h
    rw [one_lt_div hden']
    exact_mod_cast h
  have htie : 2 * (num % den) = den → (2 * (num % den : Nat) / den : ℚ) = 1 := by
    intro h
    rw [div_eq_one_iff_eq hden'.ne']
    exact_mod_cast h
  generalize (2 * (num % den : Nat) / den : ℚ) = part at *
  -- up, down, or to the even one of two, by how twice the rest compares with the denominator
  unfold IsRounded roundDiv
  rw [hvalue]
  dsimp only
  split
  · next h =>
      have := hbelow h
      exact ⟨by linarith, by linarith, fun _ => ⟨by linarith, by linarith⟩⟩
  split
  · next h =>
      have := habove h
      push_cast
      exact ⟨by linarith, by linarith, fun _ => ⟨by linarith, by linarith⟩⟩
  have hone := htie (by omega)
  split
  · next h => exact ⟨by linarith, by linarith, fun hodd => absurd hodd (by omega)⟩
  · push_cast
    exact ⟨by linarith, by linarith, fun hodd => absurd hodd (by omega)⟩

/-! ## The exponent of a fraction -/

/-- The numerator and denominator of a fraction divided by `2 ^ k`. -/
def shifted (num den : Nat) (k : Int) : Nat × Nat :=
  if 0 ≤ k then (num, den * Nat.pow 2 k.toNat) else (num * Nat.pow 2 (-k).toNat, den)

theorem shifted_spec (num : Nat) {den : Nat} (hden : 0 < den) (k : Int) :
    0 < (shifted num den k).2 ∧
      ((shifted num den k).1 / (shifted num den k).2 : ℚ) = num / den / 2 ^ k := by
  unfold shifted
  simp only [Nat.pow_eq]
  split
  · next h =>
      obtain ⟨j, rfl⟩ := Int.eq_ofNat_of_zero_le h
      refine ⟨by positivity, ?_⟩
      push_cast
      rw [Int.toNat_natCast, zpow_natCast, div_div]
  · next h =>
      obtain ⟨j, hj⟩ := Int.eq_ofNat_of_zero_le (show 0 ≤ -k by omega)
      refine ⟨hden, ?_⟩
      rw [hj, show k = -(j : Int) by omega]
      push_cast
      rw [Int.toNat_natCast, zpow_neg, zpow_natCast, div_inv_eq_mul]
      ring

/-- The binary logarithms of a fraction's parts bound it. -/
theorem log2_bounds {num den : Nat} (hnum : 0 < num) (hden : 0 < den) :
    (2 : ℚ) ^ ((Nat.log2 num : Int) - Nat.log2 den - 1) ≤ num / den ∧
      (num / den : ℚ) < 2 ^ ((Nat.log2 num : Int) - Nat.log2 den + 1) := by
  have hden' : (0 : ℚ) < den := Nat.cast_pos.mpr hden
  have hnumLow : (2 : ℚ) ^ (Nat.log2 num : Int) ≤ num := by
    exact_mod_cast Nat.log2_self_le hnum.ne'
  have hnumHigh : (num : ℚ) < 2 ^ ((Nat.log2 num : Int) + 1) := by
    exact_mod_cast Nat.lt_log2_self (n := num)
  have hdenLow : (2 : ℚ) ^ (Nat.log2 den : Int) ≤ den := by
    exact_mod_cast Nat.log2_self_le hden.ne'
  have hdenHigh : (den : ℚ) < 2 ^ ((Nat.log2 den : Int) + 1) := by
    exact_mod_cast Nat.lt_log2_self (n := den)
  generalize (Nat.log2 num : Int) = a at *
  generalize (Nat.log2 den : Int) = b at *
  constructor
  · rw [le_div_iff₀ hden']
    calc (2 : ℚ) ^ (a - b - 1) * den ≤ 2 ^ (a - b - 1) * 2 ^ (b + 1) := by gcongr
      _ = 2 ^ a := by rw [← zpow_add₀ (by norm_num)]; congr 1; ring
      _ ≤ num := hnumLow
  · rw [div_lt_iff₀ hden']
    calc (num : ℚ) < 2 ^ (a + 1) := hnumHigh
      _ = 2 ^ (a - b + 1) * 2 ^ b := by rw [← zpow_add₀ (by norm_num)]; congr 1; ring
      _ ≤ 2 ^ (a - b + 1) * den := by gcongr

/-- The exponent gives the fraction a significand of 53 bits, or is the least one. -/
theorem exponentFor_spec {num den : Nat} (hnum : 0 < num) (hden : 0 < den) :
    -1074 ≤ exponentFor num den ∧ (num / den : ℚ) < 2 ^ (exponentFor num den + 53) ∧
      (-1074 < exponentFor num den → (2 : ℚ) ^ (exponentFor num den + 52) ≤ num / den) := by
  obtain ⟨hlow, hhigh⟩ := log2_bounds hnum hden
  set guess : Int := (Nat.log2 num : Int) - Nat.log2 den - 52 with hguess
  rw [show (Nat.log2 num : Int) - Nat.log2 den - 1 = guess + 51 by omega] at hlow
  rw [show (Nat.log2 num : Int) - Nat.log2 den + 1 = guess + 53 by omega] at hhigh
  obtain ⟨hpos, hvalue⟩ := shifted_spec num hden guess
  -- the quotient is compared with the least significand of 53 bits
  have hsmall : (shifted num den guess).1 / (shifted num den guess).2 < 2 ^ 52 ↔
      (num / den : ℚ) < 2 ^ (guess + 52) := by
    have hpos' : (0 : ℚ) < (shifted num den guess).2 := Nat.cast_pos.mpr hpos
    rw [Nat.div_lt_iff_lt_mul hpos, zpow_add₀ (by norm_num), mul_comm ((2 : ℚ) ^ guess),
      ← div_lt_iff₀ (by positivity), ← hvalue, div_lt_iff₀ hpos']
    norm_cast
  have hexponent : exponentFor num den =
      max (if (shifted num den guess).1 / (shifted num den guess).2 < 2 ^ 52 then guess - 1
        else guess) (-1074) := rfl
  rw [hexponent]
  split
  · next h =>
      have habove := hsmall.mp h
      refine ⟨le_max_right _ _, habove.trans_le (two_zpow_le (by omega)), fun hleast => ?_⟩
      exact (two_zpow_le (by omega)).trans hlow
  · next h =>
      have habove := not_lt.mp (hsmall.not.mp h)
      refine ⟨le_max_right _ _, hhigh.trans_le (two_zpow_le (by omega)), fun hleast => ?_⟩
      exact (two_zpow_le (by omega)).trans habove

/-! ## Parts of a number -/

/-- The number with a biased exponent and a significand, whose first bit counts for the exponent. -/
def ofParts (biased significand : Nat) : Binary64 := ⟨(biased * 2 ^ 52 + significand).toUInt64⟩

theorem ofParts_spec {biased m : Nat} (h : biased * 2 ^ 52 + m < 2047 * 2 ^ 52) :
    (ofParts biased m).isNegative = false ∧
      (ofParts biased m).exponentBits = (biased * 2 ^ 52 + m) / 2 ^ 52 ∧
      (ofParts biased m).fractionBits = (biased * 2 ^ 52 + m) % 2 ^ 52 := by
  have hbits : (ofParts biased m).bits.toNat = biased * 2 ^ 52 + m := by
    show (Nat.toUInt64 _).toNat = _
    rw [Nat.toUInt64_eq, UInt64.toNat_ofNat']
    omega
  refine ⟨?_, ?_, ?_⟩
  · unfold isNegative
    rw [decide_eq_false_iff_not, UInt64.le_iff_toNat_le, hbits]
    show ¬ 2 ^ 63 ≤ _
    omega
  · unfold exponentBits
    rw [hbits]
    omega
  · unfold fractionBits
    rw [hbits]
    rfl

theorem reach_cases (x : Binary64) : x.reach = 2 ∨ x.reach = 1 ∧ 1 < x.exponentBits := by
  unfold reach
  split
  · next h =>
      rw [Bool.and_eq_true, decide_eq_true_eq, decide_eq_true_eq] at h
      exact Or.inr ⟨rfl, h.2⟩
  · exact Or.inl rfl

/-- A rounded significand has the rational in its interval. -/
theorem roundsTo_of_isRounded {x : Binary64} {q : ℚ} (hrounded : IsRounded x.significand q)
    (hreach : x.reach = 2 ∨ (4 * x.significand - 1 : ℚ) ≤ 4 * q) :
    x.RoundsTo (q * 2 ^ x.exponent) := by
  obtain ⟨hlow, hhigh, hodd⟩ := hrounded
  have hvalue : q * 2 ^ x.exponent = 4 * q * x.quarter := by
    unfold quarter
    rw [zpow_sub₀ (by norm_num)]
    ring
  have hpos := x.quarter_pos
  rw [hvalue]
  refine ⟨mul_le_mul_of_nonneg_right ?_ hpos.le, mul_le_mul_of_nonneg_right ?_ hpos.le,
    fun ho => ⟨?_, ?_⟩⟩
  · rcases hreach with hreach | hlow'
    · rw [hreach]
      push_cast
      linarith
    · have hone : (1 : ℚ) ≤ x.reach := by
        unfold reach
        split <;> norm_num
      linarith
  · linarith
  · -- the significand behind the short reach is even
    have hreach : x.reach = 2 := by
      refine x.reach_cases.resolve_right fun hone => ?_
      rw [significand_of_reach hone.1] at ho
      exact absurd ho (by decide)
    have hstrict := (hodd ho).1
    refine ne_of_lt (mul_lt_mul_of_pos_right ?_ hpos)
    rw [hreach]
    push_cast
    linarith
  · have hstrict := (hodd ho).2
    exact ne_of_lt (mul_lt_mul_of_pos_right (by linarith) hpos)

/-- The significand has 53 bits, unless the exponent is the least one. -/
theorem IsRounded.bounds {m : Nat} {v : ℚ} {e : Int} (h : IsRounded m (v / 2 ^ e))
    (hhigh : v < 2 ^ (e + 53)) (hlow : -1074 < e → (2 : ℚ) ^ (e + 52) ≤ v) :
    m ≤ 2 ^ 53 ∧ (-1074 < e → 2 ^ 52 ≤ m ∧ (2 : ℚ) ^ 52 ≤ v / 2 ^ e) := by
  have hpos := two_zpow_pos e
  constructor
  · have hq : v / 2 ^ e < 2 ^ 53 := by
      rw [div_lt_iff₀ hpos]
      calc v < 2 ^ (e + 53) := hhigh
        _ = 2 ^ 53 * 2 ^ e := by rw [zpow_add₀ (by norm_num), mul_comm]; rfl
    have hm : (m : ℚ) < 2 ^ 53 + 1 := by linarith [h.1]
    exact Nat.lt_add_one_iff.mp (by exact_mod_cast hm)
  · intro hleast
    have hq : (2 : ℚ) ^ 52 ≤ v / 2 ^ e := by
      rw [le_div_iff₀ hpos]
      calc (2 : ℚ) ^ 52 * 2 ^ e = 2 ^ (e + 52) := by
            rw [zpow_add₀ (by norm_num), mul_comm]; rfl
        _ ≤ v := hlow hleast
    have hm : (2 : ℚ) ^ 52 - 1 < m := by linarith [h.2.1]
    refine ⟨?_, hq⟩
    have hm' : (2 : ℚ) ^ 52 < m + 1 := by linarith
    exact Nat.lt_add_one_iff.mp (by exact_mod_cast hm')

/-- A significand with one bit too many makes the exponent one greater. -/
theorem ofParts_carry {k : Nat} (h : k * 2 ^ 52 + 2 ^ 53 < 2047 * 2 ^ 52) :
    (ofParts k (2 ^ 53)).exponent = (k : Int) - 1074 + 1 ∧
      (ofParts k (2 ^ 53)).significand = 2 ^ 52 := by
  obtain ⟨-, hexponent, hfraction⟩ := ofParts_spec h
  unfold exponent significand
  rw [if_neg (by omega), if_neg (by omega)]
  omega

/-- Any other significand is read back with its exponent. -/
theorem ofParts_parts {k m : Nat} (h : k * 2 ^ 52 + m < 2047 * 2 ^ 52) (hm : m < 2 ^ 53)
    (hnormal : 0 < k → 2 ^ 52 ≤ m) :
    (ofParts k m).exponent = (k : Int) - 1074 ∧ (ofParts k m).significand = m := by
  obtain ⟨-, hexponent, hfraction⟩ := ofParts_spec h
  unfold exponent significand
  constructor <;> split <;> omega

theorem ofParts_roundsTo {e : Int} {m : Nat} {v : ℚ} (he : -1074 ≤ e)
    (h : IsRounded m (v / 2 ^ e)) (hhigh : v < 2 ^ (e + 53))
    (hlow : -1074 < e → (2 : ℚ) ^ (e + 52) ≤ v)
    (hbits : (e + 1074).toNat * 2 ^ 52 + m < 2047 * 2 ^ 52) :
    (ofParts (e + 1074).toNat m).RoundsTo v := by
  obtain ⟨k, hk⟩ := Int.eq_ofNat_of_zero_le (show 0 ≤ e + 1074 by omega)
  obtain rfl : e = (k : Int) - 1074 := by omega
  rw [show ((k : Int) - 1074 + 1074).toNat = k by omega] at hbits ⊢
  obtain ⟨hm, hnormal⟩ := h.bounds hhigh hlow
  by_cases hcarry : m = 2 ^ 53
  · subst hcarry
    obtain ⟨hexponent, hsignificand⟩ := ofParts_carry hbits
    have hhalf : v = v / 2 ^ ((k : Int) - 1074) / 2 * 2 ^ (ofParts k (2 ^ 53)).exponent := by
      rw [hexponent, zpow_add_one₀ (by norm_num)]
      field_simp
    obtain ⟨hlow', hhigh', -⟩ := h
    push_cast at hlow' hhigh'
    rw [hhalf]
    refine roundsTo_of_isRounded ?_ (Or.inr ?_)
    · rw [hsignificand]
      refine ⟨?_, ?_, fun hodd => absurd hodd (by decide)⟩
      · push_cast
        linarith
      · push_cast
        linarith
    · rw [hsignificand]
      push_cast
      linarith
  · obtain ⟨hexponent, hsignificand⟩ := ofParts_parts hbits (by omega) fun hpos =>
      (hnormal (by omega)).1
    set x := ofParts k m
    have hv : v = v / 2 ^ ((k : Int) - 1074) * 2 ^ ((k : Int) - 1074) :=
      (div_mul_cancel₀ v (two_zpow_pos _).ne').symm
    rw [hv, ← hexponent]
    rw [← hexponent] at h hnormal
    refine roundsTo_of_isRounded (hsignificand ▸ h) ?_
    rcases x.reach_cases with hreach | ⟨hone, hleast⟩
    · exact Or.inl hreach
    · -- such a number has more than the least exponent
      have hgreater : -1074 < x.exponent := by
        unfold exponent
        split <;> omega
      have hq := (hnormal hgreater).2
      refine Or.inr ?_
      rw [significand_of_reach hone]
      push_cast
      linarith

/-! ## Fractions and decimals -/

/-- The end of the interval of the greatest number. -/
def overflow : ℚ := (2 ^ 54 - 1) * 2 ^ (970 : Int)

theorem overflow_bounds :
    (2 : ℚ) ^ (1023 : Int) < overflow ∧ overflow < 2 ^ (1024 : Int) := by
  have hunit := two_zpow_pos 970
  have hpower : ∀ j : Nat, (2 : ℚ) ^ (970 + (j : Int)) = 2 ^ j * 2 ^ (970 : Int) := by
    intro j
    rw [zpow_add₀ (by norm_num), zpow_natCast, mul_comm]
  have hbelow : (2 : ℚ) ^ (1023 : Int) = 2 ^ 53 * 2 ^ (970 : Int) := hpower 53
  have habove : (2 : ℚ) ^ (1024 : Int) = 2 ^ 54 * 2 ^ (970 : Int) := hpower 54
  unfold overflow
  rw [hbelow, habove]
  exact ⟨mul_lt_mul_of_pos_right (by norm_num) hunit, mul_lt_mul_of_pos_right (by norm_num) hunit⟩

theorem ofFraction_eq {num den : Nat} (hnum : 0 < num) :
    ofFraction num den =
      if (exponentFor num den + 1074).toNat * 2 ^ 52 +
          roundDiv (shifted num den (exponentFor num den)).1
            (shifted num den (exponentFor num den)).2 < 2047 * 2 ^ 52
      then ofParts (exponentFor num den + 1074).toNat
        (roundDiv (shifted num den (exponentFor num den)).1
          (shifted num den (exponentFor num den)).2)
      else infinity := by
  have hround : roundDiv (shifted num den (exponentFor num den)).1
      (shifted num den (exponentFor num den)).2 =
        if 0 ≤ exponentFor num den then
          roundDiv num (den * Nat.pow 2 (exponentFor num den).toNat)
        else roundDiv (num * Nat.pow 2 (-exponentFor num den).toNat) den := by
    unfold shifted
    split <;> rfl
  rw [hround]
  unfold ofFraction
  rw [if_neg hnum.ne']
  rfl

/-- The sum of the parts is that of a finite number just below the bound. -/
theorem parts_lt_iff {e : Int} {m : Nat} {v : ℚ} (he : -1074 ≤ e) (h : IsRounded m (v / 2 ^ e))
    (hhigh : v < 2 ^ (e + 53)) (hlow : -1074 < e → (2 : ℚ) ^ (e + 52) ≤ v) :
    (e + 1074).toNat * 2 ^ 52 + m < 2047 * 2 ^ 52 ↔ v < overflow := by
  obtain ⟨hm, hnormal⟩ := h.bounds hhigh hlow
  -- 971 is the exponent of the greatest numbers
  rcases lt_trichotomy e 971 with hsmall | rfl | hlarge
  · have hv : v < 2 ^ (1023 : Int) := hhigh.trans_le (two_zpow_le (by omega))
    exact iff_of_true (by omega) (hv.trans overflow_bounds.1)
  · have hunit := two_zpow_pos 970
    have hunit' : (2 : ℚ) ^ (971 : Int) = 2 * 2 ^ (970 : Int) := by
      rw [show (971 : Int) = 1 + 970 by rfl, zpow_add₀ (by norm_num), zpow_one]
    have hv : v = v / 2 ^ (971 : Int) * (2 * 2 ^ (970 : Int)) := by
      rw [← hunit', div_mul_cancel₀ v (two_zpow_pos _).ne']
    unfold overflow
    obtain ⟨hround, hround', hodd⟩ := h
    generalize v / 2 ^ (971 : Int) = q at *
    generalize (2 : ℚ) ^ (970 : Int) = unit at *
    have hbound : v < (2 ^ 54 - 1) * unit ↔ 2 * q < 2 ^ 54 - 1 := by
      rw [hv, show q * (2 * unit) = 2 * q * unit by ring, mul_lt_mul_iff_left₀ hunit]
    rw [hbound]
    rcases Nat.lt_or_ge m (2 ^ 53) with hlt | hge
    · refine iff_of_true (by omega) ?_
      rcases Nat.lt_or_ge m (2 ^ 53 - 1) with hlt' | hge'
      · have hm' : (m : ℚ) + 2 ≤ 2 ^ 53 := by exact_mod_cast show m + 2 ≤ 2 ^ 53 by omega
        linarith only [hm', hround']
      · -- the greatest significand is odd
        obtain rfl : m = 2 ^ 53 - 1 := by omega
        have hstrict := (hodd (by decide)).2
        push_cast at hstrict
        linarith only [hstrict]
    · refine iff_of_false (by omega) (not_lt.mpr ?_)
      have hm' : (2 : ℚ) ^ 53 ≤ m := by exact_mod_cast hge
      linarith only [hm', hround]
  · obtain ⟨hm', -⟩ := hnormal (by omega)
    have hv : (2 : ℚ) ^ (1024 : Int) ≤ v := (two_zpow_le (by omega)).trans (hlow (by omega))
    exact iff_of_false (by omega) (not_lt.mpr (overflow_bounds.2.le.trans hv))

theorem isFinite_ofParts {biased m : Nat} (h : biased * 2 ^ 52 + m < 2047 * 2 ^ 52) :
    (ofParts biased m).isFinite = true := by
  obtain ⟨-, hexponent, -⟩ := ofParts_spec h
  unfold isFinite
  rw [hexponent, decide_eq_true_eq]
  omega

theorem zero_roundsTo {q : ℚ} (hlow : 0 ≤ q) (hhigh : q ≤ 2 ^ (-1075 : Int)) : zero.RoundsTo q := by
  have hquarter : zero.quarter = 2 ^ (-1076 : Int) := rfl
  have hdouble : (2 : ℚ) ^ (-1075 : Int) = 2 * 2 ^ (-1076 : Int) := by
    rw [show (-1075 : Int) = 1 + -1076 by rfl, zpow_add₀ (by norm_num), zpow_one]
  have hpos := zero.quarter_pos
  rw [← hquarter] at hdouble
  rw [hdouble] at hhigh
  have hsignificand : zero.significand = 0 := rfl
  have hreach : zero.reach = 2 := rfl
  unfold RoundsTo
  rw [hsignificand, hreach]
  push_cast
  exact ⟨by linarith only [hpos, hlow], by linarith only [hhigh],
    fun hodd => absurd hodd (by decide)⟩

/-- The number is the one that the rational rounds to, or infinity from the bound on. -/
structure IsNearestTo (x : Binary64) (q : ℚ) : Prop where
  finite : x.isFinite = true ↔ q < overflow
  positive : x.isNegative = false
  rounds : x.isFinite = true → x.RoundsTo q

theorem isNearestTo_zero {q : ℚ} (hlow : 0 ≤ q) (hhigh : q ≤ 2 ^ (-1075 : Int)) :
    zero.IsNearestTo q where
  finite := by
    have hbelow : (2 : ℚ) ^ (-1075 : Int) ≤ 2 ^ (1023 : Int) := two_zpow_le (by decide)
    exact iff_of_true rfl ((hhigh.trans hbelow).trans_lt overflow_bounds.1)
  positive := rfl
  rounds _ := zero_roundsTo hlow hhigh

/-- **A fraction becomes the number that it rounds to**, or infinity from the bound on. -/
theorem ofFraction_spec (num : Nat) {den : Nat} (hden : 0 < den) :
    (ofFraction num den).IsNearestTo (num / den) := by
  rcases Nat.eq_zero_or_pos num with rfl | hnum
  · have hzero : ofFraction 0 den = zero := rfl
    rw [hzero, Nat.cast_zero, zero_div]
    exact isNearestTo_zero le_rfl (two_zpow_pos _).le
  obtain ⟨hleast, hhigh, hlow⟩ := exponentFor_spec hnum hden
  obtain ⟨hpos, hvalue⟩ := shifted_spec num hden (exponentFor num den)
  have hrounded := isRounded_roundDiv (shifted num den (exponentFor num den)).1 hpos
  rw [hvalue] at hrounded
  have hbound := parts_lt_iff hleast hrounded hhigh hlow
  rw [ofFraction_eq hnum]
  split
  · next hfinite =>
      exact ⟨iff_of_true (isFinite_ofParts hfinite) (hbound.mp hfinite), (ofParts_spec hfinite).1,
        fun _ => ofParts_roundsTo hleast hrounded hhigh hlow hfinite⟩
  · next hinfinite =>
      exact ⟨iff_of_false (by decide) (hbound.not.mp hinfinite), rfl,
        fun h => absurd h (by decide)⟩

theorem two_pow_le_ten_pow {k : Int} (hk : 0 ≤ k) : (2 : ℚ) ^ (3 * k) ≤ 10 ^ k := by
  rw [zpow_mul]
  exact zpow_le_zpow_left₀ hk (by positivity) (by norm_num)

/-- A decimal with a great exponent is great. -/
theorem le_decimal {digits : Nat} {exponent : Int} (hdigits : 1 ≤ digits) (h : 400 < exponent) :
    (2 : ℚ) ^ (1024 : Int) ≤ digits * 10 ^ exponent := by
  have hdigits' : (1 : ℚ) ≤ digits := by exact_mod_cast hdigits
  calc (2 : ℚ) ^ (1024 : Int) ≤ 2 ^ (3 * exponent) := two_zpow_le (by omega)
    _ ≤ 10 ^ exponent := two_pow_le_ten_pow (by omega)
    _ ≤ digits * 10 ^ exponent := le_mul_of_one_le_left (by positivity) hdigits'

/-- A decimal with few digits for its exponent is small. -/
theorem decimal_le {digits : Nat} {exponent : Int}
    (h : (Nat.log2 digits : Int) / 3 + exponent < -400) :
    (digits * 10 ^ exponent : ℚ) ≤ 2 ^ (-1075 : Int) := by
  obtain ⟨k, hk⟩ : ∃ k, k = (Nat.log2 digits : Int) / 3 := ⟨_, rfl⟩
  rw [← hk] at h
  have hbound : (digits : ℚ) ≤ 10 ^ (k + 1) := by
    calc (digits : ℚ) ≤ 2 ^ ((Nat.log2 digits : Int) + 1) := by
          exact_mod_cast (Nat.lt_log2_self (n := digits)).le
      _ ≤ 2 ^ (3 * (k + 1)) := two_zpow_le (by omega)
      _ ≤ 10 ^ (k + 1) := two_pow_le_ten_pow (by omega)
  have hsmall : (10 : ℚ) ^ (k + 1 + exponent) ≤ (10 ^ (400 : Int))⁻¹ := by
    rw [← zpow_neg]
    exact zpow_le_zpow_right₀ (by norm_num) (by omega)
  calc (digits * 10 ^ exponent : ℚ) ≤ 10 ^ (k + 1) * 10 ^ exponent := by gcongr
    _ = 10 ^ (k + 1 + exponent) := (zpow_add₀ (by norm_num) _ _).symm
    _ ≤ (10 ^ (400 : Int))⁻¹ := hsmall
    _ ≤ (2 ^ (3 * 400 : Int))⁻¹ :=
        inv_anti₀ (two_zpow_pos _) (two_pow_le_ten_pow (by decide))
    _ = 2 ^ (-(3 * 400) : Int) := (zpow_neg _ _).symm
    _ ≤ 2 ^ (-1075 : Int) := two_zpow_le (by decide)

/-- **A decimal becomes the number that it rounds to**, or infinity from the bound on. -/
theorem ofDecimal_spec (digits : Nat) (exponent : Int) :
    (ofDecimal digits exponent).IsNearestTo (digits * 10 ^ exponent) := by
  have hnonneg : (0 : ℚ) ≤ digits * 10 ^ exponent := by positivity
  unfold ofDecimal
  dsimp only
  by_cases hdigits : digits = 0
  · rw [if_pos hdigits]
    refine isNearestTo_zero hnonneg ?_
    rw [hdigits, Nat.cast_zero, zero_mul]
    exact (two_zpow_pos _).le
  rw [if_neg hdigits]
  by_cases hlarge : 400 < exponent
  · rw [if_pos hlarge]
    refine ⟨iff_of_false (by decide) (not_lt.mpr ?_), rfl, fun h => absurd h (by decide)⟩
    exact overflow_bounds.2.le.trans (le_decimal (Nat.one_le_iff_ne_zero.mpr hdigits) hlarge)
  rw [if_neg hlarge]
  by_cases hsmall : (Nat.log2 digits : Int) / 3 + exponent < -400
  · rw [if_pos hsmall]
    exact isNearestTo_zero hnonneg (decimal_le hsmall)
  -- between the two bounds the power of ten goes into the numerator or into the denominator
  rw [if_neg hsmall]
  split
  · next hpos =>
      obtain ⟨k, rfl⟩ := Int.eq_ofNat_of_zero_le hpos
      have hvalue : (digits * 10 ^ (k : Int) : ℚ) = (digits * 10 ^ k : Nat) / (1 : Nat) := by
        rw [zpow_natCast]
        push_cast
        rw [div_one]
      rw [Nat.pow_eq, Int.toNat_natCast, hvalue]
      exact ofFraction_spec _ one_pos
  · next hneg =>
      obtain ⟨k, hk⟩ := Int.eq_ofNat_of_zero_le (show 0 ≤ -exponent by omega)
      obtain rfl : exponent = -(k : Int) := by omega
      have hvalue : (digits * 10 ^ (-(k : Int)) : ℚ) = digits / (10 ^ k : Nat) := by
        rw [zpow_neg, zpow_natCast]
        push_cast
        rw [div_eq_mul_inv]
      rw [Nat.pow_eq, neg_neg, Int.toNat_natCast, hvalue]
      exact ofFraction_spec _ (by positivity)

/-- What rounds to a finite number lies below the bound. -/
theorem RoundsTo.lt_overflow {x : Binary64} {q : ℚ} (h : x.RoundsTo q)
    (hfinite : x.isFinite = true) : q < overflow := by
  have hexponent : x.exponent ≤ 971 := by
    unfold isFinite at hfinite
    rw [decide_eq_true_eq] at hfinite
    unfold exponent
    split <;> omega
  have hquarter : x.quarter ≤ 2 ^ (969 : Int) := two_zpow_le (by omega)
  have hunit := two_zpow_pos 969
  have hoverflow : overflow = (2 ^ 55 - 2) * 2 ^ (969 : Int) := by
    unfold overflow
    rw [show (970 : Int) = 1 + 969 by rfl, zpow_add₀ (by norm_num), zpow_one]
    ring
  have hsignificand := x.significand_lt
  have hend : ∀ m : Nat, x.significand ≤ m →
      (4 * x.significand + 2 : ℚ) * x.quarter ≤ (4 * m + 2) * 2 ^ (969 : Int) := by
    intro m hm
    have hm' : (x.significand : ℚ) ≤ m := by exact_mod_cast hm
    have hnonneg : (0 : ℚ) ≤ 4 * m + 2 := by linarith only [hm', Nat.cast_nonneg' (α := ℚ) m]
    exact mul_le_mul (by linarith only [hm']) hquarter x.quarter_pos.le hnonneg
  rw [hoverflow]
  -- the interval of the greatest number is open, as its significand is odd
  by_cases hodd : x.significand % 2 = 1
  · have hbound := hend (2 ^ 53 - 1) (by omega)
    have hlt := lt_of_le_of_ne h.2.1 (h.2.2 hodd).2
    refine (hlt.trans_le hbound).trans_eq ?_
    norm_num
  · have hbound := hend (2 ^ 53 - 2) (by omega)
    refine (h.2.1.trans hbound).trans_lt (mul_lt_mul_of_pos_right ?_ hunit)
    norm_num

/-- The highest bit is set by adding it. -/
theorem xor_two_pow {a i : Nat} (h : a < 2 ^ i) : a ^^^ 2 ^ i = 2 ^ i + a := by
  apply Nat.eq_of_testBit_eq
  intro j
  rw [Nat.testBit_xor, Nat.testBit_two_pow]
  rcases lt_trichotomy j i with hj | rfl | hj
  · rw [Nat.testBit_two_pow_add_gt hj, decide_eq_false hj.ne', Bool.xor_false]
  · rw [Nat.testBit_two_pow_add_eq, decide_eq_true rfl, Bool.xor_true]
  · have hpow : 2 ^ (i + 1) ≤ 2 ^ j := Nat.pow_le_pow_right (by decide) hj
    rw [pow_succ] at hpow
    rw [Nat.testBit_lt_two_pow (by omega), Nat.testBit_lt_two_pow (by omega),
      decide_eq_false hj.ne, Bool.xor_false]

/-- The opposite number differs in the sign alone. -/
theorem neg_spec {x : Binary64} (h : x.isNegative = false) :
    x.neg.isNegative = true ∧ x.neg.isFinite = x.isFinite ∧
      ∀ q, x.neg.RoundsTo q ↔ x.RoundsTo q := by
  have hsmall : x.bits.toNat < 2 ^ 63 := by
    unfold isNegative at h
    rw [decide_eq_false_iff_not, UInt64.le_iff_toNat_le] at h
    exact not_le.mp h
  have hbits : x.neg.bits.toNat = 2 ^ 63 + x.bits.toNat := by
    show (x.bits ^^^ 0x8000000000000000).toNat = _
    rw [UInt64.toNat_xor]
    exact xor_two_pow hsmall
  have hexponent : x.neg.exponentBits = x.exponentBits := by
    unfold exponentBits
    rw [hbits]
    omega
  have hfraction : x.neg.fractionBits = x.fractionBits := by
    unfold fractionBits
    rw [hbits]
    omega
  refine ⟨?_, ?_, fun q => ?_⟩
  · unfold isNegative
    rw [decide_eq_true_eq, UInt64.le_iff_toNat_le, hbits]
    exact Nat.le_add_right _ _
  · unfold isFinite
    rw [hexponent]
  · unfold RoundsTo quarter reach significand exponent
    rw [hexponent, hfraction]

end ChangeScope.Binary64
