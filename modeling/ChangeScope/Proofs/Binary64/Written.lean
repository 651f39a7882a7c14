import ChangeScope.Proofs.Binary64.Shortest
import ChangeScope.Proofs.Text.Digits

/-!
# Different numbers are written differently

The written form of a binary64 number can be read back as the decimal it was made from
(`decimalValue_layout`), and that decimal rounds to no other number, so two numbers are never
written alike (`toText_injective`).
-/

set_option autoImplicit false

namespace ChangeScope.Binary64

open ChangeScope.Text

/-! ## The layout of a decimal -/

/-- The text of `digits · 10 ^ k` without a sign. -/
def layout (digits : Nat) (k : Int) : List Char :=
  let ds := Nat.toDigits 10 digits
  let point : Int := ds.length + k
  if 0 ≤ k && point ≤ 16 then ds ++ List.replicate k.toNat '0' ++ ['.', '0']
  else if 0 < point && point ≤ 16 then ds.take point.toNat ++ '.' :: ds.drop point.toNat
  else if -5 < point && point ≤ 0 then ['0', '.'] ++ List.replicate (-point).toNat '0' ++ ds
  else
    let exponent := (toString (point - 1)).toList
    match ds with
    | [] => []
    | [d] => d :: 'e' :: exponent
    | d :: rest => d :: '.' :: rest ++ 'e' :: exponent

/-- The sign of a written number. -/
def signText (x : Binary64) : List Char := if x.isNegative then ['-'] else []

/-! ## Reading a layout back -/

/-- The integer of some decimal digits, perhaps after a minus sign. -/
def integerValue : List Char → Int
  | '-' :: ds => -(Nat.ofDigitChars 10 ds 0 : Int)
  | ds => Nat.ofDigitChars 10 ds 0

/-- The rational that a decimal text without a sign stands for. -/
def decimalValue (cs : List Char) : ℚ :=
  let mantissa := cs.takeWhile (· != 'e')
  let fraction := (mantissa.dropWhile (· != '.')).drop 1
  Nat.ofDigitChars 10 (mantissa.takeWhile (· != '.') ++ fraction) 0 *
    10 ^ (integerValue ((cs.dropWhile (· != 'e')).drop 1) - fraction.length)

theorem isDigits_replicate (n : Nat) : IsDigits (List.replicate n '0') := by
  intro c hc
  rw [List.eq_of_mem_replicate hc]
  rfl

/-- A text is cut at the first character of a kind that does not occur before. -/
theorem takeWhile_append_cons {a b : List Char} {d : Char} (ha : ∀ c ∈ a, (c != d) = true) :
    (a ++ d :: b).takeWhile (· != d) = a ∧ (a ++ d :: b).dropWhile (· != d) = d :: b := by
  rw [List.takeWhile_append_of_pos ha, List.dropWhile_append_of_pos ha]
  simp

theorem integerValue_toString (n : Int) : integerValue (toString n).toList = n := by
  cases n with
  | ofNat n =>
      have hdigits := isDigits_toDigits n
      have hne : ∀ ds, Nat.toDigits 10 n ≠ '-' :: ds := fun ds h => by
        have := hdigits '-' (by rw [h]; exact List.mem_cons_self)
        exact absurd this (by decide)
      show integerValue (Nat.repr n).toList = _
      rw [Nat.toList_repr]
      unfold integerValue
      split
      · next ds h => exact absurd h (hne ds)
      · simp
  | negSucc n =>
      show integerValue ("-" ++ Nat.repr (n + 1)).toList = _
      rw [String.toList_append, Nat.toList_repr]
      show -(Nat.ofDigitChars 10 (Nat.toDigits 10 (n + 1)) 0 : Int) = _
      rw [Nat.ofDigitChars_ten_toDigits]
      rfl

/-- A number with a point and no exponent holds no mark of one. -/
theorem not_mark_of_digits {whole fraction : List Char} (hw : IsDigits whole)
    (hf : IsDigits fraction) : ∀ c ∈ whole ++ '.' :: fraction, (c != 'e') = true := by
  intro c hc
  rcases List.mem_append.mp hc with h | h
  · exact hw.ne h rfl
  · rcases List.mem_cons.mp h with rfl | h
    · rfl
    · exact hf.ne h rfl

theorem decimalValue_point {whole fraction : List Char} (hw : IsDigits whole)
    (hf : IsDigits fraction) :
    decimalValue (whole ++ '.' :: fraction) =
      Nat.ofDigitChars 10 (whole ++ fraction) 0 * 10 ^ (-(fraction.length : Int)) := by
  have hall := not_mark_of_digits hw hf
  have hcut := takeWhile_append_cons (b := fraction) (fun c hc => hw.ne hc (d := '.') rfl)
  have htake : (whole ++ '.' :: fraction).takeWhile (· != 'e') = whole ++ '.' :: fraction :=
    List.takeWhile_eq_self_iff.mpr hall
  have hdrop : (whole ++ '.' :: fraction).dropWhile (· != 'e') = [] :=
    List.dropWhile_eq_nil_iff.mpr hall
  simp only [decimalValue, htake, hdrop, hcut.1, hcut.2]
  simp [integerValue]

theorem decimalValue_exponent {whole fraction : List Char} (hw : IsDigits whole)
    (hf : IsDigits fraction) (n : Int) :
    decimalValue (whole ++ '.' :: fraction ++ 'e' :: (toString n).toList) =
      Nat.ofDigitChars 10 (whole ++ fraction) 0 * 10 ^ (n - fraction.length) := by
  have hall := not_mark_of_digits hw hf
  have hcut := takeWhile_append_cons (b := fraction) (fun c hc => hw.ne hc (d := '.') rfl)
  have hcut' := takeWhile_append_cons (b := (toString n).toList) hall
  simp only [decimalValue, hcut'.1, hcut'.2, hcut.1, hcut.2, List.drop_succ_cons, List.drop_zero,
    integerValue_toString]

theorem decimalValue_bareExponent {whole : List Char} (hw : IsDigits whole) (n : Int) :
    decimalValue (whole ++ 'e' :: (toString n).toList) =
      Nat.ofDigitChars 10 whole 0 * 10 ^ n := by
  have hcut := takeWhile_append_cons (b := (toString n).toList) fun c hc => hw.ne hc (d := 'e') rfl
  have hpoint : ∀ c ∈ whole, (c != '.') = true := fun c hc => hw.ne hc rfl
  simp only [decimalValue, hcut.1, hcut.2, List.takeWhile_eq_self_iff.mpr hpoint,
    List.dropWhile_eq_nil_iff.mpr hpoint, List.drop_succ_cons, List.drop_zero,
    integerValue_toString]
  simp

/-! ## The value of a layout -/

theorem ofDigitChars_append_zeros (cs : List Char) (n : Nat) :
    Nat.ofDigitChars 10 (cs ++ List.replicate n '0') 0 = Nat.ofDigitChars 10 cs 0 * 10 ^ n := by
  rw [Nat.ofDigitChars_append, Nat.ofDigitChars_replicate_zero, Nat.mul_comm]

/-- **A layout reads back as its decimal.** -/
theorem decimalValue_layout (digits : Nat) (k : Int) :
    decimalValue (layout digits k) = digits * 10 ^ k := by
  have hds := isDigits_toDigits digits
  have hval : Nat.ofDigitChars 10 (Nat.toDigits 10 digits) 0 = digits :=
    Nat.ofDigitChars_ten_toDigits
  have hne : Nat.toDigits 10 digits ≠ [] := Nat.toDigits_ne_nil
  unfold layout
  generalize Nat.toDigits 10 digits = ds at hds hval hne ⊢
  have hzero : IsDigits ['0'] := isDigits_replicate 1
  simp only [Bool.and_eq_true, decide_eq_true_eq]
  split
  · next h =>
      -- zeros fill the places up to the point
      obtain ⟨j, rfl⟩ := Int.eq_ofNat_of_zero_le h.1
      rw [decimalValue_point (hds.append (isDigits_replicate _)) hzero,
        show ['0'] = List.replicate 1 '0' from rfl, ofDigitChars_append_zeros, Int.toNat_natCast,
        ofDigitChars_append_zeros, hval]
      push_cast
      rw [List.length_singleton, Nat.cast_one, zpow_neg, zpow_one, zpow_natCast]
      field_simp
  · split
    · next h =>
        -- the point falls among the digits
        have htake : IsDigits (ds.take (ds.length + k : Int).toNat) := fun c hc =>
          hds c (List.mem_of_mem_take hc)
        have hdrop : IsDigits (ds.drop (ds.length + k : Int).toNat) := fun c hc =>
          hds c (List.mem_of_mem_drop hc)
        rw [decimalValue_point htake hdrop, List.take_append_drop, hval, List.length_drop]
        congr 2
        omega
    · split
      · next h =>
          -- zeros stand between the point and the digits
          rw [show ['0', '.'] ++ List.replicate (-(ds.length + k : Int)).toNat '0' ++ ds =
              ['0'] ++ '.' :: (List.replicate (-(ds.length + k : Int)).toNat '0' ++ ds) from
              List.append_assoc _ _ _,
            decimalValue_point hzero ((isDigits_replicate _).append hds), ← List.append_assoc,
            show ['0'] = List.replicate 1 '0' from rfl, List.replicate_append_replicate,
            Nat.ofDigitChars_append, Nat.ofDigitChars_replicate_zero, Nat.mul_zero, hval,
            List.length_append, List.length_replicate]
          congr 2
          omega
      · -- an exponent follows the first digit and the fraction
        obtain ⟨d, rest, rfl⟩ := List.exists_cons_of_ne_nil hne
        cases rest with
        | nil =>
            refine (decimalValue_bareExponent hds _).trans ?_
            rw [hval]
            congr 2
            simp
        | cons d' rest =>
            have hfirst : IsDigits [d] := fun c hc => hds c (by simp_all)
            refine (decimalValue_exponent hfirst (fun c hc => hds c (List.mem_cons_of_mem _ hc))
              _).trans ?_
            rw [List.singleton_append, hval]
            congr 2
            simp only [List.length_cons]
            omega

/-! ## The written form as a whole -/

/-- The characters of written numbers. -/
def isNumeric (c : Char) : Bool := c.isDigit || c == '-' || c == '.' || c == 'e'

theorem isNumeric_toString {n : Int} {c : Char} (h : c ∈ (toString n).toList) :
    isNumeric c = true := by
  cases n with
  | ofNat n =>
      rw [show toString (Int.ofNat n) = Nat.repr n from rfl, Nat.toList_repr] at h
      simp [isNumeric, isDigits_toDigits n c h]
  | negSucc n =>
      rw [show toString (Int.negSucc n) = "-" ++ Nat.repr (n + 1) from rfl, String.toList_append,
        Nat.toList_repr] at h
      rcases List.mem_append.mp h with h | h
      · rw [show c = '-' by simpa using h]
        rfl
      · simp [isNumeric, isDigits_toDigits (n + 1) c h]

theorem isNumeric_of_digits {cs : List Char} (h : IsDigits cs) :
    ∀ c ∈ cs, isNumeric c = true := fun c hc => by simp [isNumeric, h c hc]

/-- A layout holds numeric characters only. -/
theorem isNumeric_layout (digits : Nat) (k : Int) :
    ∀ c ∈ layout digits k, isNumeric c = true := by
  have hds := isNumeric_of_digits (isDigits_toDigits digits)
  unfold layout
  generalize Nat.toDigits 10 digits = ds at hds ⊢
  intro c hc
  simp only at hc
  split at hc
  · simp only [List.mem_append, List.mem_cons, List.not_mem_nil, or_false] at hc
    rcases hc with (hc | hc) | rfl | rfl
    · exact hds c hc
    · exact isNumeric_of_digits (isDigits_replicate _) c hc
    · rfl
    · rfl
  · split at hc
    · simp only [List.mem_append, List.mem_cons] at hc
      rcases hc with hc | rfl | hc
      · exact hds c (List.mem_of_mem_take hc)
      · rfl
      · exact hds c (List.mem_of_mem_drop hc)
    · split at hc
      · simp only [List.mem_append, List.mem_cons, List.not_mem_nil, or_false] at hc
        rcases hc with ((rfl | rfl) | hc) | hc
        · rfl
        · rfl
        · exact isNumeric_of_digits (isDigits_replicate _) c hc
        · exact hds c hc
      · split at hc
        · exact absurd hc (by simp)
        · rcases List.mem_cons.mp hc with rfl | hc
          · exact hds _ List.mem_cons_self
          · rcases List.mem_cons.mp hc with rfl | hc
            · rfl
            · exact isNumeric_toString hc
        · simp only [List.cons_append, List.mem_cons, List.mem_append] at hc
          rcases hc with rfl | rfl | hc | rfl | hc
          · exact hds _ List.mem_cons_self
          · rfl
          · exact hds c (List.mem_cons_of_mem _ hc)
          · rfl
          · exact isNumeric_toString hc

/-- A layout begins with a digit and holds a point or an exponent. -/
theorem layout_shape (digits : Nat) (k : Int) :
    (∃ d rest, layout digits k = d :: rest ∧ d.isDigit = true) ∧
      ∃ c ∈ layout digits k, c = '.' ∨ c = 'e' := by
  have hds := isDigits_toDigits digits
  have hne : Nat.toDigits 10 digits ≠ [] := Nat.toDigits_ne_nil
  unfold layout
  generalize Nat.toDigits 10 digits = ds at hds hne ⊢
  obtain ⟨d, rest, rfl⟩ := List.exists_cons_of_ne_nil hne
  have hd := hds d List.mem_cons_self
  simp only [Bool.and_eq_true, decide_eq_true_eq]
  split
  · exact ⟨⟨d, _, rfl, hd⟩, '.', by simp, Or.inl rfl⟩
  · split
    · next h =>
        obtain ⟨n, hn⟩ : ∃ n, ((d :: rest).length + k : Int).toNat = n + 1 :=
          ⟨((d :: rest).length + k : Int).toNat - 1, by omega⟩
        rw [hn]
        exact ⟨⟨d, _, rfl, hd⟩, '.', by simp, Or.inl rfl⟩
    · split
      · exact ⟨⟨'0', _, rfl, rfl⟩, '.', by simp, Or.inl rfl⟩
      · cases rest with
        | nil => exact ⟨⟨d, _, rfl, hd⟩, 'e', by simp, Or.inr rfl⟩
        | cons d' rest => exact ⟨⟨d, _, rfl, hd⟩, '.', by simp, Or.inl rfl⟩

/-- The text of a number without its sign. -/
def unsignedText (x : Binary64) : List Char :=
  if x.significand = 0 then ['0', '.', '0'] else layout x.shortest.1 x.shortest.2

theorem toText_eq (x : Binary64) : x.toText = x.signText ++ x.unsignedText := by
  unfold unsignedText
  split
  · next h => rw [toText, if_pos h]; rfl
  · next h => rw [toText, if_neg h]; rfl

theorem isNumeric_toText (x : Binary64) : ∀ c ∈ x.toText, isNumeric c = true := by
  intro c hc
  rw [toText_eq, signText, unsignedText] at hc
  rcases List.mem_append.mp hc with h | h
  · split at h
    · rw [List.mem_singleton.mp h]
      rfl
    · exact absurd h List.not_mem_nil
  · split at h
    · simp only [List.mem_cons, List.not_mem_nil, or_false] at h
      rcases h with rfl | rfl | rfl <;> rfl
    · exact isNumeric_layout _ _ c h

theorem unsignedText_shape (x : Binary64) :
    (∃ d rest, x.unsignedText = d :: rest ∧ d.isDigit = true) ∧
      ∃ c ∈ x.unsignedText, c = '.' ∨ c = 'e' := by
  unfold unsignedText
  split
  · exact ⟨⟨'0', _, rfl, rfl⟩, '.', by simp, Or.inl rfl⟩
  · exact layout_shape _ _

/-- A written number holds a point or an exponent, which no written integer does. -/
theorem exists_mark_toText (x : Binary64) : ∃ c ∈ x.toText, c = '.' ∨ c = 'e' := by
  obtain ⟨c, hc, h⟩ := x.unsignedText_shape.2
  exact ⟨c, by rw [toText_eq]; exact List.mem_append_right _ hc, h⟩

theorem isNegative_of_toText {x y : Binary64} (h : x.toText = y.toText) :
    x.isNegative = y.isNegative ∧ x.unsignedText = y.unsignedText := by
  obtain ⟨d, rest, hx, hd⟩ := x.unsignedText_shape.1
  obtain ⟨d', rest', hy, hd'⟩ := y.unsignedText_shape.1
  have hdash : ∀ c : Char, c.isDigit = true → c ≠ '-' := by
    rintro c hc rfl
    exact absurd hc (by decide)
  rw [toText_eq, toText_eq, signText, signText, hx, hy] at h
  rw [hx, hy]
  cases hsx : x.isNegative <;> cases hsy : y.isNegative <;> simp only [hsx, hsy] at h
  · exact ⟨rfl, h⟩
  · exact absurd (List.cons.inj h).1 (hdash d hd)
  · exact absurd (List.cons.inj h).1.symm (hdash d' hd')
  · exact ⟨rfl, (List.cons.inj h).2⟩

theorem decimalValue_unsignedText_zero {x : Binary64} (h : x.significand = 0) :
    decimalValue x.unsignedText = 0 := by
  have hzero : IsDigits ['0'] := isDigits_replicate 1
  rw [unsignedText, if_pos h, show ['0', '.', '0'] = ['0'] ++ '.' :: ['0'] from rfl,
    decimalValue_point hzero hzero]
  exact zero_mul _

theorem decimalValue_unsignedText {x : Binary64} (h : x.significand ≠ 0) :
    0 < decimalValue x.unsignedText ∧ x.RoundsTo (decimalValue x.unsignedText) := by
  obtain ⟨hpos, hrounds⟩ := roundsTo_shortest (Nat.pos_of_ne_zero h)
  rw [unsignedText, if_neg h, decimalValue_layout]
  exact ⟨mul_pos (Nat.cast_pos.mpr hpos) (zpow_pos (by norm_num) _), hrounds⟩

/-- **Different numbers are written differently.** -/
theorem toText_injective {x y : Binary64} (h : x.toText = y.toText) : x = y := by
  obtain ⟨hs, hu⟩ := isNegative_of_toText h
  by_cases hx : x.significand = 0
  · by_cases hy : y.significand = 0
    · have hparts : ∀ z : Binary64, z.significand = 0 →
          z.exponentBits = 0 ∧ z.fractionBits = 0 := by
        intro z hz
        unfold significand at hz
        split at hz <;> omega
      obtain ⟨hxe, hxf⟩ := hparts x hx
      obtain ⟨hye, hyf⟩ := hparts y hy
      exact eq_of_parts hs (hxe.trans hye.symm) (hxf.trans hyf.symm)
    · have := (decimalValue_unsignedText hy).1
      rw [← hu, decimalValue_unsignedText_zero hx] at this
      exact absurd this (lt_irrefl 0)
  · by_cases hy : y.significand = 0
    · have := (decimalValue_unsignedText hx).1
      rw [hu, decimalValue_unsignedText_zero hy] at this
      exact absurd this (lt_irrefl 0)
    · exact eq_of_roundsTo hs (hu ▸ (decimalValue_unsignedText hx).2)
        (decimalValue_unsignedText hy).2

end ChangeScope.Binary64
