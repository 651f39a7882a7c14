import ChangeScope.Call.Argument
import ChangeScope.Proofs.Binary64.Nearest
import ChangeScope.Proofs.Text

/-!
# Number literals

A number is written as a sign, digits before and behind a point, and an exponent of ten, with
underscores between the digits. Underscores are dropped before it is read, so they may as well stand
elsewhere. An integer of 64 bits is read exactly, every other number as the binary64 number that it
rounds to, and one that is too large not at all (`numberLiteral?_text`, `numberLiteral?_literal`).
-/

set_option autoImplicit false

namespace ChangeScope.Call

open ChangeScope.Text
open ChangeScope.Binary64 (takeSign digitsValue ofText? ofDecimal overflow)

/-! ## Written numbers -/

/-- A sign in front of a number, or none. -/
def IsSign (cs : List Char) : Prop := cs = [] ∨ cs = ['+'] ∨ cs = ['-']

/-- An exponent of ten. -/
structure Power where
  letter : Char
  sign : List Char
  digits : List Char

/-- A number as it is written. -/
structure Numeral where
  sign : List Char
  whole : List Char
  /-- What stands behind the point, if there is one. -/
  fraction : Option (List Char)
  power : Option Power

def Power.text (p : Power) : List Char := p.letter :: (p.sign ++ p.digits)

/-- The text without the sign. -/
def Numeral.body (n : Numeral) : List Char :=
  n.whole ++ (n.fraction.elim [] ('.' :: ·) ++ n.power.elim [] Power.text)

def Numeral.text (n : Numeral) : List Char := n.sign ++ n.body

/-- Nothing but digits, at least one. -/
def IsRun (cs : List Char) : Prop := cs ≠ [] ∧ ∀ c ∈ cs, isAsciiDigit c = true

/-- Digits with single underscores between them. -/
inductive IsGrouped : List Char → Prop where
  | single {d : Char} (hd : isAsciiDigit d = true) : IsGrouped [d]
  | digit {d : Char} {rest : List Char} (hd : isAsciiDigit d = true) (hrest : IsGrouped rest) :
      IsGrouped (d :: rest)
  | underscore {d : Char} {rest : List Char} (hd : isAsciiDigit d = true)
      (hrest : IsGrouped rest) : IsGrouped (d :: '_' :: rest)

/-- The parts of a number are of the given kinds of digits. -/
structure Numeral.IsMadeOf (IsDigits : List Char → Prop) (n : Numeral) : Prop where
  sign : IsSign n.sign
  whole : n.whole = [] ∨ IsDigits n.whole
  fraction : ∀ f ∈ n.fraction, f = [] ∨ IsDigits f
  nonempty : n.whole ≠ [] ∨ ∃ f ∈ n.fraction, f ≠ []
  letter : ∀ p ∈ n.power, p.letter = 'e' ∨ p.letter = 'E'
  powerSign : ∀ p ∈ n.power, IsSign p.sign
  powerDigits : ∀ p ∈ n.power, IsDigits p.digits

/-- There is neither a point nor an exponent. -/
def Numeral.IsInteger (n : Numeral) : Prop := n.fraction = none ∧ n.power = none

/-- The number is a literal: underscores stand between digits, and an integer does not begin with a
zero unless it is zero. -/
structure Numeral.IsLiteral (n : Numeral) : Prop where
  grouped : n.IsMadeOf IsGrouped
  zero : n.IsInteger → n.whole.head? = some '0' → ∀ c ∈ n.whole, c = '0' ∨ c = '_'

/-! ## Values -/

def Numeral.isNegative (n : Numeral) : Bool := n.sign == ['-']

/-- The exponent of ten. -/
def Power.value (p : Power) : Int :=
  if p.sign = ['-'] then -(digitsValue p.digits : Int) else digitsValue p.digits

/-- The integer before the point. -/
def Numeral.integer (n : Numeral) : Int :=
  if n.isNegative then -(digitsValue n.whole : Int) else digitsValue n.whole

/-- The number of all digits without the point. -/
def Numeral.digits (n : Numeral) : Nat := digitsValue (n.whole ++ n.fraction.getD [])

/-- The exponent of ten of the last digit. -/
def Numeral.exponent (n : Numeral) : Int :=
  n.power.elim 0 Power.value - (n.fraction.getD []).length

/-- The number without its sign. -/
def Numeral.magnitude (n : Numeral) : ℚ := n.digits * 10 ^ n.exponent

/-- The integer has 64 bits. -/
def Fits (k : Int) : Prop := -2 ^ 63 ≤ k ∧ k < 2 ^ 63

instance (k : Int) : Decidable (Fits k) := inferInstanceAs (Decidable (_ ∧ _))

/-! ## Signs and exponents -/

theorem IsSign.mem {cs : List Char} (h : IsSign cs) {c : Char} (hc : c ∈ cs) :
    c = '+' ∨ c = '-' := by
  rcases h with rfl | rfl | rfl
  · exact absurd hc List.not_mem_nil
  · exact Or.inl (List.mem_singleton.mp hc)
  · exact Or.inr (List.mem_singleton.mp hc)

/-- A character of an integer is neither a point nor the letter of an exponent. -/
theorem no_mark {c : Char} (h : c = '+' ∨ c = '-' ∨ isAsciiDigit c = true ∨ c = '_') :
    c ≠ '.' ∧ c ≠ 'e' ∧ c ≠ 'E' := by
  refine ⟨?_, ?_, ?_⟩ <;> rintro rfl <;> exact absurd h (by decide)

/-- A sign is taken from a text that goes on without one. -/
theorem takeSign_append {sign body : List Char} (hsign : IsSign sign)
    (hbody : ∀ c, body.head? = some c → c ≠ '+' ∧ c ≠ '-') :
    takeSign (sign ++ body) = (sign == ['-'], body) := by
  rcases hsign with rfl | rfl | rfl
  · rw [List.nil_append]
    unfold takeSign
    split
    · exact absurd rfl (hbody '-' rfl).2
    · exact absurd rfl (hbody '+' rfl).1
    · rfl
  · rfl
  · rfl

theorem exists_of_takeSign (cs : List Char) :
    ∃ sign, IsSign sign ∧ cs = sign ++ (takeSign cs).2 := by
  unfold takeSign
  split
  · exact ⟨['-'], Or.inr (Or.inr rfl), rfl⟩
  · exact ⟨['+'], Or.inr (Or.inl rfl), rfl⟩
  · exact ⟨[], Or.inl rfl, rfl⟩

theorem isRun_iff {cs : List Char} :
    (cs.isEmpty || !cs.all isAsciiDigit) = false ↔ IsRun cs := by
  unfold IsRun
  rw [Bool.or_eq_false_iff, List.isEmpty_eq_false_iff, Bool.not_eq_false', List.all_eq_true]

theorem exponent?_text {p : Power} (hletter : p.letter = 'e' ∨ p.letter = 'E')
    (hsign : IsSign p.sign) (hdigits : IsRun p.digits) :
    Binary64.exponent? p.text = some p.value := by
  have hbody : ∀ c, p.digits.head? = some c → c ≠ '+' ∧ c ≠ '-' := by
    intro c hc
    have hdigit := hdigits.2 c (List.mem_of_head? hc)
    exact ⟨ne_of_kind hdigit (by decide), ne_of_kind hdigit (by decide)⟩
  have hletter' : (decide (p.letter = 'e') || decide (p.letter = 'E')) = true := by
    simpa using hletter
  unfold Binary64.exponent? Power.text
  dsimp only
  rw [if_pos hletter', takeSign_append hsign hbody]
  dsimp only
  rw [isRun_iff.mpr hdigits, if_neg Bool.false_ne_true, Power.value]
  simp only [beq_iff_eq]

/-- What is read as an exponent is none, or is written as one. -/
theorem exists_of_exponent? {cs : List Char} {k : Int} (h : Binary64.exponent? cs = some k) :
    ∃ power : Option Power, cs = power.elim [] Power.text ∧ ∀ p ∈ power,
      (p.letter = 'e' ∨ p.letter = 'E') ∧ IsSign p.sign ∧ IsRun p.digits := by
  cases cs with
  | nil => exact ⟨none, rfl, fun p hp => absurd hp (by simp)⟩
  | cons c rest =>
      unfold Binary64.exponent? at h
      dsimp only at h
      split at h
      · next hletter =>
          obtain ⟨sign, hsign, hrest⟩ := exists_of_takeSign rest
          split at h
          · exact absurd h (by simp)
          · next hdigits =>
              refine ⟨some ⟨c, sign, (takeSign rest).2⟩, congrArg (c :: ·) hrest, fun p hp => ?_⟩
              obtain rfl := Option.some.inj hp
              exact ⟨by simpa using hletter, hsign, isRun_iff.mp (by simpa using hdigits)⟩
      · exact absurd h (by simp)

/-! ## Numbers without underscores -/

variable {n : Numeral}

/-- Behind the sign stands a digit or a point, and no other sign. -/
theorem Numeral.IsMadeOf.head_body {IsDigits : List Char → Prop} (hn : n.IsMadeOf IsDigits)
    (hdigits : ∀ cs, IsDigits cs → ∃ d rest, cs = d :: rest ∧ isAsciiDigit d = true) :
    ∃ c, n.body.head? = some c ∧ c ≠ '+' ∧ c ≠ '-' ∧ (isAsciiDigit c = true ∨ c = '.') := by
  have hsigns : ∀ {c : Char}, isAsciiDigit c = true → c ≠ '+' ∧ c ≠ '-' := fun hc =>
    ⟨ne_of_kind hc (by decide), ne_of_kind hc (by decide)⟩
  unfold Numeral.body
  rcases hn.whole with hwhole | hwhole
  · obtain hne | ⟨f, hf, -⟩ := hn.nonempty
    · exact absurd hwhole hne
    · rw [hwhole, Option.mem_def.mp hf]
      exact ⟨'.', rfl, by decide, by decide, Or.inr rfl⟩
  · obtain ⟨d, rest, hcons, hd⟩ := hdigits _ hwhole
    rw [hcons]
    exact ⟨d, rfl, (hsigns hd).1, (hsigns hd).2, Or.inl hd⟩

theorem exists_of_isRun (cs : List Char) (h : IsRun cs) :
    ∃ d rest, cs = d :: rest ∧ isAsciiDigit d = true := by
  obtain ⟨d, rest, rfl⟩ := List.exists_cons_of_ne_nil h.1
  exact ⟨d, rest, rfl, h.2 d List.mem_cons_self⟩

theorem Numeral.IsMadeOf.takeSign_text (hn : n.IsMadeOf IsRun) :
    takeSign n.text = (n.isNegative, n.body) := by
  refine takeSign_append hn.sign fun c hc => ?_
  obtain ⟨d, hd, hplus, hminus, -⟩ := hn.head_body exists_of_isRun
  obtain rfl : d = c := Option.some.inj (hd.symm.trans hc)
  exact ⟨hplus, hminus⟩

/-- The number that is read. -/
def Numeral.nearest (n : Numeral) : Binary64 :=
  if n.isNegative then (ofDecimal n.digits n.exponent).neg else ofDecimal n.digits n.exponent

/-- Behind the digits stands neither a digit nor a second point. -/
theorem Numeral.IsMadeOf.head_power {IsDigits : List Char → Prop} (hn : n.IsMadeOf IsDigits)
    {c : Char} (hc : (n.power.elim [] Power.text).head? = some c) :
    isAsciiDigit c = false ∧ c ≠ '.' := by
  cases hp : n.power with
  | none =>
      rw [hp] at hc
      exact absurd hc (by simp)
  | some p =>
      rw [hp] at hc
      obtain rfl : p.letter = c := Option.some.inj hc
      rcases hn.letter p hp with h | h <;> rw [h] <;> exact ⟨by decide, by decide⟩

theorem Numeral.IsMadeOf.exponent?_power (hn : n.IsMadeOf IsRun) :
    Binary64.exponent? (n.power.elim [] Power.text) = some (n.power.elim 0 Power.value) := by
  cases hp : n.power with
  | none => rfl
  | some p => exact exponent?_text (hn.letter p hp) (hn.powerSign p hp) (hn.powerDigits p hp)

/-- There is a digit before the point or behind it. -/
theorem Numeral.IsMadeOf.isEmpty_digits {IsDigits : List Char → Prop} (hn : n.IsMadeOf IsDigits) :
    (n.whole.isEmpty && (n.fraction.getD []).isEmpty) = false := by
  rw [Bool.and_eq_false_iff, List.isEmpty_eq_false_iff, List.isEmpty_eq_false_iff]
  refine hn.nonempty.imp_right ?_
  rintro ⟨f, hf, hne⟩
  rwa [Option.mem_def.mp hf]

theorem isAsciiDigit_of_mem {cs : List Char} (h : cs = [] ∨ IsRun cs) {c : Char} (hc : c ∈ cs) :
    isAsciiDigit c = true := by
  rcases h with rfl | h
  · exact absurd hc List.not_mem_nil
  · exact h.2 c hc

/-- The first digits end at the point, or where the exponent begins. -/
theorem Numeral.IsMadeOf.digits_body (hn : n.IsMadeOf IsRun) :
    n.body.takeWhile isAsciiDigit = n.whole ∧
      n.body.dropWhile isAsciiDigit =
        n.fraction.elim [] ('.' :: ·) ++ n.power.elim [] Power.text := by
  refine takeWhile_stretch (fun c hc => isAsciiDigit_of_mem hn.whole hc) fun c hc => ?_
  cases hfraction : n.fraction with
  | none =>
      rw [hfraction] at hc
      exact (hn.head_power hc).1
  | some f =>
      rw [hfraction] at hc
      obtain rfl : '.' = c := Option.some.inj hc
      decide

/-- **A written number is read as the decimal that it is.** -/
theorem ofText?_text (hn : n.IsMadeOf IsRun) :
    ofText? n.text = some n.nearest := by
  have hne := hn.isEmpty_digits
  obtain ⟨htake, hdrop⟩ := hn.digits_body
  unfold ofText?
  rw [hn.takeSign_text]
  dsimp only
  rw [htake, hdrop]
  unfold Numeral.nearest Numeral.digits Numeral.exponent
  cases hfraction : n.fraction with
  | none =>
      rw [hfraction] at hne
      rw [Option.elim_none, List.nil_append]
      split
      · next after heq => exact absurd rfl (hn.head_power (by rw [heq]; rfl)).2
      · rw [if_neg (by simpa using hne)]
        show (Binary64.exponent? (n.power.elim [] Power.text)).bind _ = _
        rw [hn.exponent?_power]
        rfl
  | some f =>
      -- the digits behind the point end where the exponent begins
      obtain ⟨htake', hdrop'⟩ := takeWhile_stretch
        (fun c hc => isAsciiDigit_of_mem (hn.fraction f hfraction) hc)
        fun c hc => (hn.head_power hc).1
      rw [hfraction] at hne
      rw [Option.elim_some, List.cons_append]
      split
      · next after heq =>
          obtain ⟨-, rfl⟩ := List.cons.inj heq
          rw [htake', hdrop', if_neg (by simpa using hne)]
          show (Binary64.exponent? (n.power.elim [] Power.text)).bind _ = _
          rw [hn.exponent?_power]
          rfl
      · next hnone => exact absurd rfl (hnone _)

/-- Parts of a number make one. -/
theorem exists_of_parts {sign whole rest : List Char} {fraction : Option (List Char)} {k : Int}
    (hsign : IsSign sign) (hwhole : whole = [] ∨ IsRun whole)
    (hfraction : ∀ f ∈ fraction, f = [] ∨ IsRun f)
    (hne : (whole.isEmpty && (fraction.getD []).isEmpty) = false)
    (hrest : Binary64.exponent? rest = some k) :
    ∃ n : Numeral, n.IsMadeOf IsRun ∧
      n.text = sign ++ (whole ++ (fraction.elim [] ('.' :: ·) ++ rest)) := by
  obtain ⟨power, rfl, hpower⟩ := exists_of_exponent? hrest
  refine ⟨⟨sign, whole, fraction, power⟩, ?_, rfl⟩
  refine ⟨hsign, hwhole, hfraction, ?_, fun p hp => (hpower p hp).1, fun p hp => (hpower p hp).2.1,
    fun p hp => (hpower p hp).2.2⟩
  rw [Bool.and_eq_false_iff, List.isEmpty_eq_false_iff, List.isEmpty_eq_false_iff] at hne
  refine hne.imp_right fun hne => ?_
  cases fraction with
  | none => exact absurd rfl hne
  | some f => exact ⟨f, rfl, hne⟩

/-- What is read as a decimal is written as one. -/
theorem exists_of_ofText? {cs : List Char} {x : Binary64} (h : ofText? cs = some x) :
    ∃ n : Numeral, n.IsMadeOf IsRun ∧ n.text = cs := by
  obtain ⟨sign, hsign, hcs⟩ := exists_of_takeSign cs
  unfold ofText? at h
  dsimp only at h
  generalize (takeSign cs).1 = negative at h
  generalize (takeSign cs).2 = body at h hcs
  have hrun : ∀ cs : List Char,
      cs.takeWhile isAsciiDigit = [] ∨ IsRun (cs.takeWhile isAsciiDigit) := fun cs =>
    or_iff_not_imp_left.mpr fun hne => ⟨hne, fun c hc => List.mem_takeWhile_imp hc⟩
  split at h
  · next after hdrop =>
      split at h
      · exact absurd h (by simp)
      · next hne =>
          obtain ⟨k, hk, -⟩ := Option.bind_eq_some_iff.mp h
          have hfraction : ∀ f ∈ some (after.takeWhile isAsciiDigit), f = [] ∨ IsRun f :=
            fun f hf => Option.some.inj hf ▸ hrun after
          obtain ⟨n, hn, htext⟩ :=
            exists_of_parts hsign (hrun body) hfraction (by simpa using hne) hk
          refine ⟨n, hn, ?_⟩
          rw [htext, hcs, Option.elim_some, List.cons_append, List.takeWhile_append_dropWhile,
            ← hdrop, List.takeWhile_append_dropWhile]
  · split at h
    · exact absurd h (by simp)
    · next hne =>
        obtain ⟨k, hk, -⟩ := Option.bind_eq_some_iff.mp h
        have hfraction : ∀ f ∈ (none : Option (List Char)), f = [] ∨ IsRun f :=
          fun f hf => absurd hf (by simp)
        obtain ⟨n, hn, htext⟩ :=
          exists_of_parts hsign (hrun body) hfraction (by simpa using hne) hk
        refine ⟨n, hn, ?_⟩
        rw [htext, hcs, Option.elim_none, List.nil_append, List.takeWhile_append_dropWhile]

/-! ## Integers -/

/-- An integer has neither a point nor the letter of an exponent in it. -/
theorem Numeral.IsMadeOf.isInteger_iff {IsDigits : List Char → Prop} (hn : n.IsMadeOf IsDigits)
    (hdigits : ∀ cs, IsDigits cs → ∀ c ∈ cs, isAsciiDigit c = true ∨ c = '_') :
    n.IsInteger ↔ ∀ c ∈ n.text, c ≠ '.' ∧ c ≠ 'e' ∧ c ≠ 'E' := by
  constructor
  · rintro ⟨hfraction, hpower⟩ c hc
    unfold Numeral.text Numeral.body at hc
    rw [hfraction, hpower, Option.elim_none, Option.elim_none, List.append_nil, List.append_nil,
      List.mem_append] at hc
    rcases hc with hc | hc
    · exact no_mark ((hn.sign.mem hc).imp_right Or.inl)
    · refine no_mark (Or.inr (Or.inr ?_))
      rcases hn.whole with hwhole | hwhole
      · rw [hwhole] at hc
        exact absurd hc List.not_mem_nil
      · exact hdigits _ hwhole c hc
  · intro h
    constructor
    · by_contra hne
      obtain ⟨f, hf⟩ := Option.ne_none_iff_exists'.mp hne
      refine (h '.' ?_).1 rfl
      unfold Numeral.text Numeral.body
      rw [hf]
      simp
    · by_contra hne
      obtain ⟨p, hp⟩ := Option.ne_none_iff_exists'.mp hne
      have hmem : p.letter ∈ n.text := by
        unfold Numeral.text Numeral.body Power.text
        rw [hp]
        simp
      rcases hn.letter p hp with hletter | hletter
      · exact (h _ hmem).2.1 hletter
      · exact (h _ hmem).2.2 hletter

theorem isRun_chars (cs : List Char) (h : IsRun cs) : ∀ c ∈ cs, isAsciiDigit c = true ∨ c = '_' :=
  fun c hc => Or.inl (h.2 c hc)

/-- The text behind the sign is a run of digits just for an integer. -/
theorem Numeral.IsMadeOf.isRun_body_iff (hn : n.IsMadeOf IsRun) : IsRun n.body ↔ n.IsInteger := by
  constructor
  · intro hbody
    refine (hn.isInteger_iff isRun_chars).mpr fun c hc => ?_
    rcases List.mem_append.mp hc with hc | hc
    · exact no_mark ((hn.sign.mem hc).imp_right Or.inl)
    · exact no_mark (Or.inr (Or.inr (Or.inl (hbody.2 c hc))))
  · rintro ⟨hfraction, hpower⟩
    unfold Numeral.body
    rw [hfraction, hpower, Option.elim_none, Option.elim_none, List.append_nil, List.append_nil]
    refine hn.whole.resolve_left (hn.nonempty.resolve_right ?_)
    rintro ⟨f, hf, -⟩
    rw [hfraction] at hf
    exact absurd hf (by simp)

/-- **A written integer is read if it has 64 bits**, and no other number is read as an integer. -/
theorem int64?_text (hn : n.IsMadeOf IsRun) {k : Int} :
    int64? n.text = some k ↔ n.IsInteger ∧ n.integer = k ∧ Fits k := by
  unfold int64?
  rw [hn.takeSign_text]
  dsimp only
  by_cases hinteger : n.IsInteger
  · have hbody : n.body = n.whole := by
      unfold Numeral.body
      rw [hinteger.1, hinteger.2, Option.elim_none, Option.elim_none, List.append_nil,
        List.append_nil]
    have hvalue : (if n.isNegative then -(digitsValue n.body : Int) else digitsValue n.body) =
        n.integer := by rw [hbody]; rfl
    rw [isRun_iff.mpr (hn.isRun_body_iff.mpr hinteger), if_neg Bool.false_ne_true, hvalue,
      and_iff_right hinteger]
    have hfits : (decide (-0x8000000000000000 ≤ n.integer) &&
        decide (n.integer < 0x8000000000000000)) = true ↔ Fits n.integer := by
      rw [Bool.and_eq_true, decide_eq_true_eq, decide_eq_true_eq]
      exact Iff.rfl
    by_cases hrange : Fits n.integer
    · rw [if_pos (hfits.mpr hrange), Option.some.injEq]
      constructor
      · rintro rfl
        exact ⟨rfl, hrange⟩
      · exact fun h => h.1
    · rw [if_neg (hfits.not.mpr hrange)]
      refine iff_of_false (by simp) ?_
      rintro ⟨rfl, h⟩
      exact hrange h
  · -- a point or the letter of an exponent stands among the digits
    have hbody : (n.body.isEmpty || !n.body.all isAsciiDigit) = true := by
      rw [← Bool.not_eq_false, isRun_iff, hn.isRun_body_iff]
      exact hinteger
    rw [if_pos hbody]
    exact iff_of_false (by simp) fun h => hinteger h.1

/-- What is read as an integer is written as one. -/
theorem exists_of_int64? {cs : List Char} {k : Int} (h : int64? cs = some k) :
    ∃ n : Numeral, n.IsMadeOf IsRun ∧ n.text = cs := by
  obtain ⟨sign, hsign, hcs⟩ := exists_of_takeSign cs
  unfold int64? at h
  dsimp only at h
  split at h
  · exact absurd h (by simp)
  · next hrun =>
      have hdigits := isRun_iff.mp (Bool.eq_false_iff.mpr hrun)
      refine ⟨⟨sign, (takeSign cs).2, none, none⟩, ?_, ?_⟩
      · exact ⟨hsign, Or.inr hdigits, fun f hf => absurd hf (by simp), Or.inl hdigits.1,
          fun p hp => absurd hp (by simp), fun p hp => absurd hp (by simp),
          fun p hp => absurd hp (by simp)⟩
      · unfold Numeral.text Numeral.body
        rw [Option.elim_none, Option.elim_none, List.append_nil, List.append_nil]
        exact hcs.symm

/-! ## Reading numbers -/

/-- The finite number that the numeral rounds to. -/
def Numeral.IsNearest (n : Numeral) (x : Binary64) : Prop :=
  x.isFinite = true ∧ x.isNegative = n.isNegative ∧ x.RoundsTo n.magnitude

theorem Numeral.isFinite_nearest (n : Numeral) :
    n.nearest.isFinite = true ↔ n.magnitude < overflow := by
  obtain ⟨hfinite, hpositive, -⟩ := Binary64.ofDecimal_spec n.digits n.exponent
  unfold Numeral.nearest
  split
  · rw [(Binary64.neg_spec hpositive).2.1]
    exact hfinite
  · exact hfinite

/-- The number that is read is the one that the numeral rounds to, if it is finite. -/
theorem Numeral.isNearest_iff {x : Binary64} :
    n.IsNearest x ↔ n.nearest.isFinite = true ∧ x = n.nearest := by
  obtain ⟨hfinite, hpositive, hrounds⟩ := Binary64.ofDecimal_spec n.digits n.exponent
  obtain ⟨hnegative, -, hrounds'⟩ := Binary64.neg_spec hpositive
  have hnearest : n.nearest.isFinite = true → n.IsNearest n.nearest := by
    intro hx
    have hdecimal := hrounds (hfinite.mpr (n.isFinite_nearest.mp hx))
    refine ⟨hx, ?_⟩
    unfold Numeral.nearest
    split
    · next hsign => exact ⟨hnegative.trans hsign.symm, (hrounds' _).mpr hdecimal⟩
    · next hsign => exact ⟨hpositive.trans (Bool.eq_false_iff.mpr hsign).symm, hdecimal⟩
  constructor
  · intro h
    -- what has a finite number nearest to it is no overflow, and numbers with one value are equal
    have hx := n.isFinite_nearest.mpr (h.2.2.lt_overflow h.1)
    obtain ⟨-, hsign, hother⟩ := hnearest hx
    exact ⟨hx, Binary64.eq_of_roundsTo (h.2.1.trans hsign.symm) h.2.2 hother⟩
  · rintro ⟨hx, rfl⟩
    exact hnearest hx

/-- The value of a number: an integer if it has 64 bits, else the number that it rounds to. -/
def Numeral.IsRead (n : Numeral) : Json → Prop
  | .int k => n.IsInteger ∧ n.integer = k ∧ Fits k
  | .float x => ¬ (n.IsInteger ∧ Fits n.integer) ∧ n.IsNearest x
  | _ => False

/-- Behind signs stands a digit or a point. -/
def StartsNumber (cs : List Char) : Prop :=
  ∃ c, (cs.dropWhile fun c => c == '-' || c == '+').head? = some c ∧
    (isAsciiDigit c = true ∨ c = '.')

/-- The text without underscores. -/
def dropUnderscores (cs : List Char) : List Char := cs.filter (· != '_')

theorem numberLiteral?_eq (cs : List Char) : numberLiteral? cs =
    match (cs.dropWhile fun c => c == '-' || c == '+').head? with
    | none => none
    | some first =>
        if !isAsciiDigit first && first != '.' then none
        else match int64? (dropUnderscores cs) with
          | some n => some (.int n)
          | none => (ofText? (dropUnderscores cs)).bind fun x =>
              if x.isFinite then some (.float x) else none := by
  unfold numberLiteral?
  cases (cs.dropWhile fun c => c == '-' || c == '+').head? with
  | none => rfl
  | some first => rfl

theorem startsNumber_iff {cs : List Char} : StartsNumber cs ↔ ∃ first,
    (cs.dropWhile fun c => c == '-' || c == '+').head? = some first ∧
      (!isAsciiDigit first && first != '.') = false := by
  unfold StartsNumber
  refine exists_congr fun c => and_congr_right fun _ => ?_
  rw [Bool.and_eq_false_iff, Bool.not_eq_false', bne_eq_false_iff_eq]

/-- **A text that is a number without its underscores is read as that number.** -/
theorem numberLiteral?_text {cs : List Char} (hstarts : StartsNumber cs) (hn : n.IsMadeOf IsRun)
    (htext : n.text = dropUnderscores cs) {v : Json} :
    numberLiteral? cs = some v ↔ n.IsRead v := by
  obtain ⟨first, hfirst, hkind⟩ := startsNumber_iff.mp hstarts
  rw [numberLiteral?_eq, hfirst]
  dsimp only
  rw [hkind, if_neg Bool.false_ne_true, ← htext]
  cases hinteger : int64? n.text with
  | some k =>
      obtain ⟨hwhole, hk, hfits⟩ := (int64?_text hn).mp hinteger
      rw [Option.some.injEq]
      constructor
      · rintro rfl
        exact ⟨hwhole, hk, hfits⟩
      · intro h
        cases v with
        | int k' => exact congrArg Json.int (hk.symm.trans h.2.1)
        | float x => exact absurd ⟨hwhole, hk ▸ hfits⟩ h.1
        | _ => exact absurd h id
  | none =>
      -- what is no integer of 64 bits is read as a decimal
      have hlarge : ¬ (n.IsInteger ∧ Fits n.integer) := by
        intro h
        rw [(int64?_text hn).mpr ⟨h.1, rfl, h.2⟩] at hinteger
        exact absurd hinteger (by simp)
      rw [ofText?_text hn]
      show (if n.nearest.isFinite then some (Json.float n.nearest) else none) = some v ↔ _
      constructor
      · intro h
        split at h
        · next hx =>
            obtain rfl := Option.some.inj h
            exact ⟨hlarge, Numeral.isNearest_iff.mpr ⟨hx, rfl⟩⟩
        · exact absurd h (by simp)
      · intro h
        cases v with
        | int k => exact absurd ⟨h.1, h.2.1 ▸ h.2.2⟩ hlarge
        | float x =>
            obtain ⟨hx, rfl⟩ := Numeral.isNearest_iff.mp h.2
            rw [if_pos hx]
        | _ => exact absurd h id

/-- What is read as a number is one without its underscores. -/
theorem exists_of_numberLiteral? {cs : List Char} {v : Json} (h : numberLiteral? cs = some v) :
    StartsNumber cs ∧ ∃ n : Numeral, n.IsMadeOf IsRun ∧ n.text = dropUnderscores cs := by
  rw [numberLiteral?_eq] at h
  split at h
  · exact absurd h (by simp)
  next first hfirst =>
  split at h
  · exact absurd h (by simp)
  next hkind =>
  refine ⟨startsNumber_iff.mpr ⟨first, hfirst, Bool.eq_false_iff.mpr hkind⟩, ?_⟩
  split at h
  · next k hk => exact exists_of_int64? hk
  · obtain ⟨x, hx, -⟩ := Option.bind_eq_some_iff.mp h
    exact exists_of_ofText? hx

/-! ## Literals -/

/-- The numeral without underscores. -/
def Numeral.bare (n : Numeral) : Numeral :=
  { sign := n.sign
    whole := dropUnderscores n.whole
    fraction := n.fraction.map dropUnderscores
    power := n.power.map fun p => { p with digits := dropUnderscores p.digits } }

theorem dropUnderscores_append (a b : List Char) :
    dropUnderscores (a ++ b) = dropUnderscores a ++ dropUnderscores b := List.filter_append ..

theorem dropUnderscores_cons {c : Char} (hc : c ≠ '_') (rest : List Char) :
    dropUnderscores (c :: rest) = c :: dropUnderscores rest :=
  List.filter_cons_of_pos (by simpa using hc)

theorem IsSign.dropUnderscores {cs : List Char} (h : IsSign cs) : dropUnderscores cs = cs := by
  rcases h with rfl | rfl | rfl <;> rfl

theorem ne_underscore {d : Char} (hd : isAsciiDigit d = true) : d ≠ '_' :=
  ne_of_kind hd (by decide)

theorem IsRun.cons {d : Char} {rest : List Char} (hd : isAsciiDigit d = true) (hrest : IsRun rest) :
    IsRun (d :: rest) :=
  ⟨List.cons_ne_nil _ _, List.forall_mem_cons.mpr ⟨hd, hrest.2⟩⟩

theorem IsGrouped.isRun {cs : List Char} (h : IsGrouped cs) : IsRun (dropUnderscores cs) := by
  induction h with
  | single hd =>
      rw [dropUnderscores_cons (ne_underscore hd)]
      exact ⟨List.cons_ne_nil _ _, fun c hc => List.mem_singleton.mp hc ▸ hd⟩
  | digit hd _ ih =>
      rw [dropUnderscores_cons (ne_underscore hd)]
      exact ih.cons hd
  | underscore hd _ ih =>
      rw [dropUnderscores_cons (ne_underscore hd)]
      exact ih.cons hd

theorem exists_of_isGrouped (cs : List Char) (h : IsGrouped cs) :
    ∃ d rest, cs = d :: rest ∧ isAsciiDigit d = true := by
  cases h with
  | single hd => exact ⟨_, _, rfl, hd⟩
  | digit hd _ => exact ⟨_, _, rfl, hd⟩
  | underscore hd _ => exact ⟨_, _, rfl, hd⟩

theorem isGrouped_chars (cs : List Char) (h : IsGrouped cs) :
    ∀ c ∈ cs, isAsciiDigit c = true ∨ c = '_' := by
  intro c hc
  by_cases hscore : c = '_'
  · exact Or.inr hscore
  · exact Or.inl (h.isRun.2 c (List.mem_filter.mpr ⟨hc, by simpa using hscore⟩))

theorem Numeral.IsMadeOf.bare (hn : n.IsMadeOf IsGrouped) : n.bare.IsMadeOf IsRun where
  sign := hn.sign
  whole := by
    refine hn.whole.imp (fun h => ?_) IsGrouped.isRun
    show dropUnderscores n.whole = []
    rw [h]
    rfl
  fraction := by
    intro f hf
    obtain ⟨g, hg, rfl⟩ := Option.map_eq_some_iff.mp hf
    refine (hn.fraction g hg).imp (fun h => ?_) IsGrouped.isRun
    rw [h]
    rfl
  nonempty := by
    refine hn.nonempty.imp (fun h => ?_) ?_
    · exact ((hn.whole.resolve_left h).isRun).1
    · rintro ⟨g, hg, hne⟩
      exact ⟨dropUnderscores g, Option.map_eq_some_iff.mpr ⟨g, hg, rfl⟩,
        (((hn.fraction g hg).resolve_left hne).isRun).1⟩
  letter := by
    intro p hp
    obtain ⟨q, hq, rfl⟩ := Option.map_eq_some_iff.mp hp
    exact hn.letter q hq
  powerSign := by
    intro p hp
    obtain ⟨q, hq, rfl⟩ := Option.map_eq_some_iff.mp hp
    exact hn.powerSign q hq
  powerDigits := by
    intro p hp
    obtain ⟨q, hq, rfl⟩ := Option.map_eq_some_iff.mp hp
    exact (hn.powerDigits q hq).isRun

theorem Numeral.isInteger_bare : n.bare.IsInteger ↔ n.IsInteger := by
  unfold Numeral.IsInteger Numeral.bare
  rw [Option.map_eq_none_iff, Option.map_eq_none_iff]

theorem Numeral.IsMadeOf.text_bare (hn : n.IsMadeOf IsGrouped) :
    n.bare.text = dropUnderscores n.text := by
  have hfraction : (n.fraction.map dropUnderscores).elim [] ('.' :: ·) =
      dropUnderscores (n.fraction.elim [] ('.' :: ·)) := by
    cases n.fraction with
    | none => rfl
    | some f => exact (dropUnderscores_cons (by decide) f).symm
  have hpower : (n.power.map fun p => { p with digits := dropUnderscores p.digits }).elim []
      Power.text = dropUnderscores (n.power.elim [] Power.text) := by
    cases hp : n.power with
    | none => rfl
    | some p =>
        have hletter : p.letter ≠ '_' := by
          rcases hn.letter p hp with h | h <;> rw [h] <;> decide
        show p.letter :: (p.sign ++ dropUnderscores p.digits) =
          dropUnderscores (p.letter :: (p.sign ++ p.digits))
        rw [dropUnderscores_cons hletter, dropUnderscores_append,
          (hn.powerSign p hp).dropUnderscores]
  unfold Numeral.text Numeral.body
  rw [dropUnderscores_append, dropUnderscores_append, dropUnderscores_append,
    hn.sign.dropUnderscores, ← hfraction, ← hpower]
  rfl

theorem Numeral.IsMadeOf.startsNumber (hn : n.IsMadeOf IsGrouped) : StartsNumber n.text := by
  obtain ⟨c, hc, hplus, hminus, hkind⟩ := hn.head_body exists_of_isGrouped
  have hsign : ∀ d ∈ n.sign, (d == '-' || d == '+') = true := by
    intro d hd
    rcases hn.sign.mem hd with rfl | rfl <;> rfl
  have hbody : ∀ d, n.body.head? = some d → (d == '-' || d == '+') = false := by
    intro d hd
    obtain rfl : c = d := Option.some.inj (hc.symm.trans hd)
    rw [Bool.or_eq_false_iff, beq_eq_false_iff_ne, beq_eq_false_iff_ne]
    exact ⟨hminus, hplus⟩
  refine ⟨c, ?_, hkind⟩
  rw [Numeral.text, (takeWhile_stretch hsign hbody).2, hc]

/-- **A literal is read as the number that it is.** -/
theorem numberLiteral?_literal (hn : n.IsMadeOf IsGrouped) {v : Json} :
    numberLiteral? n.text = some v ↔ n.bare.IsRead v :=
  numberLiteral?_text hn.startsNumber hn.bare hn.text_bare

theorem Numeral.digitsValue_le (hfits : Fits n.integer) : digitsValue n.whole ≤ 2 ^ 63 := by
  unfold Fits Numeral.integer at hfits
  split at hfits <;> omega

/-- An integer of 64 bits is not too large. -/
theorem Numeral.magnitude_lt (hinteger : n.IsInteger) (hsmall : digitsValue n.whole ≤ 2 ^ 63) :
    n.magnitude < overflow := by
  have hvalue : n.magnitude = digitsValue n.whole := by
    unfold Numeral.magnitude Numeral.digits Numeral.exponent
    rw [hinteger.1, hinteger.2]
    simp
  have hbound : (2 : ℚ) ^ (63 : Int) ≤ 2 ^ (1023 : Int) :=
    zpow_le_zpow_right₀ (by norm_num) (by decide)
  rw [hvalue]
  calc (digitsValue n.whole : ℚ) ≤ 2 ^ (63 : Int) := by exact_mod_cast hsmall
    _ ≤ 2 ^ (1023 : Int) := hbound
    _ < overflow := Binary64.overflow_bounds.1

/-- A number is read from the text, the one that is left when the underscores are dropped. -/
structure Numeral.IsIn (n : Numeral) (cs : List Char) : Prop where
  starts : StartsNumber cs
  run : n.IsMadeOf IsRun
  text : n.text = dropUnderscores cs
  small : n.magnitude < overflow

/-- **Exactly the texts that are numbers without their underscores are read as numbers.** -/
theorem exists_numberLiteral?_iff {cs : List Char} :
    (∃ v, numberLiteral? cs = some v) ↔ ∃ n : Numeral, n.IsIn cs := by
  constructor
  · rintro ⟨v, hv⟩
    obtain ⟨hstarts, n, hn, htext⟩ := exists_of_numberLiteral? hv
    refine ⟨n, hstarts, hn, htext, ?_⟩
    have hread := (numberLiteral?_text hstarts hn htext).mp hv
    cases v with
    | int k =>
        exact Numeral.magnitude_lt hread.1 (Numeral.digitsValue_le (hread.2.1 ▸ hread.2.2))
    | float x => exact hread.2.2.2.lt_overflow hread.2.1
    | _ => exact absurd hread id
  · rintro ⟨n, hstarts, hn, htext, hsmall⟩
    by_cases hfits : n.IsInteger ∧ Fits n.integer
    · have hread : n.IsRead (.int n.integer) := ⟨hfits.1, rfl, hfits.2⟩
      exact ⟨_, (numberLiteral?_text hstarts hn htext).mpr hread⟩
    · have hread : n.IsRead (.float n.nearest) :=
        ⟨hfits, Numeral.isNearest_iff.mpr ⟨n.isFinite_nearest.mpr hsmall, rfl⟩⟩
      exact ⟨_, (numberLiteral?_text hstarts hn htext).mpr hread⟩

end ChangeScope.Call
