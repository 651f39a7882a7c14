import ChangeScope.Proofs.Json.Spelling
import ChangeScope.Toml.Printer

/-!
# Written integers and truth values are read back

A stretch of letters, digits and signs is read as a whole up to the end of its item
(`readScalar_stretch`). Nothing but digits behind a sign is no date and no time
(`isMoment_eq_false`), so it is read as the integer that it was (`scalar_writeInt`).
-/

set_option autoImplicit false

namespace ChangeScope.Toml

open Text (IsDigits isDigits_toDigits isAsciiDigit)

variable {cs rest : List Char}

/-! ## Digits -/

theorem groupedDigits?_digits (h : IsDigits cs) (hne : cs ≠ []) :
    groupedDigits? isAsciiDigit cs = some cs := by
  induction cs with
  | nil => exact absurd rfl hne
  | cons c cs ih =>
    have hc : isAsciiDigit c = true := h c List.mem_cons_self
    have hcs : IsDigits cs := fun d hd => h d (List.mem_cons_of_mem c hd)
    cases cs with
    | nil => rw [groupedDigits?, if_pos hc]
    | cons d cs =>
      have hd : d ≠ '_' := by
        rintro rfl
        exact absurd (hcs '_' List.mem_cons_self) (by decide)
      rw [groupedDigits?, if_pos hc, ih hcs (List.cons_ne_nil d cs)]
      · rfl
      · exact fun heq => List.cons_ne_nil d cs heq
      · exact fun more heq => hd (List.cons.inj heq).1

theorem wholeDigits?_toDigits (n : Nat) :
    wholeDigits? (Nat.toDigits 10 n) = some (Nat.toDigits 10 n) := by
  rw [wholeDigits?, groupedDigits?_digits (isDigits_toDigits n) Nat.toDigits_ne_nil,
    Option.filter_some, if_pos]
  rcases Nat.eq_zero_or_pos n with rfl | hpos
  · rfl
  · rw [Bool.or_eq_true, bne_iff_ne]
    exact .inl fun hzero => Json.toDigits_head_ne hpos '0' hzero rfl

theorem hexValue?_digit {c : Char} (h : c.isDigit = true) :
    Json.hexValue? c = some (c.toNat - '0'.toNat) := by
  have hrange : (decide ('0' ≤ c) && decide (c ≤ '9')) = true := h
  rw [Json.hexValue?, if_pos hrange]

theorem ofDigits_digits (h : IsDigits cs) : ofDigits 10 cs = Nat.ofDigitChars 10 cs 0 := by
  have hfold : ∀ (cs : List Char) (n : Nat), IsDigits cs →
      cs.foldl (fun n c => n * 10 + (Json.hexValue? c).getD 0) n = Nat.ofDigitChars 10 cs n := by
    intro cs
    induction cs with
    | nil => intro n _; rfl
    | cons c cs ih =>
      intro n h
      rw [List.foldl_cons, hexValue?_digit (h c List.mem_cons_self), Nat.ofDigitChars_cons,
        ih _ fun d hd => h d (List.mem_cons_of_mem c hd), Option.getD_some, Nat.mul_comm]
  exact hfold cs 0 h

/-! ## No date and no time -/

theorem isPrefixOf?_eq_none {d : Char} (h : d ∉ cs) : [d].isPrefixOf? cs = none := by
  cases cs with
  | nil => rfl
  | cons c cs =>
    have hne : (d == c) = false := by
      rw [beq_eq_false_iff_ne]
      rintro rfl
      exact h List.mem_cons_self
    simp [List.isPrefixOf?, hne]

/-- Behind some digits nothing is left that does not stand in the text. -/
theorem fixedDigits?_bind {count : Nat} {α : Type} {d : Char} (h : d ∉ cs.drop count)
    (f : Nat × List Char → List Char → Option α) :
    ((fixedDigits? count cs).bind fun found =>
      ([d].isPrefixOf? found.2).bind (f found)) = none := by
  unfold fixedDigits?
  simp only
  split
  · rw [Option.bind_some, isPrefixOf?_eq_none h]
    rfl
  · rfl

theorem dropDate?_eq_none (h : '-' ∉ cs.drop 4) : dropDate? cs = none :=
  fixedDigits?_bind h _

theorem dropTime?_eq_none (h : ':' ∉ cs) : dropTime? cs = none := by
  have hminutes : dropMinutes? cs = none :=
    fixedDigits?_bind (fun hin => h (List.mem_of_mem_drop hin)) _
  unfold dropTime?
  rw [hminutes]
  rfl

theorem isMoment_eq_false (hcolon : ':' ∉ cs) (hdash : '-' ∉ cs.drop 4) : isMoment cs = false := by
  rw [isMoment, dropTime?_eq_none hcolon, dropDate?_eq_none hdash]
  rfl

/-! ## Integers -/

theorem takeSign_digits (h : IsDigits cs) : Binary64.takeSign cs = (false, cs) := by
  unfold Binary64.takeSign
  split
  · exact absurd (h '-' List.mem_cons_self) (by decide)
  · exact absurd (h '+' List.mem_cons_self) (by decide)
  · rfl

theorem decimal?_of_sign {negative : Bool} {digits : List Char}
    (hsign : Binary64.takeSign cs = (negative, digits))
    (hwhole : wholeDigits? digits = some digits) :
    decimal? cs =
      integer? (if negative then -(ofDigits 10 digits : Int) else ofDigits 10 digits) := by
  unfold decimal?
  rw [hsign]
  simp only
  rw [hwhole]
  rfl

theorem decimal?_writeInt {n : Int} (h : inRange n = true) :
    decimal? (Json.writeInt n) = some (.integer n) := by
  have hwhole := wholeDigits?_toDigits n.natAbs
  have hvalue : ofDigits 10 (Nat.toDigits 10 n.natAbs) = n.natAbs := by
    rw [ofDigits_digits (isDigits_toDigits _), Nat.ofDigitChars_ten_toDigits]
  by_cases hneg : n < 0
  · have hsign : Binary64.takeSign (Json.writeInt n) = (true, Nat.toDigits 10 n.natAbs) := by
      rw [Json.writeInt, if_pos hneg]
      rfl
    have hsame : -(n.natAbs : Int) = n := by omega
    rw [decimal?_of_sign hsign hwhole, if_pos rfl, hvalue, hsame, integer?, if_pos h]
  · have hsign : Binary64.takeSign (Json.writeInt n) = (false, Nat.toDigits 10 n.natAbs) := by
      rw [Json.writeInt, if_neg hneg, takeSign_digits (isDigits_toDigits _)]
    have hsame : (n.natAbs : Int) = n := by omega
    rw [decimal?_of_sign hsign hwhole, if_neg Bool.false_ne_true, hvalue, hsame, integer?, if_pos h]

/-- A written integer is made of digits, perhaps behind a sign. -/
theorem isDigits_drop_writeInt (n : Int) :
    IsDigits ((Json.writeInt n).drop 1) ∧ ∀ c ∈ Json.writeInt n, c.isDigit = true ∨ c = '-' := by
  have hdigits := isDigits_toDigits n.natAbs
  unfold Json.writeInt
  split
  · exact ⟨hdigits, List.forall_mem_cons.mpr ⟨.inr rfl, fun c hc => .inl (hdigits c hc)⟩⟩
  · exact ⟨fun c hc => hdigits c (List.mem_of_mem_drop hc), fun c hc => .inl (hdigits c hc)⟩

/-- **A written integer is the stretch of the integer.** -/
theorem scalar_writeInt {n : Int} (h : inRange n = true) :
    scalar (Json.writeInt n) = some (.integer n) := by
  obtain ⟨hdigits, hparts⟩ := isDigits_drop_writeInt n
  have hletter : ∀ c : Char, c.isDigit = false ∧ c ≠ '-' → c ∉ Json.writeInt n := by
    intro c hc hin
    rcases hparts c hin with hdigit | hdash
    · rw [hc.1] at hdigit
      cases hdigit
    · exact hc.2 hdash
  -- a date would have a dash at its fifth place, where a written integer has a digit
  have hmoment : isMoment (Json.writeInt n) = false := by
    refine isMoment_eq_false (hletter ':' (by decide)) fun hin => ?_
    rw [← List.drop_drop (i := 3) (j := 1)] at hin
    exact absurd (hdigits '-' (List.mem_of_mem_drop hin)) (by decide)
  have hother : ∀ {text : List Char} (c : Char), c ∈ text → c.isDigit = false ∧ c ≠ '-' →
      Json.writeInt n ≠ text := by
    rintro text c hc hnot rfl
    exact hletter c hnot hc
  unfold scalar
  rw [if_neg (hother 't' (by decide) (by decide)), if_neg (hother 'f' (by decide) (by decide)),
    hmoment, if_neg Bool.false_ne_true]
  split
  · next heq => exact absurd heq (hother 'x' (by simp) (by decide))
  · next heq => exact absurd heq (hother 'o' (by simp) (by decide))
  · next heq => exact absurd heq (hother 'b' (by simp) (by decide))
  · rw [decimal?_writeInt h]
    rfl

/-! ## Stretches -/

/-- The text behind an item: nothing, the end of the line, a comma or a closing bracket. -/
def EndsItem (rest : List Char) : Prop := ∀ c ∈ rest.head?, c = '\n' ∨ c = ',' ∨ c = ']'

/-- **A stretch is read up to the end of its item.** -/
theorem readScalar_stretch (hcs : ∀ c ∈ cs, isScalarPart c = true) (h : EndsItem rest) :
    readScalar (cs ++ rest) = (scalar cs).map (·, rest) := by
  have hend : ∀ c, rest.head? = some c → isScalarPart c = false ∧ c ≠ ' ' := by
    intro c hc
    rcases h c hc with rfl | rfl | rfl <;> decide
  obtain ⟨htake, hdrop⟩ := Text.takeWhile_stretch hcs fun c hc => (hend c hc).1
  have hspace : rest.head? ≠ some ' ' := fun hc => (hend ' ' hc).2 rfl
  unfold readScalar
  simp only [htake, hdrop]
  rw [if_neg]
  simp [hspace]

theorem isScalarPart_writeInt (n : Int) : ∀ c ∈ Json.writeInt n, isScalarPart c = true := by
  intro c hc
  rcases (isDigits_drop_writeInt n).2 c hc with hdigit | rfl
  · have hdigit' : isAsciiDigit c = true := hdigit
    simp [isScalarPart, hdigit']
  · decide

end ChangeScope.Toml
