/-!
# Binary64 numbers

A number of the IEEE 754 format binary64, given by its 64 bits. Arithmetic is exact on
fractions of natural numbers and rounds once, to the nearest number, a tie to the even one.
-/

set_option autoImplicit false

namespace ChangeScope

/-- A binary64 number, as its bits. -/
structure Binary64 where
  bits : UInt64
deriving DecidableEq, Repr, Inhabited

namespace Binary64

/-! ## Parts -/

/-- The sign bit. -/
def isNegative (x : Binary64) : Bool := 0x8000000000000000 ≤ x.bits

/-- The eleven exponent bits. -/
def exponentBits (x : Binary64) : Nat := x.bits.toNat / 0x10000000000000 % 0x800

/-- The 52 fraction bits. -/
def fractionBits (x : Binary64) : Nat := x.bits.toNat % 0x10000000000000

/-- Neither infinite nor a NaN. -/
def isFinite (x : Binary64) : Bool := x.exponentBits < 2047

/-- The magnitude is `significand · 2 ^ exponent`. -/
def significand (x : Binary64) : Nat :=
  if x.exponentBits = 0 then x.fractionBits else x.fractionBits + 0x10000000000000

/-- The magnitude is `significand · 2 ^ exponent`. -/
def exponent (x : Binary64) : Int :=
  if x.exponentBits = 0 then -1074 else (x.exponentBits : Int) - 1075

/-- The number of the opposite sign. -/
def neg (x : Binary64) : Binary64 := ⟨x.bits ^^^ 0x8000000000000000⟩

/-- Positive zero. -/
def zero : Binary64 := ⟨0⟩

/-- Positive infinity. -/
def infinity : Binary64 := ⟨0x7ff0000000000000⟩

/-! ## Rounding a fraction -/

/-- The numerator and denominator of `n · 2 ^ e`. -/
def scaleTwo (n : Nat) (e : Int) : Nat × Nat :=
  if 0 ≤ e then (n * Nat.pow 2 e.toNat, 1) else (n, Nat.pow 2 (-e).toNat)

/-- The quotient rounded to the nearest natural number, a tie to the even one. -/
def roundDiv (num den : Nat) : Nat :=
  let q := num / den
  let twice := 2 * (num % den)
  if twice < den then q
  else if den < twice then q + 1
  else if q % 2 = 0 then q else q + 1

/-- The exponent that gives a fraction a significand of 53 bits, or the least exponent. -/
def exponentFor (num den : Nat) : Int :=
  let guess : Int := (Nat.log2 num : Int) - (Nat.log2 den : Int) - 52
  let (n, d) :=
    if 0 ≤ guess then (num, den * Nat.pow 2 guess.toNat)
    else (num * Nat.pow 2 (-guess).toNat, den)
  let exact := if n / d < 0x10000000000000 then guess - 1 else guess
  max exact (-1074)

/-- The number nearest to `num / den`, or infinity above the greatest one. -/
def ofFraction (num den : Nat) : Binary64 :=
  if num = 0 then zero
  else
    let e := exponentFor num den
    let m :=
      if 0 ≤ e then roundDiv num (den * Nat.pow 2 e.toNat)
      else roundDiv (num * Nat.pow 2 (-e).toNat) den
    let bits := (e + 1074).toNat * 0x10000000000000 + m
    if bits < 2047 * 0x10000000000000 then ⟨bits.toUInt64⟩ else infinity

/-- The number nearest to a natural number. -/
def ofNat (n : Nat) : Binary64 := ofFraction n 1

/-- The number nearest to `digits · 10 ^ exponent`. A decimal far outside the range of the format
is settled without computing the power. -/
def ofDecimal (digits : Nat) (exponent : Int) : Binary64 :=
  let magnitude := (Nat.log2 digits : Int) / 3 + exponent
  if digits = 0 then zero
  else if 400 < exponent then infinity
  else if magnitude < -400 then zero
  else if 0 ≤ exponent then ofFraction (digits * Nat.pow 10 exponent.toNat) 1
  else ofFraction digits (Nat.pow 10 (-exponent).toNat)

/-! ## Powers of ten -/

/-- The product with the number nearest to `10 ^ k`, for a finite positive number. -/
def timesTen (x : Binary64) (k : Nat) : Binary64 :=
  let ten := ofNat (Nat.pow 10 k)
  let (a, b) := scaleTwo x.significand x.exponent
  let (c, d) := scaleTwo ten.significand ten.exponent
  ofFraction (a * c) (b * d)

/-- The quotient by the number nearest to `10 ^ k`, for a finite positive number. -/
def overTen (x : Binary64) (k : Nat) : Binary64 :=
  let ten := ofNat (Nat.pow 10 k)
  let (a, b) := scaleTwo x.significand x.exponent
  let (c, d) := scaleTwo ten.significand ten.exponent
  ofFraction (a * d) (b * c)

end Binary64

end ChangeScope
