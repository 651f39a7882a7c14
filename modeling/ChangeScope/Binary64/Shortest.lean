import ChangeScope.Binary64

/-!
# Shortest decimals

The fewest decimal digits that read back as the same binary64 number, and of those the nearest
to it. The decimals that round to a number form an interval, whose ends belong to it exactly when
the significand is even. For one, two, … seventeen digits the two neighbours of the number on
that decimal grid are tested; the first grid with a hit decides.
-/

set_option autoImplicit false

namespace ChangeScope.Binary64

/-- Positive fractions with one denominator: a number and the ends of its rounding interval. -/
structure Interval where
  low : Nat
  value : Nat
  high : Nat
  den : Nat
  closed : Bool

/-- The rounding interval of a finite positive number. Below a power of two the next smaller
number is half as far away. -/
def interval (x : Binary64) : Interval :=
  let m := x.significand
  let e := x.exponent - 2
  let below := if x.fractionBits = 0 && 1 < x.exponentBits then 1 else 2
  let scale (n : Nat) : Nat := (scaleTwo n e).1
  { low := scale (4 * m - below), value := scale (4 * m), high := scale (4 * m + 2),
    den := (scaleTwo 1 e).2, closed := m % 2 = 0 }

/-- The fraction `n / den` lies in the interval. -/
def Interval.holds (i : Interval) (n den : Nat) : Bool :=
  if i.closed then i.low * den ≤ n * i.den && n * i.den ≤ i.high * den
  else i.low * den < n * i.den && n * i.den < i.high * den

/-- The numerator and denominator of `n · 10 ^ k`. -/
def scaleTen (n : Nat) (k : Int) : Nat × Nat :=
  if 0 ≤ k then (n * Nat.pow 10 k.toNat, 1) else (n, Nat.pow 10 (-k).toNat)

/-- The multiple of `10 ^ k` next to the number that lies in its interval, if one does: of two the
nearer, and the even one in a tie. -/
def Interval.neighbour? (i : Interval) (k : Int) : Option Nat :=
  let (unit, unitDen) := scaleTen 1 k
  let below := i.value * unitDen / (i.den * unit)
  let inside (n : Nat) : Bool := i.holds (n * unit) unitDen
  let rest := i.value * unitDen - below * (i.den * unit)
  match inside below && below != 0, inside (below + 1) with
  | true, false => some below
  | false, true => some (below + 1)
  | false, false => none
  | true, true =>
      if 2 * rest < i.den * unit then some below
      else if i.den * unit < 2 * rest then some (below + 1)
      else if below % 2 = 0 then some below else some (below + 1)

/-- The number of decimal digits before the point, or minus the number of zeros right after it. -/
def decimalPoint (num den : Nat) : Int :=
  if den ≤ num then ((Nat.toDigits 10 (num / den)).length : Int)
  else
    let scaled := Nat.toDigits 10 (num * Nat.pow 10 400 / den)
    (scaled.length : Int) - 400

/-- The hit on the first grid that has one: the number of digits grows by one with each try. -/
def search (i : Interval) (point : Int) : Nat → Nat → Nat × Int
  | 0, _ => (0, 0)
  | tries + 1, count =>
      match i.neighbour? (point - count) with
      | some digits => (digits, point - count)
      | none => search i point tries (count + 1)

/-- Drops trailing zeros of the digits, which the exponent takes up. -/
def stripZeros : Nat → Nat → Int → Nat × Int
  | 0, digits, k => (digits, k)
  | tries + 1, digits, k =>
      if digits % 10 = 0 && digits != 0 then stripZeros tries (digits / 10) (k + 1) else (digits, k)

/-- The shortest decimal `digits · 10 ^ exponent` of a finite positive number. -/
def shortest (x : Binary64) : Nat × Int :=
  let i := x.interval
  let (digits, k) := search i (decimalPoint i.value i.den) 18 1
  stripZeros 20 digits k

/-- Where positional notation ends and how a number is written: with a point and at least one
digit after it up to `10 ^ 16`, down to five places after the point, else with an exponent. -/
def toText (x : Binary64) : List Char :=
  let sign := if x.isNegative then ['-'] else []
  if x.significand = 0 then sign ++ ['0', '.', '0']
  else
    let (digits, k) := x.shortest
    let ds := Nat.toDigits 10 digits
    let point : Int := ds.length + k
    let body :=
      if 0 ≤ k && point ≤ 16 then ds ++ List.replicate k.toNat '0' ++ ['.', '0']
      else if 0 < point && point ≤ 16 then ds.take point.toNat ++ '.' :: ds.drop point.toNat
      else if -5 < point && point ≤ 0 then ['0', '.'] ++ List.replicate (-point).toNat '0' ++ ds
      else
        let exponent := (toString (point - 1)).toList
        match ds with
        | [] => []
        | [d] => d :: 'e' :: exponent
        | d :: rest => d :: '.' :: rest ++ 'e' :: exponent
    sign ++ body

end ChangeScope.Binary64
