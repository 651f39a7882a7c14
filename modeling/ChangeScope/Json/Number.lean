import ChangeScope.Json.Fault
import ChangeScope.Text.Letter
import ChangeScope.Binary64

/-!
# Numbers in JSON texts

An integer between `-2^63` and `2^64 - 1` is exact; every other number, and minus zero, is a
binary64 number. Its significand is made of the digits that fit 64 bits, and the decimal exponent
is then applied by multiplication or division with a power of ten.
-/

set_option autoImplicit false

namespace ChangeScope.Json

open ChangeScope.Text (byteLength isAsciiDigit)

/-- The outcome of reading a number. -/
inductive NumberReading where
  | int (value : Int) (rest : List Char)
  | float (value : Binary64) (rest : List Char)
  /-- It is too large, which is found where so many bytes are left. -/
  | outOfRange (left : Nat) (rest : List Char)
  | broken (at_ : Break)

/-- The value of a digit. -/
def digitValue (c : Char) : Nat := c.toNat - '0'.toNat

/-- Appends digits to a significand while it fits 64 bits; gives it, the number of digits taken
and the text after them. -/
def takeDigits (significand : Nat) : List Char → Nat × Nat × List Char
  | [] => (significand, 0, [])
  | c :: rest =>
      let next := significand * 10 + digitValue c
      if isAsciiDigit c && next < 0x10000000000000000 then
        let (s, count, after) := takeDigits next rest
        (s, count + 1, after)
      else
        (significand, 0, c :: rest)

private def scale (x : Binary64) : Nat → Int → Option Binary64
  | 0, _ => some x
  | steps + 1, exponent =>
      if exponent.natAbs ≤ 308 then
        if 0 ≤ exponent then
          let y := x.timesTen exponent.toNat
          if y.isFinite then some y else none
        else some (x.overTen exponent.natAbs)
      else if x.significand = 0 then some x
      else if 0 ≤ exponent then none
      else scale (x.overTen 308) steps (exponent + 308)

/-- The number `significand · 10 ^ exponent`, or `none` when it is too large. -/
def assemble (negative : Bool) (significand : Nat) (exponent : Int) : Option Binary64 :=
  (scale (Binary64.ofNat significand) 8 exponent).map fun x => if negative then x.neg else x

private def finish (negative : Bool) (significand : Nat) (exponent : Int) (rest : List Char) :
    NumberReading :=
  match assemble negative significand exponent with
  | some x => .float x rest
  | none => .outOfRange (byteLength rest) rest

/-- The bytes that are left behind the digits of an exponent, of which `n` is read, or behind the
first one with which it does not fit 32 bits. -/
private def leftBehindExponent : Nat → List Char → Nat
  | _, [] => 0
  | n, c :: rest =>
      let next := n * 10 + digitValue c
      if !isAsciiDigit c then byteLength (c :: rest)
      else if 0x7fffffff < next then byteLength rest
      else leftBehindExponent next rest

/-- After the letter of the exponent. -/
private def readExponent (negative : Bool) (significand : Nat) (start : Int) (cs : List Char) :
    NumberReading :=
  let (below, digits) : Bool × List Char :=
    match cs with
    | '+' :: rest => (false, rest)
    | '-' :: rest => (true, rest)
    | rest => (false, rest)
  match digits with
  | [] => .broken (.named .endInValue .badNumber 0)
  | c :: _ =>
      if isAsciiDigit c then
        let text := digits.takeWhile isAsciiDigit
        let size : Int := text.foldl (fun n d => n * 10 + digitValue d) 0
        match finish negative significand (if below then start - size else start + size)
          (digits.dropWhile isAsciiDigit) with
        | .outOfRange _ rest => .outOfRange (leftBehindExponent 0 digits) rest
        | reading => reading
      else .broken (.both .badNumber (leftBehind 1 digits))

/-- After the decimal point. -/
private def readFraction (negative : Bool) (significand : Nat) (start : Int) (cs : List Char) :
    NumberReading :=
  match cs with
  | [] => .broken (.named .endInValue .badNumber 0)
  | c :: _ =>
      if isAsciiDigit c then
        let (s, count, after) := takeDigits significand cs
        match after.dropWhile isAsciiDigit with
        | 'e' :: rest => readExponent negative s (start - count) rest
        | 'E' :: rest => readExponent negative s (start - count) rest
        | rest => finish negative s (start - count) rest
      else .broken (.both .badNumber (leftBehind 1 cs))

/-- After the integer digits, of which `dropped` did not fit the significand. -/
def readAfterDigits (negative : Bool) (significand dropped : Nat) (cs : List Char) :
    NumberReading :=
  match cs with
  | '.' :: rest => readFraction negative significand dropped rest
  | 'e' :: rest => readExponent negative significand dropped rest
  | 'E' :: rest => readExponent negative significand dropped rest
  | rest =>
      if dropped != 0 then finish negative significand dropped rest
      else if !negative then .int significand rest
      else if significand != 0 && significand ≤ 0x8000000000000000 then
        .int (-(significand : Int)) rest
      else .float (Binary64.ofNat significand).neg rest

/-- The digits of a number after its sign, and what follows them. -/
def readDigits (negative : Bool) (cs : List Char) : NumberReading :=
  match cs with
  | [] => .broken (.named .endInValue .badNumber 0)
  | '0' :: rest =>
      if rest.head?.any isAsciiDigit then .broken (.both .badNumber (leftBehind 1 rest))
      else readAfterDigits negative 0 0 rest
  | c :: rest =>
      if isAsciiDigit c then
        let (s, _, after) := takeDigits (digitValue c) rest
        readAfterDigits negative s (after.takeWhile isAsciiDigit).length
          (after.dropWhile isAsciiDigit)
      else .broken (.both .badNumber (leftBehind 1 (c :: rest)))

/-- The number at the beginning of a text, which begins with a digit or a minus sign. -/
def readNumber (cs : List Char) : NumberReading :=
  match cs with
  | '-' :: rest => readDigits true rest
  | cs => readDigits false cs

end ChangeScope.Json
