import ChangeScope.Binary64
import ChangeScope.Text.Letter

/-!
# Reading decimals

A decimal text as the binary64 number nearest to it: a sign, digits with at most one point among
them, and an exponent of ten.
-/

set_option autoImplicit false

namespace ChangeScope.Binary64

open ChangeScope.Text (isAsciiDigit)

/-- The natural number of some digits. -/
def digitsValue (digits : List Char) : Nat :=
  digits.foldl (fun n d => n * 10 + (d.toNat - '0'.toNat)) 0

/-- A sign in front of a text. -/
def takeSign : List Char → Bool × List Char
  | '-' :: rest => (true, rest)
  | '+' :: rest => (false, rest)
  | rest => (false, rest)

/-- The exponent at the end of a decimal; no exponent is zero. -/
def exponent? : List Char → Option Int
  | [] => some 0
  | c :: rest =>
      if c = 'e' || c = 'E' then
        let (negative, digits) := takeSign rest
        if digits.isEmpty || !digits.all isAsciiDigit then none
        else some (if negative then -(digitsValue digits : Int) else digitsValue digits)
      else none

/-- The number of a decimal text; a number too large for the format is infinite. -/
def ofText? (cs : List Char) : Option Binary64 := do
  let (negative, body) := takeSign cs
  let whole := body.takeWhile isAsciiDigit
  let (fraction, rest) : List Char × List Char :=
    match body.dropWhile isAsciiDigit with
    | '.' :: after => (after.takeWhile isAsciiDigit, after.dropWhile isAsciiDigit)
    | after => ([], after)
  if whole.isEmpty && fraction.isEmpty then none
  else
    let exponent ← exponent? rest
    let x := ofDecimal (digitsValue (whole ++ fraction)) (exponent - fraction.length)
    some (if negative then x.neg else x)

end ChangeScope.Binary64
