import ChangeScope.Binary64.Decimal
import ChangeScope.Json.Tree
import ChangeScope.Toml

/-!
# Numbers, truth values and dates in TOML

What stands in a document without quotes or brackets is a stretch of letters, digits and signs,
and is read as a whole. Underscores may stand between digits. A date and a time of day may be
separated by one space.
-/

set_option autoImplicit false

namespace ChangeScope.Toml

open ChangeScope.Text (isAsciiDigit isAsciiLetter)
open ChangeScope.Json (hexValue?)

/-! ## Numbers -/

/-- The digits of a text in which single underscores stand between digits. -/
def groupedDigits? (isDigit : Char → Bool) : List Char → Option (List Char)
  | [] => none
  | [c] => if isDigit c then some [c] else none
  | c :: '_' :: rest => if isDigit c then (groupedDigits? isDigit rest).map (c :: ·) else none
  | c :: rest => if isDigit c then (groupedDigits? isDigit rest).map (c :: ·) else none

/-- The digits of a decimal whole number, which does not begin with a superfluous zero. -/
def wholeDigits? (cs : List Char) : Option (List Char) :=
  (groupedDigits? isAsciiDigit cs).filter fun digits => digits.head? != some '0' || digits == ['0']

/-- The number of some digits. -/
def ofDigits (base : Nat) (digits : List Char) : Nat :=
  digits.foldl (fun n c => n * base + (hexValue? c).getD 0) 0

/-- The integer, if it has 64 bits. -/
def integer? (n : Int) : Option Toml := if inRange n then some (.integer n) else none

/-- A whole number without a sign to another base. -/
def based? (base : Nat) (cs : List Char) : Option Toml :=
  (groupedDigits? (fun c => (hexValue? c).any (· < base)) cs).bind fun digits =>
    integer? (ofDigits base digits)

/-- A decimal integer. -/
def decimal? (cs : List Char) : Option Toml :=
  let (negative, body) := Binary64.takeSign cs
  (wholeDigits? body).bind fun digits =>
    let n : Int := ofDigits 10 digits
    integer? (if negative then -n else n)

/-- The exponent of a number: its letter, sign and digits without underscores. -/
def exponentText? : List Char → Option (List Char)
  | [] => some []
  | c :: rest =>
      if c = 'e' || c = 'E' then
        let (negative, digits) := Binary64.takeSign rest
        (groupedDigits? isAsciiDigit digits).map fun digits =>
          'e' :: (if negative then ['-'] else []) ++ digits
      else none

/-- A character of the whole part or the fraction of a number. -/
private def isNumeral (c : Char) : Bool := isAsciiDigit c || c == '_'

/-- A number with a fraction or an exponent. A positive one must not be too large. -/
def fractional? (cs : List Char) : Option Toml := do
  let (negative, body) := Binary64.takeSign cs
  let whole ← wholeDigits? (body.takeWhile isNumeral)
  let (fraction, rest) ←
    match body.dropWhile isNumeral with
    | '.' :: after =>
        (groupedDigits? isAsciiDigit (after.takeWhile isNumeral)).map fun digits =>
          ('.' :: digits, after.dropWhile isNumeral)
    | after => if after.isEmpty then none else some ([], after)
  let exponent ← exponentText? rest
  let x ← Binary64.ofText? (whole ++ fraction ++ exponent)
  if negative then some (.float x.neg) else if x.isFinite then some (.float x) else none

/-- Infinity, and what is no number. -/
def special? (cs : List Char) : Option Toml :=
  let (negative, body) := Binary64.takeSign cs
  let x? : Option Binary64 :=
    if body = "inf".toList then some ⟨0x7ff0000000000000⟩
    else if body = "nan".toList then some ⟨0x7ff8000000000000⟩
    else none
  x?.map fun x => .float (if negative then x.neg else x)

/-! ## Dates and times -/

/-- Exactly `count` digits at the beginning, as a number. -/
def fixedDigits? (count : Nat) (cs : List Char) : Option (Nat × List Char) :=
  let digits := cs.take count
  if digits.length = count && digits.all isAsciiDigit then
    some (ofDigits 10 digits, cs.drop count)
  else none

/-- The number of days of a month. -/
def daysIn (year month : Nat) : Nat :=
  if month = 2 then
    if year % 4 = 0 && (year % 100 != 0 || year % 400 = 0) then 29 else 28
  else if month = 4 || month = 6 || month = 9 || month = 11 then 30
  else 31

/-- The text after a date. -/
def dropDate? (cs : List Char) : Option (List Char) := do
  let (year, cs) ← fixedDigits? 4 cs
  let cs ← ['-'].isPrefixOf? cs
  let (month, cs) ← fixedDigits? 2 cs
  let cs ← ['-'].isPrefixOf? cs
  let (day, cs) ← fixedDigits? 2 cs
  if 1 ≤ month && month ≤ 12 && 1 ≤ day && day ≤ daysIn year month then some cs else none

/-- The text after hours and minutes. -/
def dropMinutes? (cs : List Char) : Option (List Char) := do
  let (hour, cs) ← fixedDigits? 2 cs
  let cs ← [':'].isPrefixOf? cs
  let (minute, cs) ← fixedDigits? 2 cs
  if hour ≤ 23 && minute ≤ 59 then some cs else none

/-- The text after a time of day. -/
def dropTime? (cs : List Char) : Option (List Char) := do
  let cs ← dropMinutes? cs
  let cs ← [':'].isPrefixOf? cs
  let (second, cs) ← fixedDigits? 2 cs
  if second ≤ 60 then
    match cs with
    | '.' :: fraction =>
        if fraction.head?.any isAsciiDigit then some (fraction.dropWhile isAsciiDigit) else none
    | cs => some cs
  else none

/-- The offset of a time zone, or nothing. -/
def isOffset : List Char → Bool
  | [] => true
  | [c] => c == 'Z' || c == 'z'
  | c :: rest => (c == '+' || c == '-') && dropMinutes? rest = some []

/-- A time of day, perhaps with the offset of a time zone. -/
def isZonedTime (cs : List Char) : Bool := (dropTime? cs).any isOffset

/-- A date, a time, or both. -/
def isMoment (cs : List Char) : Bool :=
  dropTime? cs = some [] ||
    match dropDate? cs with
    | some [] => true
    | some (c :: time) => (c == 'T' || c == 't') && isZonedTime time
    | none => false

/-! ## Stretches -/

/-- A character of a number, a truth value or a date. -/
def isScalarPart (c : Char) : Bool :=
  isAsciiDigit c || isAsciiLetter c || c == '+' || c == '-' || c == '_' || c == '.' || c == ':'

/-- The value of a whole stretch. -/
def scalar (cs : List Char) : Option Toml :=
  if cs = "true".toList then some (.boolean true)
  else if cs = "false".toList then some (.boolean false)
  else if isMoment cs then some (.moment (String.ofList cs))
  else
    match cs with
    | '0' :: 'x' :: digits => based? 16 digits
    | '0' :: 'o' :: digits => based? 8 digits
    | '0' :: 'b' :: digits => based? 2 digits
    | cs => (decimal? cs).or ((fractional? cs).or (special? cs))

/-- The value at the beginning of a text, and the text after it. -/
def readScalar (cs : List Char) : Option (Toml × List Char) :=
  let stretch := cs.takeWhile isScalarPart
  let rest := cs.dropWhile isScalarPart
  let next := (rest.drop 1).takeWhile isScalarPart
  if rest.head? = some ' ' && dropDate? stretch = some [] && isZonedTime next then
    some (.moment (String.ofList (stretch ++ ' ' :: next)), (rest.drop 1).dropWhile isScalarPart)
  else (scalar stretch).map (·, rest)

end ChangeScope.Toml
