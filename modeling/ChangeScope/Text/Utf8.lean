/-!
# UTF-8

A byte sequence is cut into units: each is a character, or a broken sequence, which is as long
as a character's beginning can be. Strict decoding refuses broken sequences, lossy decoding
writes U+FFFD for each.
-/

set_option autoImplicit false

namespace ChangeScope.Text.Utf8

/-- A byte that continues a character. -/
def isTail (b : UInt8) : Bool := 0x80 ≤ b && b ≤ 0xbf

/-- The first byte after a lead byte lies in this range; it excludes overlong forms, surrogates
and code points above U+10FFFF. -/
def secondRange (lead : UInt8) : UInt8 × UInt8 :=
  if lead = 0xe0 then (0xa0, 0xbf)
  else if lead = 0xed then (0x80, 0x9f)
  else if lead = 0xf0 then (0x90, 0xbf)
  else if lead = 0xf4 then (0x80, 0x8f)
  else (0x80, 0xbf)

/-- A byte that may follow a lead byte. -/
def isSecond (lead b : UInt8) : Bool :=
  let (first, last) := secondRange lead
  first ≤ b && b ≤ last

/-- The number of bytes that a lead byte announces after itself; `none` leads nothing. -/
def tailCount (lead : UInt8) : Option Nat :=
  if lead ≤ 0x7f then some 0
  else if 0xc2 ≤ lead && lead ≤ 0xdf then some 1
  else if 0xe0 ≤ lead && lead ≤ 0xef then some 2
  else if 0xf0 ≤ lead && lead ≤ 0xf4 then some 3
  else none

/-- What a byte that continues a character adds to its code point. -/
def bits (b : UInt8) : Nat := b.toNat % 64

/-- The unit that begins with a byte, and the bytes after it. -/
def takeUnit (lead : UInt8) (rest : List UInt8) : Option Char × List UInt8 :=
  match tailCount lead, rest with
  | some 0, rest => (some (Char.ofNat lead.toNat), rest)
  | some 1, b :: after =>
      if isSecond lead b then (some (Char.ofNat (lead.toNat % 32 * 64 + bits b)), after)
      else (none, rest)
  | some 2, b :: after =>
      if isSecond lead b then
        match after with
        | c :: after' =>
            if isTail c then
              (some (Char.ofNat ((lead.toNat % 16 * 64 + bits b) * 64 + bits c)), after')
            else (none, after)
        | [] => (none, [])
      else (none, rest)
  | some _, b :: after =>
      if isSecond lead b then
        match after with
        | c :: after' =>
            if isTail c then
              match after' with
              | d :: after'' =>
                  if isTail d then
                    (some (Char.ofNat
                      (((lead.toNat % 8 * 64 + bits b) * 64 + bits c) * 64 + bits d)), after'')
                  else (none, after')
              | [] => (none, [])
            else (none, after)
        | [] => (none, [])
      else (none, rest)
  | _, rest => (none, rest)

theorem length_takeUnit_le (lead : UInt8) (rest : List UInt8) :
    (takeUnit lead rest).2.length ≤ rest.length := by
  unfold takeUnit
  split <;> (try split) <;> (try split) <;> (try split) <;> (try split) <;> (try split) <;>
    simp <;> omega

/-- The units of a byte sequence; `none` is a broken one. -/
def units : List UInt8 → List (Option Char)
  | [] => []
  | lead :: rest =>
      let unit := takeUnit lead rest
      unit.1 :: units unit.2
  termination_by bytes => bytes.length
  decreasing_by
    have := length_takeUnit_le lead rest
    simp only [List.length_cons]
    omega

/-- The text, if no unit is broken. -/
def decode? (bytes : List UInt8) : Option (List Char) := (units bytes).mapM id

/-- The text with U+FFFD for each broken unit. -/
def decodeLossy (bytes : List UInt8) : List Char :=
  (units bytes).map fun unit => unit.getD '\ufffd'

/-- The bytes of a text. -/
def encode (text : List Char) : List UInt8 := (String.ofList text).toUTF8.toList

end ChangeScope.Text.Utf8
