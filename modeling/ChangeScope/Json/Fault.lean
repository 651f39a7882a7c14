import ChangeScope.Text

/-!
# Faults of JSON texts

What can be wrong with a text that should be JSON, and where. A reader that wants a value and a
reader that skips it may name the same breaking point differently, so a breaking point holds both
names.

Where the text itself is at fault, the place is told by the bytes that are left there; a reader that
has looked at a character without taking it is one byte further. Where a part of the text is well
formed but not what is wanted, the place is told by the way to that part.
-/

set_option autoImplicit false

namespace ChangeScope.Json

/-- A fault of the text. -/
inductive Fault where
  | endInValue
  | endInArray
  | endInObject
  | endInString
  | expectedColon
  | expectedItemOrEnd
  | expectedMemberOrEnd
  | expectedIdent
  | expectedValue
  | badEscape
  | badNumber
  | numberOutOfRange
  | controlCharacter
  | keyNotString
  | loneSurrogate
  | unpairedSurrogate
  | trailingComma
  | trailingCharacters
  | tooDeep
deriving DecidableEq, Repr, Inhabited

/-- The wording of a fault. -/
def Fault.message : Fault → String
  | .endInValue => "EOF while parsing a value"
  | .endInArray => "EOF while parsing a list"
  | .endInObject => "EOF while parsing an object"
  | .endInString => "EOF while parsing a string"
  | .expectedColon => "expected `:`"
  | .expectedItemOrEnd => "expected `,` or `]`"
  | .expectedMemberOrEnd => "expected `,` or `\x7d`"
  | .expectedIdent => "expected ident"
  | .expectedValue => "expected value"
  | .badEscape => "invalid escape"
  | .badNumber => "invalid number"
  | .numberOutOfRange => "number out of range"
  | .controlCharacter => "control character (\\u0000-\\u001F) found while parsing a string"
  | .keyNotString => "key must be a string"
  | .loneSurrogate => "lone leading surrogate in hex escape"
  | .unpairedSurrogate => "unexpected end of hex escape"
  | .trailingComma => "trailing comma"
  | .trailingCharacters => "trailing characters"
  | .tooDeep => "recursion limit exceeded"

/-- The bytes that are left of a text behind its first ones. -/
def leftBehind (count : Nat) (cs : List Char) : Nat := Text.byteLength cs - count

/-- A fault, and the bytes of the text that are left where it is found. -/
structure Flaw where
  fault : Fault
  left : Nat
deriving DecidableEq, Repr, Inhabited

/-- The point where reading breaks off, as named by a reader that wants the value there
(`reading`) and by one that skips it (`skipping`). -/
structure Break where
  reading : Flaw
  skipping : Flaw
deriving DecidableEq, Repr, Inhabited

/-- A breaking point that two readers find at one place. -/
def Break.named (reading skipping : Fault) (left : Nat) : Break :=
  ⟨⟨reading, left⟩, ⟨skipping, left⟩⟩

/-- A breaking point that both readers name alike. -/
def Break.both (fault : Fault) (left : Nat) : Break := .named fault fault left

/-! ## Spots -/

/-- The border of a part of a text at which something is found. -/
inductive Side where
  | before
  /-- One byte further than its beginning. -/
  | inside
  | behind
  /-- Behind the key of a member, where its colon is expected. -/
  | behindKey
deriving DecidableEq, Repr

/-- A place in a text: where so many bytes are left, or at the part to which the numbers of items
and members lead from the whole. -/
inductive Spot where
  | left (count : Nat)
  | part (side : Side) (path : List Nat)
deriving DecidableEq, Repr

/-- A place in the first item or member, as seen from the array or object. -/
def Spot.within : Spot → Spot
  | .left count => .left count
  | .part side path => .part side (0 :: path)

/-- A place in an item or member when one more stands in front of it. -/
def Spot.later : Spot → Spot
  | .part side (n :: path) => .part side ((n + 1) :: path)
  | spot => spot

/-- Something that is wrong, and where, if it is found in a text. -/
structure Located (ε : Type) where
  what : ε
  spot : Option Spot
deriving DecidableEq, Repr

namespace Located

variable {ε ε' : Type}

/-- The same under another name. -/
def map (name : ε → ε') (e : Located ε) : Located ε' := ⟨name e.what, e.spot⟩

/-- What is wrong in the first item or member. -/
def within (e : Located ε) : Located ε := { e with spot := e.spot.map .within }

/-- What is wrong behind the first item or member. -/
def later (e : Located ε) : Located ε := { e with spot := e.spot.map .later }

end Located

/-- A flaw of the text as something that is wrong there. -/
def Flaw.located (flaw : Flaw) : Located Fault := ⟨flaw.fault, some (.left flaw.left)⟩

end ChangeScope.Json
