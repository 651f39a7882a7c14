import ChangeScope.Json.Number
import ChangeScope.Json
import ChangeScope.Text

/-!
# JSON texts as trees

A text is read once into a tree that keeps what a value does not: members in the order of the
text with repeated keys, numbers out of range, strings with unpaired surrogates, and the point
where the text breaks off. A reader of values walks the tree in the order of the text, so it meets
a wrong value and a broken text in the order in which they are written.
-/

set_option autoImplicit false

namespace ChangeScope.Json

open ChangeScope.Text (byteLength)

/-- A JSON text as far as it can be read. In `arr` and `obj` the break, if there is one, stands
after the items. -/
inductive Tree where
  | null
  | bool (value : Bool)
  | int (value : Int)
  | float (value : Binary64)
  /-- A number that is too large, which is found where so many bytes are left. -/
  | hugeNumber (left : Nat)
  | str (value : String)
  | badString (flaw : Flaw)
  | arr (items : List Tree) (ended : Option Break)
  | obj (members : List (Except Flaw String × Tree)) (ended : Option Break)
  | broken (at_ : Break)
deriving Inhabited

/-! ## Strings -/

/-- The outcome of reading a string after its opening quote. -/
inductive StringReading where
  | done (value : Except Flaw (List Char)) (rest : List Char)
  | broken (at_ : Break)

/-- The value of a hexadecimal digit. -/
def hexValue? (c : Char) : Option Nat :=
  if '0' ≤ c && c ≤ '9' then some (c.toNat - '0'.toNat)
  else if 'a' ≤ c && c ≤ 'f' then some (c.toNat - 'a'.toNat + 10)
  else if 'A' ≤ c && c ≤ 'F' then some (c.toNat - 'A'.toNat + 10)
  else none

/-- Four hexadecimal digits and the text after them. -/
def readHex4 (cs : List Char) : Except Flaw (Nat × List Char) :=
  if byteLength (cs.take 4) < 4 then .error ⟨.endInString, 0⟩
  else
    match cs with
    | a :: b :: c :: d :: rest =>
        match hexValue? a, hexValue? b, hexValue? c, hexValue? d with
        | some a, some b, some c, some d => .ok (((a * 16 + b) * 16 + c) * 16 + d, rest)
        | _, _, _, _ => .error ⟨.badEscape, leftBehind 4 cs⟩
    | _ => .error ⟨.badEscape, leftBehind 4 cs⟩

/-- The character of a one-letter escape. -/
def simpleEscape? : Char → Option Char
  | '"' => some '"'
  | '\\' => some '\\'
  | '/' => some '/'
  | 'b' => some '\x08'
  | 'f' => some '\x0c'
  | 'n' => some '\n'
  | 'r' => some '\r'
  | 't' => some '\t'
  | _ => none

/-- What is known of a string while it is read: its characters in reverse, a leading surrogate
that waits for its partner, and the first fault that only a reader of the value minds. -/
structure StringState where
  chars : List Char
  leading : Option Nat
  flaw : Option Flaw

namespace StringState

/-- The first fault stays. -/
def note (s : StringState) (fault : Fault) (left : Nat) : StringState :=
  { s with flaw := s.flaw.or (some ⟨fault, left⟩) }

/-- A leading surrogate that is not followed by another escaped code unit has no partner. This is
found one byte further. -/
def settle (s : StringState) (left : Nat) : StringState :=
  match s.leading with
  | none => s
  | some _ => { (s.note .unpairedSurrogate left) with leading := none }

/-- Appends a character. -/
def push (s : StringState) (c : Char) (left : Nat) : StringState :=
  let s := s.settle left
  { s with chars := c :: s.chars }

/-- Appends an escaped code unit. -/
def pushUnit (s : StringState) (unit left : Nat) : StringState :=
  match s.leading with
  | some first =>
      if 0xdc00 ≤ unit && unit ≤ 0xdfff then
        { s with
          chars := Char.ofNat ((first - 0xd800) * 1024 + (unit - 0xdc00) + 0x10000) :: s.chars
          leading := none }
      else { (s.note .loneSurrogate left) with leading := none }
  | none =>
      if 0xdc00 ≤ unit && unit ≤ 0xdfff then s.note .loneSurrogate left
      else if 0xd800 ≤ unit && unit ≤ 0xdbff then { s with leading := some unit }
      else { s with chars := Char.ofNat unit :: s.chars }

/-- A break, behind any earlier fault. -/
def stop (s : StringState) (b : Break) : StringReading :=
  .broken { b with reading := s.flaw.getD b.reading }

end StringState

/-- Reads a string after its opening quote; each step takes at least one character, so the length
of the text bounds the steps. -/
def readString : Nat → StringState → List Char → StringReading
  | 0, s, _ => s.stop (.both .endInString 0)
  | _ + 1, s, [] => s.stop (.both .endInString 0)
  | _ + 1, s, '"' :: rest =>
      let s := s.settle (byteLength rest)
      match s.flaw with
      | none => .done (.ok s.chars.reverse) rest
      | some flaw => .done (.error flaw) rest
  | _ + 1, s, ['\\'] => s.stop (.both .endInString 0)
  | steps + 1, s, '\\' :: 'u' :: rest =>
      match readHex4 rest with
      | .ok (unit, rest) => readString steps (s.pushUnit unit (byteLength rest)) rest
      | .error flaw => s.stop ⟨flaw, flaw⟩
  | steps + 1, s, '\\' :: c :: rest =>
      let left := leftBehind 1 (c :: rest)
      match simpleEscape? c with
      | some d => readString steps (s.push d left) rest
      | none => (s.settle left).stop (.both .badEscape left)
  | steps + 1, s, c :: rest =>
      let left := leftBehind 1 (c :: rest)
      -- a reader that skips the string stops in front of a control character
      if c.toNat < 0x20 then
        (s.settle left).stop
          ⟨⟨.controlCharacter, left⟩, ⟨.controlCharacter, byteLength (c :: rest)⟩⟩
      else readString steps (s.push c left) rest

/-- The string at the beginning of a text, after its opening quote. -/
def stringAt (cs : List Char) : StringReading := readString (cs.length + 1) ⟨[], none, none⟩ cs

/-! ## Values -/

/-- Blanks between tokens. -/
def isSpace (c : Char) : Bool := c == ' ' || c == '\n' || c == '\t' || c == '\r'

/-- Drops blanks between tokens. -/
def skipSpace (cs : List Char) : List Char := cs.dropWhile isSpace

/-- A tree, and the text after it or the break in it. -/
abbrev Reading := Tree × Except Break (List Char)

private def brokenAt (b : Break) : Reading := (.broken b, .error b)

/-- The rest of a word such as `null` after its first letter. -/
private def readWord (value : Tree) : List Char → List Char → Reading
  | [], cs => (value, .ok cs)
  | _ :: _, [] => brokenAt (.both .endInValue 0)
  | w :: word, c :: cs =>
      if w = c then readWord value word cs
      else brokenAt (.both .expectedIdent (leftBehind 1 (c :: cs)))

/-- The tree of the number at the beginning of a text. -/
def numberReading (cs : List Char) : Reading :=
  match readNumber cs with
  | .int n rest => (.int n, .ok rest)
  | .float x rest => (.float x, .ok rest)
  | .outOfRange left rest => (.hugeNumber left, .ok rest)
  | .broken b => brokenAt b

mutual

/-- The value at the beginning of a text. Every step takes at least one character, so the length
of the text bounds the steps. -/
def readValue : Nat → List Char → Reading
  | 0, _ => brokenAt (.both .endInValue 0)
  | steps + 1, cs =>
      match skipSpace cs with
      | [] => brokenAt (.both .endInValue 0)
      | 'n' :: rest => readWord .null ['u', 'l', 'l'] rest
      | 't' :: rest => readWord (.bool true) ['r', 'u', 'e'] rest
      | 'f' :: rest => readWord (.bool false) ['a', 'l', 's', 'e'] rest
      | '"' :: rest =>
          match stringAt rest with
          | .done (.ok value) rest => (.str (String.ofList value), .ok rest)
          | .done (.error flaw) rest => (.badString flaw, .ok rest)
          | .broken b => brokenAt b
      | '[' :: rest =>
          let (items, ended) := readItems steps true rest
          match ended with
          | .ok rest => (.arr items none, .ok rest)
          | .error b => (.arr items (some b), .error b)
      | '\x7b' :: rest =>
          let (members, ended) := readMembers steps true rest
          match ended with
          | .ok rest => (.obj members none, .ok rest)
          | .error b => (.obj members (some b), .error b)
      | c :: rest =>
          if c == '-' || ChangeScope.Text.isAsciiDigit c then numberReading (c :: rest)
          else brokenAt (.both .expectedValue (leftBehind 1 (c :: rest)))

/-- The items of an array up to its closing bracket; `first` before any item. -/
def readItems : Nat → Bool → List Char → List Tree × Except Break (List Char)
  | 0, _, _ => ([], .error (.both .endInArray 0))
  | steps + 1, first, cs =>
      match skipSpace cs with
      | [] => ([], .error (.both .endInArray 0))
      | ']' :: rest => ([], .ok rest)
      | c :: rest =>
          if first then readItem steps (c :: rest)
          else if c = ',' then
            match skipSpace rest with
            | [] => ([], .error (.both .endInValue 0))
            | ']' :: rest =>
                ([], .error (.named .trailingComma .expectedValue (byteLength rest)))
            | rest => readItem steps rest
          else ([], .error (.both .expectedItemOrEnd (leftBehind 1 (c :: rest))))

/-- One item and the items after it. -/
def readItem : Nat → List Char → List Tree × Except Break (List Char)
  | 0, _ => ([], .error (.both .endInArray 0))
  | steps + 1, cs =>
      match readValue steps cs with
      | (item, .error b) => ([item], .error b)
      | (item, .ok rest) =>
          let (items, ended) := readItems steps false rest
          (item :: items, ended)

/-- The members of an object up to its closing brace; `first` before any member. -/
def readMembers : Nat → Bool → List Char →
    List (Except Flaw String × Tree) × Except Break (List Char)
  | 0, _, _ => ([], .error (.both .endInObject 0))
  | steps + 1, first, cs =>
      match skipSpace cs with
      | [] => ([], .error (.both .endInObject 0))
      | '\x7d' :: rest => ([], .ok rest)
      | c :: rest =>
          if first then
            if c = '"' then readMember steps rest
            else ([], .error (.both .keyNotString (leftBehind 1 (c :: rest))))
          else if c = ',' then
            match skipSpace rest with
            | [] => ([], .error (.named .endInValue .endInObject 0))
            | '"' :: rest => readMember steps rest
            | '\x7d' :: rest =>
                ([], .error (.named .trailingComma .keyNotString (byteLength rest)))
            | rest => ([], .error (.both .keyNotString (leftBehind 1 rest)))
          else ([], .error (.both .expectedMemberOrEnd (leftBehind 1 (c :: rest))))

/-- One member, after the quote that opens its key, and the members after it. -/
def readMember : Nat → List Char →
    List (Except Flaw String × Tree) × Except Break (List Char)
  | 0, _ => ([], .error (.both .endInObject 0))
  | steps + 1, cs =>
      match stringAt cs with
      | .broken b => ([], .error b)
      | .done key rest =>
          let key := key.map String.ofList
          match skipSpace rest with
          | [] => ([(key, .broken (.both .endInObject 0))], .error (.both .endInObject 0))
          | ':' :: rest =>
              match readValue steps rest with
              | (value, .error b) => ([(key, value)], .error b)
              | (value, .ok rest) =>
                  let (members, ended) := readMembers steps false rest
                  ((key, value) :: members, ended)
          | rest =>
              let b : Break := .both .expectedColon (leftBehind 1 rest)
              ([(key, .broken b)], .error b)

end

/-- Reads the value at the beginning of a text, whatever its length. -/
def readFirst (cs : List Char) : Reading := readValue (3 * cs.length + 3) cs

/-- A whole text: its tree, and what is wrong if anything but blanks follows the value. -/
structure Document where
  root : Tree
  trailing : Option Flaw

/-- Nothing but blanks may follow the value. -/
def trailing? (rest : List Char) : Option Flaw :=
  match skipSpace rest with
  | [] => none
  | rest => some ⟨.trailingCharacters, leftBehind 1 rest⟩

/-- Reads a text. -/
def Document.ofText (cs : List Char) : Document :=
  match readFirst cs with
  | (root, .ok rest) => ⟨root, trailing? rest⟩
  | (root, .error _) => ⟨root, none⟩

/-! ## Trees of values -/

mutual

/-- The tree of a value, without any fault. -/
def toTree : Json → Tree
  | .null => .null
  | .bool b => .bool b
  | .int n => .int n
  | .float x => .float x
  | .str s => .str s
  | .arr items => .arr (itemTrees items) none
  | .obj members => .obj (memberTrees members) none

/-- The trees of the items. -/
def itemTrees : List Json → List Tree
  | [] => []
  | item :: rest => toTree item :: itemTrees rest

/-- The trees of the members. -/
def memberTrees : List (String × Json) → List (Except Flaw String × Tree)
  | [] => []
  | (key, value) :: rest => (.ok key, toTree value) :: memberTrees rest

end

mutual

/-- The first flaw that a reader meets who skips the tree. -/
def Tree.skip : Tree → Except Flaw Unit
  | .arr items ended => do
      skipItems items
      endSkipping ended
  | .obj members ended => do
      skipMembers members
      endSkipping ended
  | .broken b => .error b.skipping
  | .null => .ok ()
  | .bool _ => .ok ()
  | .int _ => .ok ()
  | .float _ => .ok ()
  | .hugeNumber _ => .ok ()
  | .str _ => .ok ()
  | .badString _ => .ok ()

private def skipItems : List Tree → Except Flaw Unit
  | [] => .ok ()
  | item :: rest => do
      item.skip
      skipItems rest

private def skipMembers : List (Except Flaw String × Tree) → Except Flaw Unit
  | [] => .ok ()
  | (_, value) :: rest => do
      value.skip
      skipMembers rest

private def endSkipping : Option Break → Except Flaw Unit
  | none => .ok ()
  | some b => .error b.skipping

end

mutual

/-- The value of a tree, if at most `depth` arrays and objects are open at once; a repeated key
keeps its last value. -/
def Tree.value (depth : Nat) : Tree → Except (Located Fault) Json
  | .null => .ok .null
  | .bool b => .ok (.bool b)
  | .int n => .ok (.int n)
  | .float x => .ok (.float x)
  | .hugeNumber left => .error (Flaw.located ⟨.numberOutOfRange, left⟩)
  | .str s => .ok (.str s)
  | .badString flaw => .error flaw.located
  | .arr items ended =>
      match depth with
      | 0 => .error ⟨.tooDeep, some (.part .inside [])⟩
      | depth + 1 => do
          let items ← itemValues depth items
          endReading ended
          .ok (.arr items)
  | .obj members ended =>
      match depth with
      | 0 => .error ⟨.tooDeep, some (.part .inside [])⟩
      | depth + 1 => do
          let members ← memberValues depth members
          endReading ended
          .ok (.obj (OrderedMap.ofList members))
  | .broken b => .error b.reading.located

/-- The values of the items. -/
def itemValues (depth : Nat) : List Tree → Except (Located Fault) (List Json)
  | [] => .ok []
  | item :: rest => do
      let item ← (item.value depth).mapError .within
      let rest ← (itemValues depth rest).mapError .later
      .ok (item :: rest)

/-- The values of the members, in the order of the text. -/
def memberValues (depth : Nat) :
    List (Except Flaw String × Tree) → Except (Located Fault) (List (String × Json))
  | [] => .ok []
  | (key, value) :: rest => do
      let key ← key.mapError Flaw.located
      let value ← (value.value depth).mapError .within
      let rest ← (memberValues depth rest).mapError .later
      .ok ((key, value) :: rest)

/-- The end of an array or an object, or the break there. -/
def endReading : Option Break → Except (Located Fault) Unit
  | none => .ok ()
  | some b => .error b.reading.located

end

/-- The number of arrays and objects that may be open at once in a text. -/
def maxDepth : Nat := 127

/-- The value of a text. -/
def ofText (cs : List Char) : Except Fault Json :=
  let document := Document.ofText cs
  match document.root.value maxDepth with
  | .error e => .error e.what
  | .ok value => (document.trailing.map (·.fault)).elim (.ok value) .error

end ChangeScope.Json
