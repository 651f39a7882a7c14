import ChangeScope.Json
import ChangeScope.Binary64.Shortest

/-!
# Written JSON

Two written forms of a value: the compact one without any blank, and the indented one with one
member or item a line, two blanks a level and empty arrays and objects closed at once. Only
quotes, backslashes and control characters are escaped.
-/

set_option autoImplicit false

namespace ChangeScope.Json

/-- A hexadecimal digit in lower case. -/
private def hexDigit (n : Nat) : Char := (Nat.digitChar n)

/-- One character between the quotes. -/
def escapeChar (c : Char) : List Char :=
  match c with
  | '"' => ['\\', '"']
  | '\\' => ['\\', '\\']
  | '\x08' => ['\\', 'b']
  | '\x0c' => ['\\', 'f']
  | '\n' => ['\\', 'n']
  | '\r' => ['\\', 'r']
  | '\t' => ['\\', 't']
  | c =>
      if c.toNat < 0x20 then
        ['\\', 'u', '0', '0', hexDigit (c.toNat / 16), hexDigit (c.toNat % 16)]
      else [c]

/-- A string between quotes. -/
def writeString (cs : List Char) : List Char := '"' :: cs.flatMap escapeChar ++ ['"']

/-- An integer in decimal digits. -/
def writeInt (n : Int) : List Char :=
  if n < 0 then '-' :: Nat.toDigits 10 n.natAbs else Nat.toDigits 10 n.natAbs

mutual

/-- The compact form. -/
def write : Json → List Char
  | .null => ['n', 'u', 'l', 'l']
  | .bool true => ['t', 'r', 'u', 'e']
  | .bool false => ['f', 'a', 'l', 's', 'e']
  | .int n => writeInt n
  | .float x => x.toText
  | .str s => writeString s.toList
  | .arr items => '[' :: writeItems items ++ [']']
  | .obj members => '\x7b' :: writeMembers members ++ ['\x7d']

/-- The items with commas between them. -/
def writeItems : List Json → List Char
  | [] => []
  | [item] => write item
  | item :: rest => write item ++ ',' :: writeItems rest

/-- The members with commas between them. -/
def writeMembers : List (String × Json) → List Char
  | [] => []
  | [(key, value)] => writeString key.toList ++ ':' :: write value
  | (key, value) :: rest => writeString key.toList ++ ':' :: write value ++ ',' :: writeMembers rest

end

/-- A line feed and the blanks of a level. -/
def newLine (level : Nat) : List Char := '\n' :: List.replicate (2 * level) ' '

mutual

/-- The indented form, at a level. -/
def writeIndented (level : Nat) : Json → List Char
  | .arr [] => ['[', ']']
  | .arr (item :: rest) =>
      '[' :: indentedItems (level + 1) (item :: rest) ++ newLine level ++ [']']
  | .obj [] => ['\x7b', '\x7d']
  | .obj (member :: rest) =>
      '\x7b' :: indentedMembers (level + 1) (member :: rest) ++ newLine level ++ ['\x7d']
  | .null => ['n', 'u', 'l', 'l']
  | .bool true => ['t', 'r', 'u', 'e']
  | .bool false => ['f', 'a', 'l', 's', 'e']
  | .int n => writeInt n
  | .float x => x.toText
  | .str s => writeString s.toList

/-- The items, each on a line of its own. -/
def indentedItems (level : Nat) : List Json → List Char
  | [] => []
  | [item] => newLine level ++ writeIndented level item
  | item :: rest => newLine level ++ writeIndented level item ++ ',' :: indentedItems level rest

/-- The members, each on a line of its own. -/
def indentedMembers (level : Nat) : List (String × Json) → List Char
  | [] => []
  | [(key, value)] =>
      newLine level ++ writeString key.toList ++ ':' :: ' ' :: writeIndented level value
  | (key, value) :: rest =>
      newLine level ++ writeString key.toList ++ ':' :: ' ' :: writeIndented level value ++
        ',' :: indentedMembers level rest

end

/-- The compact form as a string. -/
def compact (value : Json) : String := String.ofList (write value)

/-- The indented form as a string. -/
def pretty (value : Json) : String := String.ofList (writeIndented 0 value)

end ChangeScope.Json
