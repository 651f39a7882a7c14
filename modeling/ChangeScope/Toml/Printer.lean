import ChangeScope.Binary64.Shortest
import ChangeScope.Json.Printer
import ChangeScope.Toml.Document

/-!
# Writing TOML

A string is written between quotes on one line where it can be. One with line feeds goes over
several lines. Where quotes or backslashes would have to be escaped, apostrophes are used instead,
if the string holds no control character, no three apostrophes in a row and no apostrophe at its
end. An array of two or more items has a line for each.
-/

set_option autoImplicit false

namespace ChangeScope.Toml

/-! ## Strings -/

/-- A control character that no string form but an escape can hold. -/
def isControl (c : Char) : Bool := !isPlain c && c != '\n'

/-- The greatest number of apostrophes in a row. -/
def longestApostrophes (cs : List Char) : Nat :=
  ((Text.fields (· != '\'') cs).map List.length).foldl max 0

/-- The string can and should stand between apostrophes. -/
def prefersLiteral (cs : List Char) : Bool :=
  (cs.contains '"' || cs.contains '\\') && !cs.any isControl && longestApostrophes cs < 3 &&
    cs.getLast? != some '\''

/-- Four hexadecimal digits. -/
def hexDigits4 (n : Nat) : List Char :=
  [n / 4096 % 16, n / 256 % 16, n / 16 % 16, n % 16].map fun d => (Nat.digitChar d).toUpper

/-- A character between quotes; `lines` says that the string goes over several lines. -/
def escaped (lines : Bool) (c : Char) : List Char :=
  if c = '"' then ['\\', '"']
  else if c = '\\' then ['\\', '\\']
  else if c = '\n' then if lines then ['\n'] else ['\\', 'n']
  else if c = '\t' then ['\\', 't']
  else if c = '\x08' then ['\\', 'b']
  else if c = '\x0c' then ['\\', 'f']
  else if c = '\r' then ['\\', 'r']
  else if isPlain c then [c]
  else '\\' :: 'u' :: hexDigits4 c.toNat

/-- A text between two copies of a delimiter. -/
def between (opening content closing : List Char) : List Char :=
  opening ++ content ++ closing

/-- The written form of a string. -/
def writeString (cs : List Char) : List Char :=
  if prefersLiteral cs then
    if cs.contains '\n' then between ['\'', '\'', '\'', '\n'] cs ['\'', '\'', '\'']
    else if cs.contains '\'' then between ['\'', '\'', '\''] cs ['\'', '\'', '\'']
    else between ['\''] cs ['\'']
  else if cs.contains '\n' then
    between ['"', '"', '"', '\n'] (cs.flatMap (escaped true)) ['"', '"', '"']
  else between ['"'] (cs.flatMap (escaped false)) ['"']

/-- The written form of a key. -/
def writeKey (cs : List Char) : List Char :=
  if !cs.isEmpty && cs.all isBare then cs
  else if (cs.contains '"' || cs.contains '\\') && cs.all isLiteral then between ['\''] cs ['\'']
  else between ['"'] (cs.flatMap (escaped false)) ['"']

/-! ## Values -/

mutual

/-- The written form of a value. -/
def writeValue : Toml → List Char
  | .string s => writeString s.toList
  | .integer n => Json.writeInt n
  | .float x => x.toText
  | .boolean true => "true".toList
  | .boolean false => "false".toList
  | .moment text => text.toList
  | .array [] => ['[', ']']
  | .array [item] => '[' :: writeValue item ++ [']']
  | .array (first :: second :: rest) =>
      '[' :: writeItems (first :: second :: rest) ++ ['\n', ']']
  | .table [] => ['\x7b', '\x7d']
  | .table (first :: rest) =>
      '\x7b' :: ' ' :: writeMembers (first :: rest) ++ [' ', '\x7d']

/-- The items of an array, each on a line of its own. -/
def writeItems : List Toml → List Char
  | [] => []
  | item :: rest => "\n    ".toList ++ writeValue item ++ ',' :: writeItems rest

/-- The members of an inline table. -/
def writeMembers : List (String × Toml) → List Char
  | [] => []
  | [(key, value)] => writeKey key.toList ++ " = ".toList ++ writeValue value
  | (key, value) :: rest =>
      writeKey key.toList ++ " = ".toList ++ writeValue value ++ ", ".toList ++ writeMembers rest

end

/-! ## Documents -/

/-- A table of a document, with its name. -/
abbrev Section := String × List (String × Toml)

/-- A key and its value on a line. -/
def writePair (pair : String × Toml) : List Char :=
  writeKey pair.1.toList ++ " = ".toList ++ writeValue pair.2 ++ ['\n']

/-- A table of a document: a line with its name, and its members. -/
def writeSection (s : Section) : List Char :=
  '[' :: writeKey s.1.toList ++ ']' :: '\n' :: s.2.flatMap writePair

/-- A document that consists of tables, with an empty line between them. -/
def writeDocument (sections : List Section) : List Char :=
  Text.join ['\n'] (sections.map writeSection)

end ChangeScope.Toml
