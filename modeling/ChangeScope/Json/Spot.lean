import ChangeScope.Json.Tree

/-!
# Lines and columns of JSON texts

A place in a text is reported as a line and a column. The way to a part is walked in the text: item
by item in an array, and member by member in an object, each over the values in front of it.
-/

set_option autoImplicit false

namespace ChangeScope.Json

open ChangeScope.Text (byteLength)

/-! ## Parts -/

/-- The text behind the value at the beginning of a text. -/
def behindValue (cs : List Char) : List Char :=
  match readFirst cs with
  | (_, .ok rest) => rest
  | (_, .error _) => []

/-- The text behind the key at the beginning of a text, and the blanks there. -/
def behindKey (cs : List Char) : List Char :=
  match skipSpace cs with
  | '"' :: rest =>
      match stringAt rest with
      | .done _ rest => skipSpace rest
      | .broken _ => []
  | rest => rest

/-- The text behind the key and the colon at the beginning of a text. -/
def behindColon (cs : List Char) : List Char :=
  match behindKey cs with
  | ':' :: rest => rest
  | rest => rest

/-- The text behind the comma at the beginning of a text. -/
def behindComma (cs : List Char) : List Char :=
  match skipSpace cs with
  | ',' :: rest => rest
  | rest => rest

/-- The text from an item on, in the text behind the bracket of its array. -/
def itemAt : Nat → List Char → List Char
  | 0, cs => cs
  | n + 1, cs => itemAt n (behindComma (behindValue cs))

/-- The text from the key of a member on, in the text behind the brace of its object. -/
def memberAt : Nat → List Char → List Char
  | 0, cs => cs
  | n + 1, cs => memberAt n (behindComma (behindValue (behindColon cs)))

/-- The text from a part on. -/
def partAt : List Nat → List Char → List Char
  | [], cs => skipSpace cs
  | n :: path, cs =>
      match skipSpace cs with
      | '[' :: rest => partAt path (itemAt n rest)
      | '\x7b' :: rest => partAt path (behindColon (memberAt n rest))
      | rest => rest

/-- The text behind the key of a part, and behind the brace that ends the object there although the
value is missing. -/
def behindKeyAt (path : List Nat) (cs : List Char) : List Char :=
  match partAt path.dropLast cs with
  | '\x7b' :: members =>
      match behindKey (memberAt (path.getLastD 0) members) with
      | '\x7d' :: rest => rest
      | rest => rest
  | rest => rest

/-- The bytes of a text that are left at a place. -/
def Spot.bytesLeft (cs : List Char) : Spot → Nat
  | .left count => count
  | .part .before path => byteLength (partAt path cs)
  | .part .inside path => leftBehind 1 (partAt path cs)
  | .part .behind path => byteLength (behindValue (partAt path cs))
  | .part .behindKey path => byteLength (behindKeyAt path cs)

/-! ## Marks -/

/-- A place in a text as it is reported: lines are counted from one, and the column is the number
of bytes behind the last line feed. -/
structure Mark where
  line : Nat
  column : Nat
deriving DecidableEq, Repr, Inhabited

/-- The beginning of a text. -/
def Mark.start : Mark := ⟨1, 0⟩

/-- The place so many bytes further, which may be inside a character. -/
def Mark.further (mark : Mark) : Nat → List Char → Mark
  | _, [] => mark
  | count, c :: rest =>
      if count < c.utf8Size then { mark with column := mark.column + count }
      else if c = '\n' then further ⟨mark.line + 1, 0⟩ (count - 1) rest
      else further { mark with column := mark.column + c.utf8Size } (count - c.utf8Size) rest

/-- A place in a text, by line and column. -/
def Spot.mark (cs : List Char) (spot : Spot) : Mark :=
  Mark.start.further (byteLength cs - spot.bytesLeft cs) cs

end ChangeScope.Json
