import ChangeScope.Binary64
import ChangeScope.Ordered

/-!
# JSON values

A value keeps integers apart from binary64 numbers. The members of an object are a list; an
object that stands for a map has its keys in increasing order and each key once, as in an
`OrderedMap`.
-/

set_option autoImplicit false

namespace ChangeScope

/-- A JSON value. -/
inductive Json where
  | null
  | bool (value : Bool)
  | int (value : Int)
  | float (value : Binary64)
  | str (value : String)
  | arr (items : List Json)
  | obj (members : List (String × Json))
deriving Inhabited, BEq, Repr

/-- The members of a JSON object, in order. -/
abbrev Members := OrderedMap Json

namespace Json

/-- An array of strings. -/
def strings (values : List String) : Json := .arr (values.map .str)

/-- A natural number. -/
def nat (n : Nat) : Json := .int n

/-- The text, or null. -/
def ofString? (value : Option String) : Json := (value.map Json.str).getD .null

/-- A member of an object, if the value is an object that has it. -/
def get? (value : Json) (key : String) : Option Json :=
  match value with
  | .obj members => OrderedMap.get? members key
  | _ => none

mutual

/-- The value with the members of every object in increasing order of their keys, the last value
of a repeated key alone. -/
def sorted : Json → Json
  | .arr items => .arr (sortedItems items)
  | .obj members => .obj (OrderedMap.ofList (sortedMembers members))
  | .null => .null
  | .bool b => .bool b
  | .int n => .int n
  | .float x => .float x
  | .str s => .str s

/-- The items, each sorted. -/
def sortedItems : List Json → List Json
  | [] => []
  | item :: rest => sorted item :: sortedItems rest

/-- The members with sorted values, in the order that they have. -/
def sortedMembers : List (String × Json) → List (String × Json)
  | [] => []
  | (key, value) :: rest => (key, sorted value) :: sortedMembers rest

end

end Json

end ChangeScope
