/-!
# Ordered sets and maps

A set is a list in increasing order that holds each item once; a map is a list of keys and values
in increasing order of the keys. Strings are ordered by the code points of their characters.
-/

set_option autoImplicit false

namespace ChangeScope

/-! ## Sets -/

namespace OrderedSet

variable {α : Type} [LT α] [DecidableLT α]

/-- The set with one more item. -/
def insert (x : α) : List α → List α
  | [] => [x]
  | y :: rest =>
      if x < y then x :: y :: rest else if y < x then y :: insert x rest else y :: rest

/-- The set of the items of a list. -/
def ofList (items : List α) : List α := items.foldr insert []

/-- The set with the items of a list put in. -/
def extend (s items : List α) : List α := items.foldl (fun s x => insert x s) s

end OrderedSet

/-! ## Maps -/

/-- A map from strings. -/
abbrev OrderedMap (α : Type) := List (String × α)

namespace OrderedMap

variable {α : Type}

/-- The value of a key, if there is one. -/
def get? (map : OrderedMap α) (key : String) : Option α := map.lookup key

/-- The key has a value. -/
def hasKey (map : OrderedMap α) (key : String) : Bool := (map.get? key).isSome

/-- The keys. -/
def keys (map : OrderedMap α) : List String := map.map (·.1)

/-- The map with the value of a key set. -/
def insert (key : String) (value : α) : OrderedMap α → OrderedMap α
  | [] => [(key, value)]
  | (k, v) :: rest =>
      if key < k then (key, value) :: (k, v) :: rest
      else if key = k then (key, value) :: rest
      else (k, v) :: insert key value rest

/-- The map that holds the last value given for each key. -/
def ofList (entries : List (String × α)) : OrderedMap α :=
  entries.foldl (fun map (key, value) => insert key value map) []

end OrderedMap

end ChangeScope
