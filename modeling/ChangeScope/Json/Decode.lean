import ChangeScope.Json.Printer
import ChangeScope.Json.Spot
import ChangeScope.Text.Quoted

/-!
# Reading typed values from JSON

A decoder turns a tree into a typed value or says what does not fit. A record is read from an
object, or from an array of its fields in their order. Decoders go through the tree in the order
of the text: of a field of the wrong type and a broken text, the one written first is reported, with
its place. What is found in a value, or in a buffer, has no place.
-/

set_option autoImplicit false

namespace ChangeScope.Json

/-! ## Mismatches -/

/-- Why a text or a value is not of the wanted type. -/
inductive Misfit where
  | fault (fault : Fault)
  | wrongType (found expected : String)
  | wrongValue (found expected : String)
  | wrongLength (length : Nat) (expected : String)
  | missingField (name : String)
  | duplicateField (name : String)
  | unknownVariant (name : String) (expected : List String)
  | noVariant (name : String)
deriving DecidableEq, Repr, Inhabited

private def tick (name : String) : String := "`" ++ name ++ "`"

/-- Several names as alternatives. -/
def alternatives : List String → String
  | [] => "there are no variants"
  | [a] => "expected " ++ tick a
  | [a, b] => "expected " ++ tick a ++ " or " ++ tick b
  | names => "expected one of " ++ ", ".intercalate (names.map tick)

/-- The wording of a misfit. -/
def Misfit.message : Misfit → String
  | .fault f => f.message
  | .wrongType found expected => "invalid type: " ++ found ++ ", expected " ++ expected
  | .wrongValue found expected => "invalid value: " ++ found ++ ", expected " ++ expected
  | .wrongLength length expected =>
      "invalid length " ++ toString length ++ ", expected " ++ expected
  | .missingField name => "missing field " ++ tick name
  | .duplicateField name => "duplicate field " ++ tick name
  | .unknownVariant name expected =>
      "unknown variant " ++ tick name ++ ", " ++ alternatives expected
  | .noVariant name => "data did not match any variant of untagged enum " ++ name

/-- A text or a value that is not of the wanted type: why, and where, if it is found in a text. -/
structure Mismatch where
  misfit : Misfit
  mark : Option Mark
deriving DecidableEq, Repr, Inhabited

/-- The wording of a place. -/
def Mark.message (mark : Mark) : String :=
  " at line " ++ toString mark.line ++ " column " ++ toString mark.column

/-- The wording of a mismatch. -/
def Mismatch.message (m : Mismatch) : String := m.misfit.message ++ (m.mark.map (·.message)).getD ""

/-- What is wrong with a text, by line and column. -/
def Located.mismatch (cs : List Char) (e : Located Misfit) : Mismatch :=
  ⟨e.what, e.spot.map (·.mark cs)⟩

/-! ## Decoders -/

/-- Where a tree comes from: a text that is read as it is decoded, a value, or a buffer that holds
a part of either. -/
inductive Origin where
  | text
  | value
  | buffer
deriving DecidableEq, Repr

/-- What a decoder knows of its surroundings: the origin of the tree, and how many arrays and
objects may still be opened. -/
structure Context where
  origin : Origin
  depth : Nat

/-- A misfit at a border of the tree, or of a part of it. -/
def Context.locate (ctx : Context) (misfit : Misfit) (side : Side) (path : List Nat) :
    Located Misfit :=
  ⟨misfit, if ctx.origin = .text then some (.part side path) else none⟩

/-- A flaw of the text as a misfit. -/
def Flaw.misfit (flaw : Flaw) : Located Misfit := flaw.located.map .fault

/-- Reads a value of a type from a tree. -/
abbrev Decode (α : Type) := Context → Tree → Except (Located Misfit) α

/-- How a message names what was found. -/
def Tree.describe : Tree → Except Flaw String
  | .null => .ok "null"
  | .bool true => .ok "boolean `true`"
  | .bool false => .ok "boolean `false`"
  | .int n => .ok ("integer `" ++ String.ofList (writeInt n) ++ "`")
  | .float x => .ok ("floating point `" ++ String.ofList x.toText ++ "`")
  | .str s => .ok ("string " ++ String.ofList (Text.quoted s.toList))
  | .arr _ _ => .ok "sequence"
  | .obj _ _ => .ok "map"
  | .hugeNumber left => .error ⟨.numberOutOfRange, left⟩
  | .badString flaw => .error flaw
  | .broken b => .error b.reading

/-- Where a tree of another type is reported: arrays and objects are not read for it. -/
def Tree.refusalSide : Tree → Side
  | .arr _ _ => .before
  | .obj _ _ => .before
  | _ => .behind

/-- Refuses a tree of another type. -/
def Context.refuse {α : Type} (ctx : Context) (expected : String) (tree : Tree) :
    Except (Located Misfit) α := do
  let found ← tree.describe.mapError Flaw.misfit
  .error (ctx.locate (.wrongType found expected) tree.refusalSide [])

/-- Opens an array or an object. -/
def Context.enter (ctx : Context) : Except (Located Misfit) Context :=
  match ctx.depth with
  | 0 => .error (ctx.locate (.fault .tooDeep) .inside [])
  | depth + 1 => .ok { ctx with depth := depth }

/-- Ends an array or an object. -/
def checkEnd : Option Break → Except (Located Misfit) Unit
  | none => .ok ()
  | some b => .error b.reading.misfit

namespace Decode

/-- A string; `expected` names it in messages. -/
def stringAs (expected : String) : Decode String := fun ctx tree =>
  match tree with
  | .str s => .ok s
  | tree => ctx.refuse expected tree

/-- A string. -/
def string : Decode String := stringAs "a string"

/-- The text of a path. -/
def path : Decode String := stringAs "path string"

/-- A truth value. -/
def bool : Decode Bool := fun ctx tree =>
  match tree with
  | .bool b => .ok b
  | tree => ctx.refuse "a boolean" tree

/-- A natural number of 64 bits. -/
def natural : Decode Nat := fun ctx tree =>
  match tree with
  | .int n =>
      if 0 ≤ n then .ok n.toNat
      else
        let found := "integer `" ++ String.ofList (writeInt n) ++ "`"
        .error (ctx.locate (.wrongValue found "usize") .behind [])
  | tree => ctx.refuse "usize" tree

/-- Any value. -/
def any : Decode Json := fun ctx tree =>
  match tree.value ctx.depth with
  | .ok v => .ok v
  | .error e => .error (e.map .fault)

/-- The items of an array. -/
def listItems {α : Type} (item : Decode α) (ctx : Context) :
    List Tree → Except (Located Misfit) (List α)
  | [] => .ok []
  | tree :: rest => do
      let x ← (item ctx tree).mapError .within
      let xs ← (listItems item ctx rest).mapError .later
      .ok (x :: xs)

/-- An array of values of one type. -/
def list {α : Type} (item : Decode α) : Decode (List α) := fun ctx tree =>
  match tree with
  | .arr items ended => do
      let ctx ← ctx.enter
      let xs ← listItems item ctx items
      checkEnd ended
      .ok xs
  | tree => ctx.refuse "a sequence" tree

/-- The members of an object with any values; a repeated key keeps its last value. -/
def mapMembers (ctx : Context) :
    List (Except Flaw String × Tree) → Except (Located Misfit) (List (String × Json))
  | [] => .ok []
  | (.error flaw, _) :: _ => .error flaw.misfit
  | (.ok key, tree) :: rest => do
      let value ← (any ctx tree).mapError .within
      let members ← (mapMembers ctx rest).mapError .later
      .ok ((key, value) :: members)

/-- A map from strings to any values. -/
def map : Decode Members := fun ctx tree =>
  match tree with
  | .obj members ended => do
      let ctx ← ctx.enter
      let entries ← mapMembers ctx members
      checkEnd ended
      .ok (OrderedMap.ofList entries)
  | tree => ctx.refuse "a map" tree

/-- A value or null. -/
def optional {α : Type} (inner : Decode α) : Decode (Option α) := fun ctx tree =>
  match tree with
  | .null => .ok none
  | tree => (inner ctx tree).map some

/-- One of a list of names. -/
def variant {α : Type} (variants : List (String × α)) : Decode α := fun ctx tree =>
  match tree with
  | .str s =>
      match variants.lookup s with
      | some x => .ok x
      | none => .error (ctx.locate (.unknownVariant s (variants.map (·.1))) .behind [])
  | tree => ctx.refuse "string or map" tree

end Decode

/-! ## Records -/

/-- Whether a field must be given: always, in the array form only, or never. -/
inductive Need where
  | always
  | inArrays
  | never
deriving DecidableEq, Repr

/-- A field of a record: its name and other names for it, and how its value is put in. -/
structure Slot (σ : Type) where
  name : String
  aliases : List String
  need : Need
  read : Decode (σ → σ)

/-- A field whose decoded value is put in by `set`. -/
def Slot.of {σ α : Type} (name : String) (need : Need) (read : Decode α) (set : α → σ → σ) :
    Slot σ :=
  { name := name, aliases := [], need := need, read := fun ctx tree => (read ctx tree).map set }

/-- The field under another name too. -/
def Slot.alsoNamed {σ : Type} (slot : Slot σ) (name : String) : Slot σ :=
  { slot with aliases := name :: slot.aliases }

/-- The field goes by the key. -/
def Slot.goesBy {σ : Type} (slot : Slot σ) (key : String) : Bool :=
  slot.name == key || slot.aliases.contains key

/-- A record type: how messages name it, and its fields in order. -/
structure Record (σ : Type) where
  title : String
  slots : List (Slot σ)

namespace Record

variable {σ : Type}

private def counted (n : Nat) : String :=
  toString n ++ (if n = 1 then " element" else " elements")

/-- Fills a record from the members of an object; `seen` are the fields already filled. -/
def fillMembers (record : Record σ) (ctx : Context) :
    List String → σ → List (Except Flaw String × Tree) →
      Except (Located Misfit) (List String × σ)
  | seen, s, [] => .ok (seen, s)
  | _, _, (.error flaw, _) :: _ => .error flaw.misfit
  | seen, s, (.ok key, tree) :: rest =>
      match record.slots.find? (·.goesBy key) with
      | none =>
          match tree.skip with
          | .ok () => (fillMembers record ctx seen s rest).mapError .later
          | .error flaw => .error flaw.misfit
      | some slot =>
          if seen.contains slot.name then
            .error (ctx.locate (.duplicateField slot.name) .behindKey [0])
          else do
            let put ← (slot.read ctx tree).mapError .within
            (fillMembers record ctx (slot.name :: seen) (put s) rest).mapError .later

/-- The first field that should have been given. -/
def missing? (record : Record σ) (seen : List String) : Option String :=
  (record.slots.find? fun slot => slot.need == .always && !seen.contains slot.name).map (·.name)

/-- Fills fields from the items of an array; gives the items that are left. -/
def fillItems (record : Record σ) (ctx : Context) (ended : Option Break) :
    Nat → List (Slot σ) → σ → List Tree → Except (Located Misfit) (σ × List Tree)
  | _, [], s, items => .ok (s, items)
  | n, slot :: slots, s, tree :: items => do
      let put ← (slot.read ctx tree).mapError .within
      (fillItems record ctx ended (n + 1) slots (put s) items).mapError .later
  | n, slot :: slots, s, [] => do
      checkEnd ended
      if slot.need == .never then fillItems record ctx ended (n + 1) slots s []
      else
        let expected := record.title ++ " with " ++ counted record.slots.length
        .error (ctx.locate (.wrongLength n expected) .behind [])

/-- What follows the last field of the array form. -/
def checkRest (ctx : Context) (ended : Option Break) (count : Nat) (left : List Tree) :
    Except (Located Misfit) Unit :=
  match ctx.origin with
  | .text =>
      match left, ended with
      | [], none => .ok ()
      | [], some b =>
          if b.reading.fault = .endInArray || b.reading.fault = .trailingComma then
            .error b.reading.misfit
          else .error (Flaw.misfit ⟨.trailingCharacters, b.reading.left⟩)
      | _ :: _, _ => .error (ctx.locate (.fault .trailingCharacters) .inside [count])
  | .value =>
      if left.isEmpty then .ok ()
      else .error ⟨.wrongLength (count + left.length) "fewer elements in array", none⟩
  | .buffer =>
      if left.isEmpty then .ok ()
      else .error ⟨.wrongLength (count + left.length) (counted count ++ " in sequence"), none⟩

/-- Reads a record, beginning with the values that absent fields have. -/
def decode (record : Record σ) (blank : σ) : Decode σ := fun ctx tree =>
  match tree with
  | .obj members ended => do
      let ctx ← ctx.enter
      let (seen, s) ← fillMembers record ctx [] blank members
      checkEnd ended
      match record.missing? seen with
      | some name => .error (ctx.locate (.missingField name) .behind [])
      | none => .ok s
  | .arr items ended => do
      let ctx ← ctx.enter
      let (s, left) ← fillItems record ctx ended 0 record.slots blank items
      checkRest ctx ended record.slots.length left
      .ok s
  | tree => ctx.refuse record.title tree

end Record

/-! ## Whole inputs -/

/-- Decodes a text, which holds nothing after the value. -/
def decodeText {α : Type} (read : Decode α) (cs : List Char) : Except Mismatch α :=
  let document := Document.ofText cs
  match read ⟨.text, maxDepth⟩ document.root, document.trailing with
  | .error e, _ => .error (e.mismatch cs)
  | .ok _, some flaw => .error (flaw.misfit.mismatch cs)
  | .ok x, none => .ok x

mutual

/-- The number of arrays and objects inside one another. -/
def height : Json → Nat
  | .arr items => itemsHeight items + 1
  | .obj members => membersHeight members + 1
  | .null => 0
  | .bool _ => 0
  | .int _ => 0
  | .float _ => 0
  | .str _ => 0

/-- The greatest height of an item. -/
def itemsHeight : List Json → Nat
  | [] => 0
  | item :: rest => max (height item) (itemsHeight rest)

/-- The greatest height of a member. -/
def membersHeight : List (String × Json) → Nat
  | [] => 0
  | (_, value) :: rest => max (height value) (membersHeight rest)

end

/-- Decodes a value, of any depth. -/
def decodeValue {α : Type} (read : Decode α) (value : Json) : Except Mismatch α :=
  (read ⟨.value, value.height⟩ value.toTree).mapError fun e => ⟨e.what, none⟩

end ChangeScope.Json
