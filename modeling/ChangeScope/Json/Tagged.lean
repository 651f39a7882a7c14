import ChangeScope.Json.Decode

/-!
# Alternatives

Two ways to write one of several kinds of records. With a tag, one member of the object, or the
first item of the array, names the kind. Without one, the kinds are tried in order. Either way the
value is read whole before the parts of a kind are looked at, so a broken text is always reported
as such, and in what has been read a tag may also be the number of its kind.
-/

set_option autoImplicit false

namespace ChangeScope.Json

/-- The kind at a position of a list. -/
private def kindAt? {α : Type} (kinds : List (String × α)) (n : Int) : Option α :=
  if 0 ≤ n then (kinds[n.toNat]?).map (·.2) else none

/-- The kind that a tag names. -/
def Decode.kind {α : Type} (kinds : List (String × α)) : Decode α := fun ctx tree =>
  match tree with
  | .str s =>
      match kinds.lookup s with
      | some x => .ok x
      | none => .error (ctx.locate (.unknownVariant s (kinds.map (·.1))) .behind [])
  | .int n =>
      if ctx.origin = .buffer && 0 ≤ n then
        match kindAt? kinds n with
        | some x => .ok x
        | none =>
            let found := "integer `" ++ String.ofList (writeInt n) ++ "`"
            let expected := "variant index 0 <= i < " ++ toString kinds.length
            .error ⟨.wrongValue found expected, none⟩
      else ctx.refuse "variant identifier" tree
  | tree => ctx.refuse "variant identifier" tree

/-- The kind that the members of an object name, and the other members. -/
def tagMembers {α : Type} (tag : String) (kinds : List (String × α)) (ctx : Context) :
    Option α → List (Except Flaw String × Tree) →
      Except (Located Misfit) (Option α × List (Except Flaw String × Tree))
  | found, [] => .ok (found, [])
  | _, (.error flaw, _) :: _ => .error flaw.misfit
  | found, (.ok key, tree) :: rest =>
      if key = tag then
        if found.isSome then .error (ctx.locate (.duplicateField tag) .behindKey [0])
        else do
          let x ← (Decode.kind kinds ctx tree).mapError .within
          (tagMembers tag kinds ctx (some x) rest).mapError .later
      else do
        let _ ← (Decode.any ctx tree).mapError .within
        let (found, others) ← (tagMembers tag kinds ctx found rest).mapError .later
        .ok (found, (.ok key, tree) :: others)

/-- A record of the kind that its tag names. -/
def Decode.tagged {α : Type} (title tag : String) (kinds : List (String × Decode α)) : Decode α :=
  fun ctx tree =>
    match tree with
    | .obj members ended => do
        let inner ← ctx.enter
        let (found, others) ← tagMembers tag kinds inner none members
        checkEnd ended
        match found with
        | some read => read ⟨.buffer, ctx.depth⟩ (.obj others none)
        | none => .error (ctx.locate (.missingField tag) .behind [])
    | .arr items ended => do
        let inner ← ctx.enter
        match items with
        | [] =>
            checkEnd ended
            .error (ctx.locate (.missingField tag) .behind [])
        | first :: others =>
            let read ← (Decode.kind kinds inner first).mapError .within
            let _ ← (Decode.listItems Decode.any inner others).mapError .later
            checkEnd ended
            read ⟨.buffer, ctx.depth⟩ (.arr others none)
    | tree => ctx.refuse title tree

/-- A record of the first kind that fits. -/
def Decode.firstOf {α : Type} (title : String) (kinds : List (Decode α)) : Decode α :=
  fun ctx tree => do
    let _ ← Decode.any ctx tree
    match kinds.findSome? fun read => (read ⟨.buffer, ctx.depth⟩ tree).toOption with
    | some x => .ok x
    | none => .error ⟨.noVariant title, none⟩

end ChangeScope.Json
