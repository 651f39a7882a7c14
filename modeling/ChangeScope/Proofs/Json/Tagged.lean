import ChangeScope.Json.Tagged
import ChangeScope.Proofs.Json.Decode
import ChangeScope.Proofs.Result

/-!
# Tagged records

A value with a tag is read as the kind that its tag names, wherever the tag stands among the
members of an object (`tagged_obj`) and first in an array (`tagged_arr`). What is read of a tree
with a named tag is of a kind of that name (`lookup_isSome_of_tagged`), so of two types whose kinds
have different names at most one can be read from it, and the order in which they are tried does
not matter (`firstOf_comm`).
-/

set_option autoImplicit false

namespace ChangeScope.Json

variable {α : Type}

/-! ## Reading the kind that is named -/

theorem kind_str {kinds : List (String × α)} {name : String} {x : α}
    (h : kinds.lookup name = some x) (ctx : Context) :
    Decode.kind kinds ctx (.str name) = .ok x := by
  rw [Decode.kind, h]

/-- Members without the tag are left as they are. -/
theorem tagMembers_others {tag : String} (kinds : List (String × α)) {ctx : Context}
    (found : Option α) {members : List (String × Json)} (htag : tag ∉ OrderedMap.keys members)
    (hheight : membersHeight members ≤ ctx.depth) :
    tagMembers tag kinds ctx found (memberTrees members) = .ok (found, memberTrees members) := by
  induction members with
  | nil => rfl
  | cons m members ih =>
      obtain ⟨key, value⟩ := m
      have hkey : key ≠ tag := fun heq => htag (heq ▸ List.mem_cons_self)
      have hothers := ih (fun hmem => htag (List.mem_cons_of_mem _ hmem))
        (Nat.le_trans (Nat.le_max_right _ _) hheight)
      rw [memberTrees, tagMembers, if_neg hkey,
        any_toTree (Nat.le_trans (Nat.le_max_left _ _) hheight), hothers]
      rfl

/-- The tag is found between the other members. -/
theorem tagMembers_named {tag name : String} {kinds : List (String × α)} {ctx : Context} {x : α}
    (hname : kinds.lookup name = some x) {before after : List (String × Json)}
    (htag : tag ∉ OrderedMap.keys (before ++ after))
    (hheight : membersHeight (before ++ after) ≤ ctx.depth) :
    tagMembers tag kinds ctx none (memberTrees (before ++ (tag, .str name) :: after)) =
      .ok (some x, memberTrees (before ++ after)) := by
  induction before with
  | nil =>
      have hafter := tagMembers_others kinds (some x) htag hheight
      rw [List.nil_append] at hafter ⊢
      rw [List.nil_append, memberTrees, tagMembers, if_pos rfl, toTree, kind_str hname]
      show (tagMembers tag kinds ctx (some x) (memberTrees after)).mapError Located.later = _
      rw [hafter]
      rfl
  | cons m before ih =>
      obtain ⟨key, value⟩ := m
      have hkey : key ≠ tag := fun heq => htag (heq ▸ List.mem_cons_self)
      have hothers := ih (fun hmem => htag (List.mem_cons_of_mem _ hmem))
        (Nat.le_trans (Nat.le_max_right _ _) hheight)
      rw [List.cons_append, memberTrees, tagMembers, if_neg hkey,
        any_toTree (Nat.le_trans (Nat.le_max_left _ _) hheight), hothers]
      rfl

/-- **A tagged object is read as the kind that its tag names, from its other members.** -/
theorem tagged_obj {title tag name : String} {kinds : List (String × Decode α)} {read : Decode α}
    (hname : kinds.lookup name = some read) {before after : List (String × Json)}
    (htag : tag ∉ OrderedMap.keys (before ++ after)) {ctx : Context}
    (hheight : height (.obj (before ++ after)) ≤ ctx.depth) :
    Decode.tagged title tag kinds ctx (toTree (.obj (before ++ (tag, .str name) :: after))) =
      read ⟨.buffer, ctx.depth⟩ (toTree (.obj (before ++ after))) := by
  obtain ⟨origin, depth⟩ := ctx
  rw [height] at hheight
  obtain ⟨depth, rfl⟩ := Nat.exists_eq_add_of_le' (Nat.one_le_of_lt hheight)
  rw [toTree, Decode.tagged, Context.enter]
  show (tagMembers tag kinds ⟨origin, depth⟩ none _ >>= _) = _
  rw [tagMembers_named hname htag (Nat.le_of_succ_le_succ hheight)]
  rfl

/-- A tagged object is written with its tag first. -/
theorem tagged_obj_first {title tag name : String} {kinds : List (String × Decode α)}
    {read : Decode α} (hname : kinds.lookup name = some read) {members : List (String × Json)}
    (htag : tag ∉ OrderedMap.keys members) {ctx : Context}
    (hheight : height (.obj members) ≤ ctx.depth) :
    Decode.tagged title tag kinds ctx (toTree (.obj ((tag, .str name) :: members))) =
      read ⟨.buffer, ctx.depth⟩ (toTree (.obj members)) :=
  @tagged_obj α title tag name kinds read hname [] members htag ctx hheight

/-- **A tagged array is read as the kind that its first item names, from its other items.** -/
theorem tagged_arr {title tag name : String} {kinds : List (String × Decode α)} {read : Decode α}
    (hname : kinds.lookup name = some read) {items : List Json} {ctx : Context}
    (hheight : height (.arr items) ≤ ctx.depth) :
    Decode.tagged title tag kinds ctx (toTree (.arr (.str name :: items))) =
      read ⟨.buffer, ctx.depth⟩ (toTree (.arr items)) := by
  obtain ⟨origin, depth⟩ := ctx
  rw [height] at hheight
  obtain ⟨depth, rfl⟩ := Nat.exists_eq_add_of_le' (Nat.one_le_of_lt hheight)
  rw [toTree, itemTrees, Decode.tagged, Context.enter]
  show ((Decode.kind kinds ⟨origin, depth⟩ (.str name)).mapError Located.within >>= _) = _
  rw [kind_str hname]
  show ((Decode.listItems Decode.any ⟨origin, depth⟩ _).mapError Located.later >>= _) = _
  rw [listItems_any items (Nat.le_of_succ_le_succ hheight)]
  rfl

/-! ## At most one type -/

/-- The tree has the tag, and it is a string. -/
inductive HasNamedTag (tag : String) : Tree → String → Prop where
  | obj {members : List (Except Flaw String × Tree)} {ended : Option Break} {name : String} :
      (.ok tag, .str name) ∈ members → HasNamedTag tag (.obj members ended) name
  | arr {others : List Tree} {ended : Option Break} {name : String} :
      HasNamedTag tag (.arr (.str name :: others) ended) name

theorem lookup_isSome_of_kind {kinds : List (String × α)} {ctx : Context} {name : String} {x : α}
    (h : Decode.kind kinds ctx (.str name) = .ok x) : (kinds.lookup name).isSome := by
  rw [Decode.kind] at h
  cases hname : kinds.lookup name with
  | none =>
      rw [hname] at h
      cases h
  | some x => rfl

theorem lookup_isSome_of_tagMembers {tag name : String} {kinds : List (String × α)}
    {ctx : Context} {members : List (Except Flaw String × Tree)} :
    ∀ {found : Option α} {result : Option α × List (Except Flaw String × Tree)},
      tagMembers tag kinds ctx found members = .ok result → (.ok tag, .str name) ∈ members →
      (kinds.lookup name).isSome := by
  induction members with
  | nil => exact fun _ hmem => absurd hmem List.not_mem_nil
  | cons m members ih =>
      intro found result h hmem
      obtain ⟨key, tree⟩ := m
      cases key with
      | error fault => cases h
      | ok key =>
          rw [tagMembers] at h
          split at h
          · next heq =>
              split at h
              · cases h
              · obtain ⟨x, hx, h⟩ := ok_of_bind h
                rcases List.mem_cons.mp hmem with heq | hmem
                · obtain rfl : Tree.str name = tree := (Prod.mk.inj heq).2
                  exact lookup_isSome_of_kind (ok_of_mapError hx)
                · exact ih (ok_of_mapError h) hmem
          · next hne =>
              obtain ⟨-, -, h⟩ := ok_of_bind h
              obtain ⟨rest, hrest, -⟩ := ok_of_bind h
              rcases List.mem_cons.mp hmem with heq | hmem
              · exact absurd (Except.ok.inj (Prod.mk.inj heq).1).symm hne
              · exact ih (ok_of_mapError hrest) hmem

/-- **What is read is of a kind with the name that the tag gives.** -/
theorem lookup_isSome_of_tagged {title tag name : String} {kinds : List (String × Decode α)}
    {ctx : Context} {tree : Tree} (htree : HasNamedTag tag tree name) {x : α}
    (h : Decode.tagged title tag kinds ctx tree = .ok x) : (kinds.lookup name).isSome := by
  cases htree with
  | obj hmem =>
      obtain ⟨inner, -, h⟩ := ok_of_bind h
      obtain ⟨result, hresult, -⟩ := ok_of_bind h
      exact lookup_isSome_of_tagMembers hresult hmem
  | arr =>
      obtain ⟨inner, -, h⟩ := ok_of_bind h
      obtain ⟨read, hread, -⟩ := ok_of_bind h
      exact lookup_isSome_of_kind (ok_of_mapError hread)

/-- **If at most one of two kinds fits, the order in which they are tried does not matter.** -/
theorem firstOf_comm {title : String} {read read' : Decode α} {ctx : Context} {tree : Tree}
    (h : ∀ x y, read ⟨.buffer, ctx.depth⟩ tree = .ok x →
      read' ⟨.buffer, ctx.depth⟩ tree = .ok y → False) :
    Decode.firstOf title [read, read'] ctx tree = Decode.firstOf title [read', read] ctx tree := by
  rw [Decode.firstOf, Decode.firstOf]
  congr 1
  funext _
  simp only [List.findSome?_cons, List.findSome?_nil]
  cases hread : read ⟨.buffer, ctx.depth⟩ tree with
  | error e =>
      cases read' ⟨.buffer, ctx.depth⟩ tree with
      | error e' => rfl
      | ok y => rfl
  | ok x =>
      cases hread' : read' ⟨.buffer, ctx.depth⟩ tree with
      | error e' => rfl
      | ok y => exact (h x y hread hread').elim

/-- The first kind is read where it fits. -/
theorem firstOf_left {title : String} {read read' : Decode α} {ctx : Context} {a : Json} {x : α}
    (hheight : a.height ≤ ctx.depth) (h : read ⟨.buffer, ctx.depth⟩ (toTree a) = .ok x) :
    Decode.firstOf title [read, read'] ctx (toTree a) = .ok x := by
  have hfirst : [read, read'].findSome?
      (fun read => (read ⟨.buffer, ctx.depth⟩ (toTree a)).toOption) = some x := by
    rw [List.findSome?_cons, h]
    rfl
  rw [Decode.firstOf, any_toTree hheight, hfirst]
  rfl

end ChangeScope.Json
