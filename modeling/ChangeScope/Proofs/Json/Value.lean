import ChangeScope.Json.Decode
import ChangeScope.Proofs.Ordered

/-!
# Values up to the order of members

A value is read back from its tree with the members of its objects in order (`value_toTree`). An
object stands for a map, and two values are the same (`Same`) just when they agree once their
members are in order (`sorted_eq_iff`).
-/

set_option autoImplicit false

namespace ChangeScope.Json

/-! ## Values of trees -/

mutual

/-- **The tree of a value has the value, with its members in order.** -/
theorem value_toTree : ∀ (a : Json) {depth : Nat}, a.height ≤ depth →
    (toTree a).value depth = .ok a.sorted
  | .null, _, _ => rfl
  | .bool _, _, _ => rfl
  | .int _, _, _ => rfl
  | .float _, _, _ => rfl
  | .str _, _, _ => rfl
  | .arr items, depth, h => by
      rw [height] at h
      obtain ⟨depth, rfl⟩ := Nat.exists_eq_add_of_le' (Nat.one_le_of_lt h)
      rw [toTree, Tree.value, itemValues_itemTrees items (Nat.le_of_succ_le_succ h)]
      rfl
  | .obj members, depth, h => by
      rw [height] at h
      obtain ⟨depth, rfl⟩ := Nat.exists_eq_add_of_le' (Nat.one_le_of_lt h)
      rw [toTree, Tree.value, memberValues_memberTrees members (Nat.le_of_succ_le_succ h)]
      rfl

theorem itemValues_itemTrees : ∀ (items : List Json) {depth : Nat}, itemsHeight items ≤ depth →
    itemValues depth (itemTrees items) = .ok (sortedItems items)
  | [], _, _ => rfl
  | item :: items, depth, h => by
      rw [itemsHeight] at h
      rw [itemTrees, itemValues, value_toTree item (Nat.le_trans (Nat.le_max_left _ _) h),
        itemValues_itemTrees items (Nat.le_trans (Nat.le_max_right _ _) h)]
      rfl

theorem memberValues_memberTrees : ∀ (members : List (String × Json)) {depth : Nat},
    membersHeight members ≤ depth →
    memberValues depth (memberTrees members) = .ok (sortedMembers members)
  | [], _, _ => rfl
  | (key, value) :: members, depth, h => by
      rw [membersHeight] at h
      rw [memberTrees, memberValues, value_toTree value (Nat.le_trans (Nat.le_max_left _ _) h),
        memberValues_memberTrees members (Nat.le_trans (Nat.le_max_right _ _) h)]
      rfl

end

/-! ## Members in order -/

/-- The keys of every object in the value are in increasing order. -/
inductive IsOrdered : Json → Prop where
  | null : IsOrdered .null
  | bool (b : Bool) : IsOrdered (.bool b)
  | int (n : Int) : IsOrdered (.int n)
  | float (x : Binary64) : IsOrdered (.float x)
  | str (s : String) : IsOrdered (.str s)
  | arr {items : List Json} : (∀ item ∈ items, IsOrdered item) → IsOrdered (.arr items)
  | obj {members : List (String × Json)} : (OrderedMap.keys members).Pairwise (· < ·) →
      (∀ m ∈ members, IsOrdered m.2) → IsOrdered (.obj members)

theorem sortedItems_eq_map (items : List Json) : sortedItems items = items.map sorted := by
  induction items with
  | nil => rfl
  | cons item items ih => rw [sortedItems, ih, List.map_cons]

theorem sortedMembers_eq_map (members : List (String × Json)) :
    sortedMembers members = members.map fun m => (m.1, m.2.sorted) := by
  induction members with
  | nil => rfl
  | cons m members ih => rw [sortedMembers, ih, List.map_cons]

/-- A value whose members are in order stays as it is. -/
theorem IsOrdered.sorted_eq {a : Json} (h : IsOrdered a) : a.sorted = a := by
  induction h with
  | null => rfl
  | bool => rfl
  | int => rfl
  | float => rfl
  | str => rfl
  | arr _ ih => rw [sorted, sortedItems_eq_map, List.map_congr_left ih, List.map_id']
  | @obj members hkeys _ ih =>
      have hsame : sortedMembers members = members := by
        rw [sortedMembers_eq_map]
        calc members.map (fun m => (m.1, m.2.sorted)) = members.map id :=
              List.map_congr_left fun m hm => by rw [ih m hm]; rfl
          _ = members := List.map_id members
      rw [sorted, hsame, OrderedMap.ofList_of_increasing hkeys]

theorem sorted_strings (values : List String) : (strings values).sorted = strings values := by
  rw [strings, sorted, sortedItems_eq_map, List.map_map]
  rfl

/-- An object whose keys are in increasing order keeps them. -/
theorem sorted_obj {members : List (String × Json)}
    (h : (OrderedMap.keys members).Pairwise (· < ·)) :
    (obj members).sorted = .obj (members.map fun m => (m.1, m.2.sorted)) := by
  rw [sorted, sortedMembers_eq_map, OrderedMap.ofList_of_increasing]
  rwa [OrderedMap.keys, List.map_map]

/-! ## The same value -/

/-- The last value given for a key. -/
def last? (members : List (String × Json)) (key : String) : Option Json :=
  members.reverse.lookup key

/-- The two are the same value: objects are compared as maps from keys to values, whatever the
order of their members. -/
inductive Same : Json → Json → Prop where
  | null : Same .null .null
  | bool (b : Bool) : Same (.bool b) (.bool b)
  | int (n : Int) : Same (.int n) (.int n)
  | float (x : Binary64) : Same (.float x) (.float x)
  | str (s : String) : Same (.str s) (.str s)
  | arr {items items' : List Json} : items.length = items'.length →
      (∀ (i : Nat) (item item' : Json), items[i]? = some item → items'[i]? = some item' →
        Same item item') →
      Same (.arr items) (.arr items')
  | obj {members members' : List (String × Json)} :
      (∀ key, (last? members key).isSome = (last? members' key).isSome) →
      (∀ key value value', last? members key = some value → last? members' key = some value' →
        Same value value') →
      Same (.obj members) (.obj members')

theorem last?_sortedMembers (members : List (String × Json)) (key : String) :
    last? (sortedMembers members) key = (last? members key).map sorted := by
  rw [last?, last?, sortedMembers_eq_map, ← List.map_reverse]
  induction members.reverse with
  | nil => rfl
  | cons m rest ih =>
      obtain ⟨k, v⟩ := m
      rw [List.map_cons, List.lookup_cons, List.lookup_cons]
      cases key == k with
      | true => rfl
      | false => exact ih

/-- An object that is in order gives for each key the last value that was given, in order. -/
theorem get?_sortedMembers (members : List (String × Json)) (key : String) :
    OrderedMap.get? (OrderedMap.ofList (sortedMembers members)) key =
      (last? members key).map sorted := by
  rw [OrderedMap.get?_ofList]
  exact last?_sortedMembers members key

theorem Same.sorted_eq {a b : Json} (h : Same a b) : a.sorted = b.sorted := by
  induction h with
  | null => rfl
  | bool => rfl
  | int => rfl
  | float => rfl
  | str => rfl
  | @arr items items' hlength _ ih =>
      rw [sorted, sorted, sortedItems_eq_map, sortedItems_eq_map]
      congr 1
      refine List.ext_getElem? fun i => ?_
      rw [List.getElem?_map, List.getElem?_map]
      cases hi : items[i]? with
      | none =>
          have hi' : items'[i]? = none := by
            rw [List.getElem?_eq_none_iff] at hi ⊢
            omega
          rw [hi']
      | some item =>
          have hlt : i < items'.length := by
            have := (List.getElem?_eq_some_iff.mp hi).1
            omega
          rw [List.getElem?_eq_getElem hlt, Option.map_some, Option.map_some,
            ih i item _ hi (List.getElem?_eq_getElem hlt)]
  | @obj members members' hsome _ ih =>
      rw [sorted, sorted]
      congr 1
      -- members in order are the same when every key has the same value
      refine OrderedMap.ext_of_increasing (OrderedMap.keys_ofList_increasing _)
        (OrderedMap.keys_ofList_increasing _) fun key => ?_
      rw [get?_sortedMembers, get?_sortedMembers]
      cases hkey : last? members key with
      | none =>
          have hnone : last? members' key = none := by
            rw [← Option.isNone_iff_eq_none, ← Option.isSome_eq_false_iff, ← hsome, hkey]
            rfl
          rw [hnone]
      | some value =>
          have hsome' := hsome key
          rw [hkey, Option.isSome_some] at hsome'
          obtain ⟨value', hvalue'⟩ := Option.isSome_iff_exists.mp hsome'.symm
          rw [hvalue', Option.map_some, Option.map_some, ih key value value' hkey hvalue']

theorem mem_of_last? {members : List (String × Json)} {key : String} {value : Json}
    (h : last? members key = some value) : (key, value) ∈ members := by
  rw [last?, List.lookup_eq_some_iff] at h
  obtain ⟨before, after, heq, -⟩ := h
  rw [← List.mem_reverse, heq]
  exact List.mem_append_right _ List.mem_cons_self

mutual

theorem same_of_sorted_eq : ∀ (a b : Json), a.sorted = b.sorted → Same a b
  | .null, b, h => by
      cases b with
      | null => exact .null
      | _ => exact absurd h (by simp [sorted])
  | .bool x, b, h => by
      cases b with
      | bool y =>
          cases h
          exact .bool x
      | _ => exact absurd h (by simp [sorted])
  | .int n, b, h => by
      cases b with
      | int m =>
          cases h
          exact .int n
      | _ => exact absurd h (by simp [sorted])
  | .float x, b, h => by
      cases b with
      | float y =>
          cases h
          exact .float x
      | _ => exact absurd h (by simp [sorted])
  | .str s, b, h => by
      cases b with
      | str t =>
          cases h
          exact .str s
      | _ => exact absurd h (by simp [sorted])
  | .arr items, b, h => by
      cases b with
      | arr items' =>
          rw [sorted, sorted, Json.arr.injEq, sortedItems_eq_map, sortedItems_eq_map] at h
          refine .arr (by simpa using congrArg List.length h) fun i item item' hi hi' => ?_
          have hget := congrArg (·[i]?) h
          simp only [List.getElem?_map, hi, hi', Option.map_some, Option.some.injEq] at hget
          exact same_of_sorted_eq_items items item (List.mem_of_getElem? hi) item' hget
      | _ => exact absurd h (by simp [sorted])
  | .obj members, b, h => by
      cases b with
      | obj members' =>
          rw [sorted, sorted, Json.obj.injEq] at h
          have hkey : ∀ key, (last? members key).map sorted = (last? members' key).map sorted := by
            intro key
            rw [← get?_sortedMembers, ← get?_sortedMembers, h]
          refine .obj (fun key => ?_) fun key value value' hvalue hvalue' => ?_
          · simpa using congrArg Option.isSome (hkey key)
          · have hsorted := hkey key
            rw [hvalue, hvalue', Option.map_some, Option.map_some, Option.some.injEq] at hsorted
            exact same_of_sorted_eq_members members _ (mem_of_last? hvalue) value' hsorted
      | _ => exact absurd h (by simp [sorted])

theorem same_of_sorted_eq_items : ∀ (items : List Json), ∀ item ∈ items, ∀ b : Json,
    item.sorted = b.sorted → Same item b
  | [], _, hmem, _, _ => absurd hmem List.not_mem_nil
  | first :: items, item, hmem, b, h => by
      rcases List.mem_cons.mp hmem with heq | hmem
      · rw [heq] at h ⊢
        exact same_of_sorted_eq first b h
      · exact same_of_sorted_eq_items items item hmem b h

theorem same_of_sorted_eq_members : ∀ (members : List (String × Json)), ∀ m ∈ members,
    ∀ b : Json, m.2.sorted = b.sorted → Same m.2 b
  | [], _, hmem, _, _ => absurd hmem List.not_mem_nil
  | (_, value) :: members, m, hmem, b, h => by
      rcases List.mem_cons.mp hmem with heq | hmem
      · rw [heq] at h ⊢
        exact same_of_sorted_eq value b h
      · exact same_of_sorted_eq_members members m hmem b h

end

/-- **Two values agree once their members are in order just when they are the same.** -/
theorem sorted_eq_iff {a b : Json} : a.sorted = b.sorted ↔ Same a b :=
  ⟨same_of_sorted_eq a b, Same.sorted_eq⟩

end ChangeScope.Json
