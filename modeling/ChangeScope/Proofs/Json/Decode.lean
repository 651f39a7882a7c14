import ChangeScope.Json.Decode
import ChangeScope.Proofs.Json.Spelling
import ChangeScope.Proofs.Json.Value

/-!
# Reading what was written

A decoder reads from the tree of a value what was written in it: numbers, absent values, arrays and
maps (`map_toTree`), and the fields of a record in an object (`Record.decode_obj`) or in an array
(`Record.decode_arr`).
-/

set_option autoImplicit false

namespace ChangeScope.Json

/-! ## Values -/

/-- A value is read from its tree, with its members in order. -/
theorem any_toTree {a : Json} {ctx : Context} (h : a.height ≤ ctx.depth) :
    Decode.any ctx (toTree a) = .ok a.sorted := by
  rw [Decode.any, value_toTree a h]

theorem itemTrees_eq_map (items : List Json) : itemTrees items = items.map toTree := by
  induction items with
  | nil => rfl
  | cons item items ih => rw [itemTrees, ih, List.map_cons]

theorem memberTrees_eq_map (members : List (String × Json)) :
    memberTrees members = members.map fun m => (.ok m.1, toTree m.2) := by
  induction members with
  | nil => rfl
  | cons member members ih => rw [memberTrees, ih, List.map_cons]

theorem mem_memberTrees {members : List (String × Json)} {key : String} {value : Json}
    (h : (key, value) ∈ members) : (.ok key, toTree value) ∈ memberTrees members := by
  rw [memberTrees_eq_map]
  exact List.mem_map_of_mem h

theorem membersHeight_le_iff {members : List (String × Json)} {n : Nat} :
    membersHeight members ≤ n ↔ ∀ m ∈ members, m.2.height ≤ n := by
  induction members with
  | nil => simp [membersHeight]
  | cons m members ih => rw [membersHeight, Nat.max_le, ih, List.forall_mem_cons]

theorem itemsHeight_le_iff {items : List Json} {n : Nat} :
    itemsHeight items ≤ n ↔ ∀ item ∈ items, item.height ≤ n := by
  induction items with
  | nil => simp [itemsHeight]
  | cons item items ih => rw [itemsHeight, Nat.max_le, ih, List.forall_mem_cons]

theorem height_strings (values : List String) : (strings values).height ≤ 1 := by
  rw [strings, height]
  refine Nat.succ_le_succ (itemsHeight_le_iff.mpr fun item hitem => ?_)
  obtain ⟨value, -, rfl⟩ := List.mem_map.mp hitem
  exact Nat.le_refl 0

theorem listItems_any {ctx : Context} : ∀ items : List Json, itemsHeight items ≤ ctx.depth →
    Decode.listItems Decode.any ctx (itemTrees items) = .ok (sortedItems items)
  | [], _ => rfl
  | item :: items, h => by
      rw [itemsHeight] at h
      rw [itemTrees, Decode.listItems, any_toTree (Nat.le_trans (Nat.le_max_left _ _) h),
        listItems_any items (Nat.le_trans (Nat.le_max_right _ _) h)]
      rfl

/-- An array of any values is read as such. -/
theorem list_any_toTree {items : List Json} {ctx : Context}
    (h : height (.arr items) ≤ ctx.depth) :
    Decode.list Decode.any ctx (toTree (.arr items)) = .ok (sortedItems items) := by
  obtain ⟨origin, depth⟩ := ctx
  rw [height] at h
  obtain ⟨depth, rfl⟩ := Nat.exists_eq_add_of_le' (Nat.one_le_of_lt h)
  rw [toTree, Decode.list, Context.enter]
  show (Decode.listItems Decode.any ⟨origin, depth⟩ _ >>= _) = _
  rw [listItems_any items (Nat.le_of_succ_le_succ h)]
  rfl

/-- Members with any values are read as a map. -/
theorem map_toTree {members : List (String × Json)} {ctx : Context}
    (h : height (.obj members) ≤ ctx.depth) :
    Decode.map ctx (toTree (.obj members)) =
      .ok (OrderedMap.ofList (sortedMembers members)) := by
  obtain ⟨origin, depth⟩ := ctx
  rw [height] at h
  obtain ⟨depth, rfl⟩ := Nat.exists_eq_add_of_le' (Nat.one_le_of_lt h)
  have hmembers : ∀ ms : List (String × Json), membersHeight ms ≤ depth →
      Decode.mapMembers ⟨origin, depth⟩ (memberTrees ms) = .ok (sortedMembers ms) := by
    intro ms
    induction ms with
    | nil => exact fun _ => rfl
    | cons m ms ih =>
        obtain ⟨key, value⟩ := m
        intro hheight
        rw [membersHeight] at hheight
        rw [memberTrees, Decode.mapMembers, any_toTree (Nat.le_trans (Nat.le_max_left _ _) hheight),
          ih (Nat.le_trans (Nat.le_max_right _ _) hheight)]
        rfl
  rw [toTree, Decode.map, Context.enter]
  show (Decode.mapMembers ⟨origin, depth⟩ (memberTrees members) >>= _) = _
  rw [hmembers members (Nat.le_of_succ_le_succ h)]
  rfl

/-- An array of strings is read as such. -/
theorem list_string_toTree (values : List String) {ctx : Context} (h : 0 < ctx.depth) :
    Decode.list Decode.string ctx (toTree (strings values)) = .ok values := by
  obtain ⟨origin, depth⟩ := ctx
  obtain ⟨depth, rfl⟩ := Nat.exists_eq_add_of_le' h
  have hitems : Decode.listItems Decode.string ⟨origin, depth⟩ (itemTrees (values.map .str)) =
      .ok values := by
    induction values with
    | nil => rfl
    | cons s values ih =>
        rw [List.map_cons, itemTrees, Decode.listItems, ih]
        rfl
  rw [strings, toTree, Decode.list, Context.enter]
  show (Decode.listItems Decode.string ⟨origin, depth⟩ _ >>= _) = _
  rw [hitems]
  rfl

theorem natural_toTree (n : Nat) (ctx : Context) :
    Decode.natural ctx (toTree (.nat n)) = .ok n := by
  simp only [nat, toTree, Decode.natural, Int.natCast_nonneg, if_true, Int.toNat_natCast]

/-- An absent value is written as null. -/
theorem optional_toTree {α : Type} {write : α → Json} {read : Decode α} {ctx : Context}
    {value : Option α} (hread : ∀ x ∈ value, read ctx (toTree (write x)) = .ok x)
    (hwrite : ∀ x ∈ value, toTree (write x) ≠ .null) :
    Decode.optional read ctx (toTree ((value.map write).getD .null)) = .ok value := by
  cases value with
  | none => rfl
  | some x =>
      rw [Option.map_some, Option.getD_some, Decode.optional]
      · rw [hread x rfl]
        rfl
      · exact hwrite x rfl

/-! ## Records -/

section Records

variable {σ : Type} {record : Record σ} {ctx : Context} {s : σ}

theorem Slot.read_of {α : Type} {name : String} {need : Need} {read : Decode α}
    {set : α → σ → σ} {tree : Tree} {v : α} (h : read ctx tree = .ok v) :
    (Slot.of name need read set).read ctx tree = .ok (set v) := by
  show (read ctx tree).map set = _
  rw [h]
  rfl

theorem Slot.read_alsoNamed {slot : Slot σ} {name : String} {tree : Tree} {put : σ → σ}
    (h : slot.read ctx tree = .ok put) : (slot.alsoNamed name).read ctx tree = .ok put := h

namespace Record

theorem fillMembers_cons {seen : List String} {key : String} {tree : Tree} {slot : Slot σ}
    {put : σ → σ} {rest : List (Except Flaw String × Tree)}
    (hslot : record.slots.find? (·.goesBy key) = some slot) (hseen : slot.name ∉ seen)
    (hread : slot.read ctx tree = .ok put) :
    record.fillMembers ctx seen s ((.ok key, tree) :: rest) =
      (record.fillMembers ctx (slot.name :: seen) (put s) rest).mapError .later := by
  rw [fillMembers, hslot]
  simp only [List.contains_eq_mem, hseen, decide_false, Bool.false_eq_true, if_false, hread]
  rfl

theorem fillItems_cons {ended : Option Break} {n : Nat} {tree : Tree} {slot : Slot σ}
    {slots : List (Slot σ)} {put : σ → σ} {items : List Tree}
    (hread : slot.read ctx tree = .ok put) :
    record.fillItems ctx ended n (slot :: slots) s (tree :: items) =
      (record.fillItems ctx ended (n + 1) slots (put s) items).mapError .later := by
  rw [fillItems, hread]
  rfl

/-- A record is read from an object in which its fields can be filled in. -/
theorem decode_obj (seen : List String) {members : List (String × Json)} {blank : σ}
    {origin : Origin} {depth : Nat}
    (hfill : record.fillMembers ⟨origin, depth⟩ [] blank (memberTrees members) = .ok (seen, s))
    (hmissing : record.missing? seen = none) :
    record.decode blank ⟨origin, depth + 1⟩ (toTree (.obj members)) = .ok s := by
  show (record.fillMembers ⟨origin, depth⟩ [] blank (memberTrees members) >>= _) = _
  rw [hfill]
  simp only [bind, Except.bind, hmissing]
  rfl

/-- A record is read from an array of all its fields. -/
theorem decode_arr {items : List Json} {blank : σ} {origin : Origin} {depth : Nat}
    (hfill : record.fillItems ⟨origin, depth⟩ none 0 record.slots blank (itemTrees items) =
      .ok (s, [])) :
    record.decode blank ⟨origin, depth + 1⟩ (toTree (.arr items)) = .ok s := by
  show (record.fillItems ⟨origin, depth⟩ none 0 record.slots blank (itemTrees items) >>= _) = _
  rw [hfill]
  cases origin <;> rfl

end Record

end Records

/-! ## Texts -/

/-- What is read from the tree of a value is read from every text that spells it. -/
theorem decodeText_of_spells {α : Type} {read : Decode α} {a : Json} {x : α} {cs : List Char}
    (h : Spells a cs) (hread : read ⟨.text, maxDepth⟩ (toTree a) = .ok x) :
    decodeText read cs = .ok x := by
  have htext := ofText_of_spells h isGap_nil
  rw [List.append_nil] at htext
  rw [decodeText, htext]
  simp only [hread]

/-- What is wrong with the tree of a value is reported for every text that spells it. -/
theorem decodeText_error {α : Type} {read : Decode α} {a : Json} {cs : List Char}
    {e : Located Misfit} (h : Spells a cs) (hread : read ⟨.text, maxDepth⟩ (toTree a) = .error e) :
    decodeText read cs = .error (e.mismatch cs) := by
  have htext := ofText_of_spells h isGap_nil
  rw [List.append_nil] at htext
  rw [decodeText, htext]
  simp only [hread]

/-- What is read from a text is read from its tree. -/
theorem ok_of_decodeText {α : Type} {read : Decode α} {x : α} {cs : List Char}
    (h : decodeText read cs = .ok x) :
    read ⟨.text, maxDepth⟩ (Document.ofText cs).root = .ok x := by
  rw [decodeText] at h
  split at h
  · cases h
  · cases h
  · next hread _ =>
      cases h
      exact hread

end ChangeScope.Json
