import Mathlib.Data.List.Induction
import Mathlib.Order.Defs.LinearOrder
import Mathlib.Order.RelClasses
import ChangeScope.Ordered

/-!
# Ordered sets and maps hold what was put in

A set holds the items it was made of, in increasing order; a map gives for each key the value that
was set last.
-/

set_option autoImplicit false

namespace ChangeScope

/-! ## Sets -/

namespace OrderedSet

section Membership

variable {α : Type} [LT α] [DecidableLT α] [Std.Trichotomous (α := α) (· < ·)]

@[simp] theorem mem_insert {x y : α} {s : List α} : y ∈ insert x s ↔ y = x ∨ y ∈ s := by
  induction s with
  | nil => simp [insert]
  | cons z rest ih =>
      rw [insert]
      split
      · rw [List.mem_cons]
      · next hxz =>
          split
          · rw [List.mem_cons, ih, List.mem_cons]
            exact or_left_comm
          · next hzx =>
              have heq : x = z := Std.Trichotomous.trichotomous (r := (· < ·)) x z hxz hzx
              rw [heq, List.mem_cons]
              simp

@[simp] theorem mem_ofList {y : α} {items : List α} : y ∈ ofList items ↔ y ∈ items := by
  induction items with
  | nil => rfl
  | cons x rest ih =>
      show y ∈ insert x (ofList rest) ↔ _
      rw [mem_insert, ih, List.mem_cons]

variable [IsTrans α (· < ·)]

/-- Putting an item in keeps the order. -/
theorem insert_increasing {x : α} {s : List α} (h : s.Pairwise (· < ·)) :
    (insert x s).Pairwise (· < ·) := by
  induction s with
  | nil => exact List.pairwise_singleton _ x
  | cons z rest ih =>
      obtain ⟨hz, hrest⟩ := List.pairwise_cons.mp h
      rw [insert]
      split
      · next hxz =>
          refine List.pairwise_cons.mpr ⟨?_, h⟩
          intro y hy
          rcases List.mem_cons.mp hy with rfl | hy
          · exact hxz
          · exact IsTrans.trans x z y hxz (hz y hy)
      · split
        · next hzx =>
            refine List.pairwise_cons.mpr ⟨?_, ih hrest⟩
            intro y hy
            rcases mem_insert.mp hy with rfl | hy
            · exact hzx
            · exact hz y hy
        · exact h

theorem ofList_increasing (items : List α) : (ofList items).Pairwise (· < ·) := by
  induction items with
  | nil => exact List.Pairwise.nil
  | cons x rest ih => exact insert_increasing ih

omit [IsTrans α (· < ·)] in
@[simp] theorem mem_extend {y : α} {s items : List α} : y ∈ extend s items ↔ y ∈ s ∨ y ∈ items := by
  induction items generalizing s with
  | nil => simp [extend]
  | cons x rest ih =>
      show y ∈ extend (insert x s) rest ↔ _
      rw [ih, mem_insert, List.mem_cons, or_comm (a := y = x), or_assoc]

theorem extend_increasing {s items : List α} (h : s.Pairwise (· < ·)) :
    (extend s items).Pairwise (· < ·) := by
  induction items generalizing s with
  | nil => exact h
  | cons x rest ih => exact ih (insert_increasing h)

end Membership

end OrderedSet

/-! ## Maps -/

namespace OrderedMap

variable {α : Type}

@[simp] theorem get?_insert_self (key : String) (value : α) (map : OrderedMap α) :
    get? (insert key value map) key = some value := by
  induction map with
  | nil => simp [insert, get?]
  | cons entry rest ih =>
      obtain ⟨k, v⟩ := entry
      rw [insert]
      split
      · simp [get?]
      · split
        · simp [get?]
        · next hne =>
            rw [get?, List.lookup_cons, beq_false_of_ne hne]
            exact ih

theorem get?_insert_of_ne {key other : String} (h : other ≠ key) (value : α)
    (map : OrderedMap α) : get? (insert key value map) other = get? map other := by
  induction map with
  | nil => simp [insert, get?, h]
  | cons entry rest ih =>
      obtain ⟨k, v⟩ := entry
      rw [insert]
      split
      · rw [get?, List.lookup_cons, beq_false_of_ne h]
        rfl
      · split
        · next heq =>
            subst heq
            rw [get?, get?, List.lookup_cons, List.lookup_cons, beq_false_of_ne h]
        · rw [get?, get?, List.lookup_cons, List.lookup_cons]
          split
          · rfl
          · exact ih

/-! ### Keys -/

theorem hasKey_iff {map : OrderedMap α} {key : String} :
    map.hasKey key = true ↔ key ∈ map.keys := by
  rw [hasKey, get?, keys, List.mem_map]
  induction map with
  | nil => simp
  | cons entry rest ih =>
      obtain ⟨k, v⟩ := entry
      by_cases h : key = k
      · subst h
        simp
      · rw [List.lookup_cons, beq_false_of_ne h, ih]
        simp [Ne.symm h]

/-- The keys of a map are a set, to which a key is added when its value is set. -/
theorem keys_insert (key : String) (value : α) (map : OrderedMap α) :
    (insert key value map).keys = OrderedSet.insert key map.keys := by
  induction map with
  | nil => rfl
  | cons entry rest ih =>
      obtain ⟨k, v⟩ := entry
      show (insert key value ((k, v) :: rest)).keys = OrderedSet.insert key (k :: keys rest)
      rw [insert, OrderedSet.insert]
      by_cases hlt : key < k
      · rw [if_pos hlt, if_pos hlt]
        rfl
      · rw [if_neg hlt, if_neg hlt]
        by_cases heq : key = k
        · subst heq
          rw [if_pos rfl, if_neg hlt]
          rfl
        · -- of two different keys one comes first
          have hgt : k < key := by
            by_contra hgt
            exact heq (Std.Trichotomous.trichotomous (r := (· < ·)) key k hlt hgt)
          rw [if_neg heq, if_pos hgt, ← ih]
          rfl

theorem mem_insert_of_new {key : String} {value : α} {map : OrderedMap α} (h : key ∉ map.keys)
    {entry : String × α} : entry ∈ insert key value map ↔ entry = (key, value) ∨ entry ∈ map := by
  induction map with
  | nil => simp [insert]
  | cons first rest ih =>
      obtain ⟨k, v⟩ := first
      have hne : key ≠ k := fun hk => h (by rw [hk]; exact List.mem_cons_self)
      have hrest : key ∉ keys rest := fun hk => h (List.mem_cons_of_mem _ hk)
      rw [insert, if_neg hne]
      split
      · exact List.mem_cons
      · rw [List.mem_cons, ih hrest, List.mem_cons]
        exact or_left_comm

/-! ### Maps made of entries -/

theorem keys_insert_increasing {key : String} {value : α} {map : OrderedMap α}
    (h : map.keys.Pairwise (· < ·)) : (insert key value map).keys.Pairwise (· < ·) := by
  rw [keys_insert]
  exact OrderedSet.insert_increasing h

theorem ofList_append_singleton (entries : List (String × α)) (key : String) (value : α) :
    ofList (entries ++ [(key, value)]) = insert key value (ofList entries) := by
  rw [ofList, List.foldl_append]
  rfl

/-- **The keys of a map are in increasing order.** -/
theorem keys_ofList_increasing (entries : List (String × α)) :
    (ofList entries).keys.Pairwise (· < ·) := by
  induction entries using List.reverseRecOn with
  | nil => exact List.Pairwise.nil
  | append_singleton entries entry ih =>
      rw [ofList_append_singleton]
      exact keys_insert_increasing ih

/-- **A map gives the last value given for a key.** -/
theorem get?_ofList (entries : List (String × α)) (key : String) :
    get? (ofList entries) key = entries.reverse.lookup key := by
  induction entries using List.reverseRecOn with
  | nil => rfl
  | append_singleton entries entry ih =>
      obtain ⟨k, v⟩ := entry
      rw [ofList_append_singleton, List.reverse_append, List.reverse_singleton,
        List.singleton_append, List.lookup_cons]
      by_cases h : key = k
      · subst h
        rw [get?_insert_self, beq_self_eq_true]
      · rw [get?_insert_of_ne h, ih, beq_false_of_ne h]

theorem insert_of_last {key : String} {value : α} {map : OrderedMap α}
    (h : ∀ k ∈ map.keys, k < key) : insert key value map = map ++ [(key, value)] := by
  induction map with
  | nil => rfl
  | cons entry rest ih =>
      obtain ⟨k, v⟩ := entry
      have hlast : k < key := h k List.mem_cons_self
      have hne : key ≠ k := by
        rintro rfl
        exact String.lt_irrefl key hlast
      rw [insert, if_neg (String.lt_asymm hlast), if_neg hne,
        ih fun other hother => h other (List.mem_cons_of_mem _ hother)]
      rfl

/-- Entries with increasing keys are a map. -/
theorem ofList_of_increasing {map : OrderedMap α} (h : map.keys.Pairwise (· < ·)) :
    ofList map = map := by
  induction map using List.reverseRecOn with
  | nil => rfl
  | append_singleton map entry ih =>
      obtain ⟨key, value⟩ := entry
      rw [keys, List.map_append, List.pairwise_append] at h
      obtain ⟨hmap, -, hlast⟩ := h
      rw [ofList_append_singleton, ih hmap]
      exact insert_of_last fun k hk => hlast k hk key (List.mem_singleton.mpr rfl)

theorem get?_eq_none {map : OrderedMap α} {key : String} (h : key ∉ map.keys) :
    map.get? key = none := by
  rw [← hasKey_iff, hasKey, Bool.not_eq_true, Option.isSome_eq_false_iff] at h
  exact Option.isNone_iff_eq_none.mp h

/-- A map gives the value of each entry. -/
theorem get?_of_mem {map : OrderedMap α} {key : String} {value : α}
    (h : map.keys.Pairwise (· < ·)) (hmem : (key, value) ∈ map) : map.get? key = some value := by
  induction map with
  | nil => exact absurd hmem List.not_mem_nil
  | cons entry map ih =>
      obtain ⟨k, v⟩ := entry
      obtain ⟨hfirst, hrest⟩ := List.pairwise_cons.mp h
      rcases List.mem_cons.mp hmem with heq | hmem
      · obtain ⟨rfl, rfl⟩ := Prod.mk.inj heq
        simp [get?]
      · have hkey : key ∈ keys map := List.mem_map_of_mem hmem
        have hne : key ≠ k := by
          rintro rfl
          exact String.lt_irrefl key (hfirst key hkey)
        rw [get?, List.lookup_cons, beq_false_of_ne hne]
        exact ih hrest hmem

/-- **A map is what it gives for each key.** -/
theorem ext_of_increasing {m n : OrderedMap α} (hm : m.keys.Pairwise (· < ·))
    (hn : n.keys.Pairwise (· < ·)) (h : ∀ key, m.get? key = n.get? key) : m = n := by
  induction m generalizing n with
  | nil =>
      cases n with
      | nil => rfl
      | cons entry n =>
          obtain ⟨k, v⟩ := entry
          exact absurd (h k) (by simp [get?])
  | cons entry m ih =>
      cases n with
      | nil =>
          obtain ⟨k, v⟩ := entry
          exact absurd (h k) (by simp [get?])
      | cons entry' n =>
          obtain ⟨k, v⟩ := entry
          obtain ⟨k', v'⟩ := entry'
          obtain ⟨hk, hmrest⟩ := List.pairwise_cons.mp hm
          obtain ⟨hk', hnrest⟩ := List.pairwise_cons.mp hn
          have hkeys : ∀ key, key ∈ keys ((k, v) :: m) ↔ key ∈ keys ((k', v') :: n) := by
            intro key
            rw [← hasKey_iff, ← hasKey_iff, hasKey, hasKey, h]
          -- each first key is the least one, so the two are the same
          obtain rfl : k = k' := by
            rcases List.mem_cons.mp ((hkeys k).mp List.mem_cons_self) with heq | hlt
            · exact heq
            · rcases List.mem_cons.mp ((hkeys k').mpr List.mem_cons_self) with heq | hgt
              · exact heq.symm
              · exact absurd (hk' k hlt) (String.lt_asymm (hk k' hgt))
          have hv : v = v' := by simpa [get?] using h k
          have hrest : ∀ key, get? m key = get? n key := by
            intro key
            by_cases hkey : key = k
            · subst hkey
              rw [get?_eq_none fun hmem => String.lt_irrefl key (hk key hmem),
                get?_eq_none fun hmem => String.lt_irrefl key (hk' key hmem)]
            · simpa [get?, List.lookup_cons, beq_false_of_ne hkey] using h key
          rw [hv, ih hmrest hnrest hrest]

end OrderedMap

end ChangeScope
