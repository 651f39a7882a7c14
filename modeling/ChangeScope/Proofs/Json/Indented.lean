import ChangeScope.Proofs.Json.Spelling
import ChangeScope.Proofs.Json.Value

/-!
# The indented form

The indented form spells its value (`spells_writeIndented`): its line feeds and blanks stand where
blanks may stand. So a value whose numbers are exact and that is not too deep is read back from it,
with the members of its objects in order (`ofText_pretty`).
-/

set_option autoImplicit false

namespace ChangeScope.Json

/-! ## Gaps -/

theorem IsGap.append {a b : List Char} (ha : IsGap a) (hb : IsGap b) : IsGap (a ++ b) := by
  intro c hc
  rcases List.mem_append.mp hc with h | h
  · exact ha c h
  · exact hb c h

theorem isGap_newLine (level : Nat) : IsGap (newLine level) := by
  intro c hc
  rcases List.mem_cons.mp hc with rfl | hblank
  · rfl
  · rw [List.eq_of_mem_replicate hblank]
    rfl

/-- More blanks in front of a value do no harm. -/
theorem Spells.behind {gap cs : List Char} {a : Json} (hgap : IsGap gap) (h : Spells a cs) :
    Spells a (gap ++ cs) := by
  cases h with
  | null hfirst => simpa using Spells.null (hgap.append hfirst)
  | bool b hfirst => simpa using Spells.bool b (hgap.append hfirst)
  | int hfirst hn => simpa using Spells.int (hgap.append hfirst) hn
  | str s hfirst => simpa using Spells.str s (hgap.append hfirst)
  | emptyArr hfirst hinner => simpa using Spells.emptyArr (hgap.append hfirst) hinner
  | arr hfirst hitem hitems => simpa using Spells.arr (hgap.append hfirst) hitem hitems
  | emptyObj hfirst hinner => simpa using Spells.emptyObj (hgap.append hfirst) hinner
  | obj hfirst hbefore hbehind hvalue hmembers =>
    simpa using Spells.obj (hgap.append hfirst) hbefore hbehind hvalue hmembers

/-! ## The first item and the others -/

/-- What stands behind the first item or member: the others, and how they end. -/
def behindFirst {α : Type} (write : List α → List Char) (ending : List Char) : List α → List Char
  | [] => ending
  | x :: others => ',' :: (write (x :: others) ++ ending)

theorem indentedItems_append (level : Nat) (item : Json) (items : List Json)
    (ending : List Char) :
    indentedItems level (item :: items) ++ ending =
      (newLine level ++ writeIndented level item) ++
        behindFirst (indentedItems level) ending items := by
  cases items with
  | nil => rfl
  | cons next items => simp [indentedItems, behindFirst]

theorem indentedMembers_append (level : Nat) (key : String) (value : Json)
    (members : List (String × Json)) (ending : List Char) :
    indentedMembers level ((key, value) :: members) ++ ending =
      newLine level ++ (writeString key.toList ++ ':' :: (([' '] ++ writeIndented level value) ++
        behindFirst (indentedMembers level) ending members)) := by
  cases members with
  | nil => simp [indentedMembers, behindFirst]
  | cons next members => simp [indentedMembers, behindFirst]

theorem writeIndented_arr (level : Nat) (item : Json) (items : List Json) :
    writeIndented level (.arr (item :: items)) =
      '[' :: ((newLine (level + 1) ++ writeIndented (level + 1) item) ++
        behindFirst (indentedItems (level + 1)) (newLine level ++ [']']) items) := by
  rw [writeIndented, List.append_assoc, List.cons_append, indentedItems_append]

theorem writeIndented_obj (level : Nat) (key : String) (value : Json)
    (members : List (String × Json)) :
    writeIndented level (.obj ((key, value) :: members)) =
      '\x7b' :: (newLine (level + 1) ++ (writeString key.toList ++
        ':' :: (([' '] ++ writeIndented (level + 1) value) ++
          behindFirst (indentedMembers (level + 1)) (newLine level ++ ['\x7d']) members))) := by
  rw [writeIndented, List.append_assoc, List.cons_append, indentedMembers_append]

/-! ## Spelling -/

theorem isGap_blank : IsGap [' '] := by
  intro c hc
  rw [List.mem_singleton.mp hc]
  rfl

mutual

/-- **The indented form spells the value**, at every level. -/
theorem spells_writeIndented : ∀ (a : Json) (level : Nat), IsPrecise a →
    Spells a (writeIndented level a)
  | .null, _, _ => .null isGap_nil
  | .bool true, _, _ => .bool true isGap_nil
  | .bool false, _, _ => .bool false isGap_nil
  | .int _, _, h => by
      cases h with
      | int hn => exact .int isGap_nil hn
  | .str s, _, _ => .str s isGap_nil
  | .float _, _, h => nomatch h
  | .arr [], _, _ => .emptyArr isGap_nil isGap_nil
  | .arr (item :: items), level, h => by
      cases h with
      | arr hall =>
        obtain ⟨hitem, hitems⟩ := List.forall_mem_cons.mp hall
        have hfirst := (spells_writeIndented item (level + 1) hitem).behind
          (isGap_newLine (level + 1))
        rw [writeIndented_arr]
        exact .arr isGap_nil hfirst (spellsItems_indented items (level + 1) level hitems)
  | .obj [], _, _ => .emptyObj isGap_nil isGap_nil
  | .obj ((key, value) :: members), level, h => by
      cases h with
      | obj hall =>
        obtain ⟨hvalue, hmembers⟩ := List.forall_mem_cons.mp hall
        have hfirst := (spells_writeIndented value (level + 1) hvalue).behind isGap_blank
        rw [writeIndented_obj]
        exact .obj isGap_nil (isGap_newLine (level + 1)) isGap_nil hfirst
          (spellsMembers_indented members (level + 1) level hmembers)

theorem spellsItems_indented : ∀ (items : List Json) (level outer : Nat),
    (∀ item ∈ items, IsPrecise item) →
    SpellsItems items (behindFirst (indentedItems level) (newLine outer ++ [']']) items)
  | [], _, outer, _ => .close (isGap_newLine outer)
  | item :: items, level, outer, h => by
      obtain ⟨hitem, hitems⟩ := List.forall_mem_cons.mp h
      have hfirst := (spells_writeIndented item level hitem).behind (isGap_newLine level)
      rw [behindFirst, indentedItems_append]
      exact .next isGap_nil hfirst (spellsItems_indented items level outer hitems)

theorem spellsMembers_indented : ∀ (members : List (String × Json)) (level outer : Nat),
    (∀ m ∈ members, IsPrecise m.2) →
    SpellsMembers members (behindFirst (indentedMembers level) (newLine outer ++ ['\x7d']) members)
  | [], _, outer, _ => .close (isGap_newLine outer)
  | (key, value) :: members, level, outer, h => by
      obtain ⟨hvalue, hmembers⟩ := List.forall_mem_cons.mp h
      have hfirst := (spells_writeIndented value level hvalue).behind isGap_blank
      rw [behindFirst, indentedMembers_append]
      exact .next isGap_nil (isGap_newLine level) isGap_nil hfirst
        (spellsMembers_indented members level outer hmembers)

end

/-- **A value is read back from its indented form**, with the members of its objects in order. -/
theorem ofText_pretty {a : Json} (hprecise : IsPrecise a) (hheight : a.height ≤ maxDepth) :
    ofText a.pretty.toList = .ok a.sorted := by
  have hdocument : Document.ofText a.pretty.toList = ⟨toTree a, none⟩ := by
    rw [pretty, String.toList_ofList, ← List.append_nil (writeIndented 0 a)]
    exact ofText_of_spells (spells_writeIndented a 0 hprecise) isGap_nil
  rw [ofText, hdocument]
  simp only [value_toTree a hheight]
  rfl

end ChangeScope.Json
