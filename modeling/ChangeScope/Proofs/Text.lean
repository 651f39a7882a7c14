import Mathlib.Data.List.TakeWhile
import Mathlib.Tactic
import ChangeScope.Text

/-!
# Cutting text

What the cuts of a text that is put together of parts are.
-/

set_option autoImplicit false

namespace ChangeScope.Text

/-! ## Beginnings -/

theorem isPrefixOf?_eq_some_iff {a b after : List Char} :
    a.isPrefixOf? b = some after ↔ b = a ++ after :=
  List.isPrefixOf?_eq_some_iff_append_eq.trans eq_comm

theorem isPrefixOf?_eq_none_iff {a b : List Char} :
    a.isPrefixOf? b = none ↔ ¬ a <+: b := by
  constructor
  · rintro h ⟨after, rfl⟩
    rw [isPrefixOf?_eq_some_iff.mpr rfl] at h
    exact absurd h (by simp)
  · intro h
    cases hp : a.isPrefixOf? b with
    | none => rfl
    | some after => exact absurd ⟨after, (isPrefixOf?_eq_some_iff.mp hp).symm⟩ h

/-- Whether a text begins so does not depend on what follows enough of it. -/
theorem prefix_append_iff {a b : List Char} (h : a.length ≤ b.length) (after : List Char) :
    a <+: b ++ after ↔ a <+: b := by
  constructor
  · intro hp
    exact List.prefix_of_prefix_length_le hp (List.prefix_append b after) h
  · intro hp
    exact hp.trans (List.prefix_append b after)

/-- A text that lacks a character does not begin beyond its first occurrence. -/
theorem prefix_within {kw a : List Char} {c : Char} (hc : c ∈ a) (hkw : c ∉ kw) (b : List Char) :
    kw <+: a ++ b ↔ kw <+: a := by
  constructor
  · intro h
    rcases List.prefix_or_prefix_of_prefix h (List.prefix_append a b) with h | h
    · exact h
    · exact absurd (h.subset hc) hkw
  · intro h
    exact h.trans (List.prefix_append a b)

/-! ## Stretches of one kind -/

/-- Characters of two kinds are two characters. -/
theorem ne_of_kind {p : Char → Bool} {c d : Char} (hc : p c = true) (hd : p d = false) : c ≠ d := by
  rintro rfl
  rw [hc] at hd
  exact absurd hd (by decide)

/-- A stretch of characters of a kind ends where the kind does. -/
theorem takeWhile_stretch {α : Type} {p : α → Bool} {a b : List α} (ha : ∀ c ∈ a, p c = true)
    (hb : ∀ c, b.head? = some c → p c = false) :
    (a ++ b).takeWhile p = a ∧ (a ++ b).dropWhile p = b := by
  rw [List.takeWhile_append_of_pos ha, List.dropWhile_append_of_pos ha]
  cases b with
  | nil => exact ⟨List.append_nil a, rfl⟩
  | cons c rest =>
      have hc := hb c rfl
      rw [List.takeWhile_cons_of_neg (by simp [hc]), List.dropWhile_cons_of_neg (by simp [hc])]
      exact ⟨List.append_nil a, rfl⟩

theorem span_stretch {α : Type} {p : α → Bool} {a b : List α} (ha : ∀ c ∈ a, p c = true)
    (hb : ∀ c, b.head? = some c → p c = false) : (a ++ b).span p = (a, b) := by
  obtain ⟨htake, hdrop⟩ := takeWhile_stretch ha hb
  rw [List.span_eq_takeWhile_dropWhile]
  exact Prod.ext htake hdrop

/-- A stretch that ends inside a text ends there whatever follows. -/
theorem takeWhile_within {p : Char → Bool} {a : List Char} {c : Char} (hc : c ∈ a)
    (hp : p c = false) (b : List Char) :
    (a ++ b).takeWhile p = a.takeWhile p ∧ (a ++ b).dropWhile p = a.dropWhile p ++ b ∧
      c ∈ a.dropWhile p := by
  have hmem : c ∈ a.dropWhile p := by
    rw [← List.takeWhile_append_dropWhile (p := p) (l := a), List.mem_append] at hc
    rcases hc with hc | hc
    · rw [List.mem_takeWhile_imp hc] at hp
      exact absurd hp (by decide)
    · exact hc
  refine ⟨?_, ?_, hmem⟩
  · rw [List.takeWhile_append, if_neg]
    intro hlength
    have hsplit := congrArg List.length (List.takeWhile_append_dropWhile (p := p) (l := a))
    rw [List.length_append, hlength] at hsplit
    have hnil : a.dropWhile p = [] := List.eq_nil_of_length_eq_zero (by omega)
    rw [hnil] at hmem
    exact absurd hmem List.not_mem_nil
  · rw [List.dropWhile_append, if_neg]
    intro hempty
    rw [List.isEmpty_iff.mp hempty] at hmem
    exact absurd hmem List.not_mem_nil

/-! ## Ends -/

/-- Nothing is dropped behind a last character that stays. -/
theorem dropTrailing_self {p : Char → Bool} {a : List Char} {c : Char} (hlast : a.getLast? = some c)
    (hc : p c = false) : dropTrailing p a = a := by
  induction a with
  | nil => rfl
  | cons d rest ih =>
      cases rest with
      | nil =>
          obtain rfl : d = c := Option.some.inj hlast
          show (if p d then [] else [d]) = [d]
          rw [hc, if_neg Bool.false_ne_true]
      | cons e rest =>
          rw [List.getLast?_cons_cons] at hlast
          rw [dropTrailing, ih hlast]

theorem mem_of_mem_dropTrailing {p : Char → Bool} {a : List Char} {c : Char}
    (h : c ∈ dropTrailing p a) : c ∈ a := by
  induction a with
  | nil => exact h
  | cons d a ih =>
      rw [dropTrailing] at h
      split at h
      · split at h
        · exact absurd h List.not_mem_nil
        · rw [List.mem_singleton.mp h]
          exact List.mem_cons_self
      · rcases List.mem_cons.mp h with rfl | h
        · exact List.mem_cons_self
        · exact List.mem_cons_of_mem d (ih h)

/-- Characters that go are dropped from the end. -/
theorem dropTrailing_append {p : Char → Bool} {b : List Char} (hb : ∀ c ∈ b, p c = true)
    (a : List Char) : dropTrailing p (a ++ b) = dropTrailing p a := by
  induction a with
  | nil =>
      show dropTrailing p b = []
      induction b with
      | nil => rfl
      | cons c rest ih =>
          rw [dropTrailing, ih fun d hd => hb d (List.mem_cons_of_mem c hd)]
          exact if_pos (hb c List.mem_cons_self)
  | cons c rest ih => rw [List.cons_append, dropTrailing, dropTrailing, ih]

/-! ## Searching -/

/-- The first separator is found where its first character does not occur before. -/
theorem splitOnce_append {c : Char} {a : List Char} (ha : c ∉ a) (s b : List Char) :
    splitOnce (c :: s) (a ++ ((c :: s) ++ b)) = some (a, b) := by
  induction a with
  | nil =>
      have hstarts : (c :: s).isPrefixOf? (c :: (s ++ b)) = some b :=
        isPrefixOf?_eq_some_iff.mpr rfl
      rw [List.nil_append, List.cons_append, splitOnce, hstarts]
  | cons d a ih =>
      have hd : c ≠ d := fun heq => ha (by rw [heq]; exact List.mem_cons_self)
      have hstarts : (c :: s).isPrefixOf? (d :: (a ++ ((c :: s) ++ b))) = none := by
        apply isPrefixOf?_eq_none_iff.mpr
        rw [List.cons_prefix_cons]
        exact fun h => hd h.1
      rw [List.cons_append, splitOnce, hstarts, ih fun h => ha (List.mem_cons_of_mem d h)]
      rfl

/-- No separator is found where its first character does not occur. -/
theorem splitOnce_eq_none {c : Char} {a : List Char} (ha : c ∉ a) (s : List Char) :
    splitOnce (c :: s) a = none := by
  induction a with
  | nil => rfl
  | cons d a ih =>
      have hd : c ≠ d := fun heq => ha (by rw [heq]; exact List.mem_cons_self)
      have hstarts : (c :: s).isPrefixOf? (d :: a) = none := by
        apply isPrefixOf?_eq_none_iff.mpr
        rw [List.cons_prefix_cons]
        exact fun h => hd h.1
      rw [splitOnce, hstarts, ih fun h => ha (List.mem_cons_of_mem d h)]
      rfl

/-- No separator is found just where none occurs. -/
theorem splitLast_eq_none_iff {sep cs : List Char} : splitLast sep cs = none ↔ ¬ sep <:+: cs := by
  induction cs with
  | nil => cases sep <;> simp [splitLast]
  | cons c rest ih =>
      rw [splitLast, List.infix_cons_iff, not_or]
      split
      · next before after hrest =>
          have hin : ¬ ¬ sep <:+: rest := fun hno => by simp [ih.mpr hno] at hrest
          exact ⟨fun h => absurd h (by simp), fun h => absurd h.2 hin⟩
      · next hrest =>
          rw [Option.map_eq_none_iff, isPrefixOf?_eq_none_iff]
          exact ⟨fun h => ⟨h, ih.mp hrest⟩, And.left⟩

/-- The last separator is found where none begins behind it. -/
theorem splitLast_append {c : Char} {s b : List Char} (h : ¬ (c :: s) <:+: s ++ b) (a : List Char) :
    splitLast (c :: s) (a ++ ((c :: s) ++ b)) = some (a, b) := by
  induction a with
  | nil =>
      have hstarts : (c :: s).isPrefixOf? (c :: (s ++ b)) = some b :=
        isPrefixOf?_eq_some_iff.mpr rfl
      rw [List.nil_append, List.cons_append, splitLast, splitLast_eq_none_iff.mpr h, hstarts]
      rfl
  | cons d a ih => rw [List.cons_append, splitLast, ih]

/-- The text is cut at the last occurrence of a separator: none begins further behind. -/
structure CutsLast (sep cs before after : List Char) : Prop where
  cut : cs = before ++ (sep ++ after)
  last : ∀ front back, cs = front ++ (sep ++ back) → front.length ≤ before.length

theorem CutsLast.unique {sep cs a b a' b' : List Char} (h : CutsLast sep cs a b)
    (h' : CutsLast sep cs a' b') : a = a' ∧ b = b' := by
  have hlength : a.length = a'.length := Nat.le_antisymm (h'.last a b h.cut) (h.last a' b' h'.cut)
  obtain ⟨rfl, hrest⟩ := List.append_inj (h.cut.symm.trans h'.cut) hlength
  exact ⟨rfl, List.append_cancel_left hrest⟩

theorem CutsLast.isInfix {sep cs a b : List Char} (h : CutsLast sep cs a b) : sep <:+: cs :=
  ⟨a, b, by rw [h.cut, List.append_assoc]⟩

/-- The separator that is found is the last one. -/
theorem cutsLast_of_splitLast {sep cs a b : List Char} (h : splitLast sep cs = some (a, b)) :
    CutsLast sep cs a b := by
  induction cs generalizing a with
  | nil =>
      rw [splitLast] at h
      split at h
      · next hempty =>
          obtain rfl := List.isEmpty_iff.mp hempty
          obtain ⟨rfl, rfl⟩ := Prod.mk.inj (Option.some.inj h)
          refine ⟨rfl, fun front back hcut => ?_⟩
          rw [(List.append_eq_nil_iff.mp hcut.symm).1]
      · exact absurd h (by simp)
  | cons c cs ih =>
      rw [splitLast] at h
      split at h
      · next before after hrest =>
          obtain ⟨rfl, rfl⟩ := Prod.mk.inj (Option.some.inj h)
          obtain ⟨hcut, hlast⟩ := ih hrest
          refine ⟨congrArg (c :: ·) hcut, fun front back hfront => ?_⟩
          cases front with
          | nil => exact Nat.zero_le _
          | cons d front => exact Nat.succ_le_succ (hlast front back (List.cons.inj hfront).2)
      · next hrest =>
          obtain ⟨after, hafter, hpair⟩ := Option.map_eq_some_iff.mp h
          obtain ⟨rfl, rfl⟩ := Prod.mk.inj hpair
          have hcut := isPrefixOf?_eq_some_iff.mp hafter
          refine ⟨hcut, fun front back hfront => ?_⟩
          cases front with
          | nil => exact Nat.le_refl 0
          | cons d front =>
              -- an occurrence further behind would have been found
              obtain ⟨-, rfl⟩ := List.cons.inj hfront
              exact absurd ⟨front, back, List.append_assoc front sep back⟩
                (splitLast_eq_none_iff.mp hrest)

/-- **A text is cut at its last separator**, and nowhere else. -/
theorem splitLast_eq_some_iff {sep cs a b : List Char} :
    splitLast sep cs = some (a, b) ↔ CutsLast sep cs a b := by
  refine ⟨cutsLast_of_splitLast, fun h => ?_⟩
  have hne : splitLast sep cs ≠ none := fun hnone => splitLast_eq_none_iff.mp hnone h.isInfix
  obtain ⟨⟨a', b'⟩, hfound⟩ := Option.ne_none_iff_exists'.mp hne
  obtain ⟨rfl, rfl⟩ := h.unique (cutsLast_of_splitLast hfound)
  exact hfound

/-- A separator is the last one where none begins behind its first character. -/
theorem cutsLast_append_iff {c : Char} {s a b : List Char} :
    CutsLast (c :: s) (a ++ ((c :: s) ++ b)) a b ↔ ¬ (c :: s) <:+: s ++ b := by
  constructor
  · rintro h ⟨front, back, hin⟩
    rw [List.append_assoc] at hin
    have hcut : a ++ ((c :: s) ++ b) = (a ++ c :: front) ++ ((c :: s) ++ back) := by
      rw [List.append_assoc, List.cons_append, List.cons_append, ← hin]
    have hle := h.last _ _ hcut
    rw [List.length_append, List.length_cons] at hle
    omega
  · exact fun hlast => cutsLast_of_splitLast (splitLast_append hlast a)

/-- What stands behind the last separator holds none. -/
theorem splitLast_spec {sep cs a b : List Char} (hsep : sep ≠ [])
    (h : splitLast sep cs = some (a, b)) : cs = a ++ (sep ++ b) ∧ ¬ sep <:+: b := by
  obtain ⟨hcut, hlast⟩ := cutsLast_of_splitLast h
  refine ⟨hcut, ?_⟩
  rintro ⟨front, back, rfl⟩
  have hle := hlast (a ++ (sep ++ front)) back (by simp [hcut])
  have hpos := List.length_pos_of_ne_nil hsep
  rw [List.length_append, List.length_append] at hle
  omega

/-! ## Groups -/

theorem cutBefore_append {α : Type} {p : α → Bool} {a : List α} (ha : ∀ x ∈ a, p x = false)
    (b : List α) : cutBefore p (a ++ b) = (a ++ (cutBefore p b).1, (cutBefore p b).2) := by
  induction a with
  | nil => rfl
  | cons x a ih =>
      rw [List.cons_append, cutBefore, ih fun y hy => ha y (List.mem_cons_of_mem x hy)]
      show (if p x then _ else _) = _
      rw [ha x List.mem_cons_self, if_neg Bool.false_ne_true]
      rfl

/-- Groups in a row are cut where they begin. -/
theorem cutBefore_groups {α : Type} {p : α → Bool} {groups : List (α × List α)}
    (h : ∀ g ∈ groups, p g.1 = true ∧ ∀ x ∈ g.2, p x = false) :
    cutBefore p (groups.flatMap fun g => g.1 :: g.2) = ([], groups) := by
  induction groups with
  | nil => rfl
  | cons g groups ih =>
      obtain ⟨hfirst, hrest⟩ := h g List.mem_cons_self
      have ih := ih fun other hother => h other (List.mem_cons_of_mem g hother)
      rw [List.flatMap_cons, List.cons_append, cutBefore, cutBefore_append hrest, ih]
      show (if p g.1 then _ else _) = _
      rw [if_pos hfirst, List.append_nil]

/-- A list that was cut is put together again of the cuts. -/
theorem cutBefore_spec {α : Type} {p : α → Bool} {l front : List α} {groups : List (α × List α)}
    (h : cutBefore p l = (front, groups)) :
    l = front ++ groups.flatMap (fun g => g.1 :: g.2) ∧ (∀ x ∈ front, p x = false) ∧
      ∀ g ∈ groups, p g.1 = true ∧ ∀ x ∈ g.2, p x = false := by
  induction l generalizing front groups with
  | nil =>
      obtain ⟨rfl, rfl⟩ := Prod.mk.inj h
      exact ⟨rfl, fun _ hx => absurd hx List.not_mem_nil, fun _ hg => absurd hg List.not_mem_nil⟩
  | cons x l ih =>
      have hrest : cutBefore p l = ((cutBefore p l).1, (cutBefore p l).2) := rfl
      obtain ⟨hl, hfront, hgroups⟩ := ih hrest
      rw [cutBefore] at h
      dsimp only at h
      split at h
      · next hx =>
          obtain ⟨rfl, rfl⟩ := Prod.mk.inj h
          refine ⟨?_, fun _ hy => absurd hy List.not_mem_nil, fun g hg => ?_⟩
          · rw [List.nil_append, List.flatMap_cons, List.cons_append, ← hl]
          · rcases List.mem_cons.mp hg with rfl | hg
            · exact ⟨hx, hfront⟩
            · exact hgroups g hg
      · next hx =>
          obtain ⟨rfl, rfl⟩ := Prod.mk.inj h
          refine ⟨congrArg (x :: ·) hl, fun y hy => ?_, hgroups⟩
          rcases List.mem_cons.mp hy with rfl | hy
          · exact Bool.eq_false_iff.mpr hx
          · exact hfront y hy

/-! ## Offsets in bytes -/

/-- A character takes a byte or more. -/
theorem length_le_byteLength (cs : List Char) : cs.length ≤ byteLength cs := by
  induction cs with
  | nil => exact Nat.le_refl 0
  | cons c rest ih =>
      have hpos := Char.utf8Size_pos c
      rw [List.length_cons, byteLength_cons]
      omega

/-- A cut behind a text that is known. -/
theorem splitAtByte?_add (a b : List Char) (n : Nat) :
    splitAtByte? (byteLength a + n) (a ++ b) =
      (splitAtByte? n b).map fun (x, y) => (a ++ x, y) := by
  induction a with
  | nil =>
      rw [byteLength_nil, Nat.zero_add, List.nil_append]
      cases splitAtByte? n b <;> rfl
  | cons c rest ih =>
      have hpos := Char.utf8Size_pos c
      obtain ⟨m, hm⟩ : ∃ m, byteLength (c :: rest) + n = m + 1 :=
        ⟨byteLength (c :: rest) + n - 1, by rw [byteLength_cons]; omega⟩
      have hsub : m + 1 - c.utf8Size = byteLength rest + n := by
        rw [byteLength_cons] at hm
        omega
      have hle : c.utf8Size ≤ m + 1 := by
        rw [byteLength_cons] at hm
        omega
      rw [hm, List.cons_append, splitAtByte?, if_pos hle, hsub, ih, Option.map_map]
      rfl

theorem splitAtByte?_append (a b : List Char) :
    splitAtByte? (byteLength a) (a ++ b) = some (a, b) := by
  have h := splitAtByte?_add a b 0
  simpa [splitAtByte?] using h

end ChangeScope.Text
