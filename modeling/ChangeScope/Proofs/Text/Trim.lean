import ChangeScope.Proofs.Text

/-!
# Trimmed texts

White space goes from the beginning and the end of a text, and all other characters stay
(`count_trim`).
-/

set_option autoImplicit false

namespace ChangeScope.Text

theorem trimStart_blank {a : List Char} (ha : ∀ c ∈ a, isBlank c = true) (b : List Char) :
    trimStart (a ++ b) = trimStart b :=
  List.dropWhile_append_of_pos ha

theorem trimStart_eq_nil_iff {a : List Char} : trimStart a = [] ↔ ∀ c ∈ a, isBlank c = true :=
  List.dropWhile_eq_nil_iff

/-- A text that is not blank goes on after white space is dropped from its beginning. -/
theorem trimStart_append_of_ne_nil {a : List Char} (ha : trimStart a ≠ []) (b : List Char) :
    trimStart (a ++ b) = trimStart a ++ b := by
  unfold trimStart at ha ⊢
  rw [List.dropWhile_append, if_neg (by rwa [List.isEmpty_iff])]

theorem dropTrailing_cons_of_neg {p : Char → Bool} {c : Char} (hc : p c = false)
    (rest : List Char) : dropTrailing p (c :: rest) = c :: dropTrailing p rest := by
  rw [dropTrailing]
  split
  · next heq => rw [hc, heq, if_neg Bool.false_ne_true]
  · rfl

theorem dropTrailing_append_of_ne_nil {p : Char → Bool} {b : List Char}
    (hb : dropTrailing p b ≠ []) (a : List Char) :
    dropTrailing p (a ++ b) = a ++ dropTrailing p b := by
  induction a with
  | nil => rfl
  | cons c a ih =>
      rw [List.cons_append, dropTrailing, ih]
      split
      · next heq => exact absurd (List.append_eq_nil_iff.mp heq).2 hb
      · rfl

theorem mem_of_mem_trim {c : Char} {a : List Char} (h : c ∈ trim a) : c ∈ a :=
  (List.dropWhile_suffix isBlank).subset (mem_of_mem_dropTrailing h)

theorem length_dropTrailing_le (p : Char → Bool) (a : List Char) :
    (dropTrailing p a).length ≤ a.length := by
  induction a with
  | nil => exact Nat.le_refl 0
  | cons c a ih =>
      rw [dropTrailing]
      split
      · split <;> simp
      · rw [List.length_cons, List.length_cons]
        omega

/-- Characters that are not dropped are all kept. -/
theorem count_dropTrailing {p : Char → Bool} {c : Char} (hc : p c = false) (a : List Char) :
    (dropTrailing p a).count c = a.count c := by
  induction a with
  | nil => rfl
  | cons d a ih =>
      rw [dropTrailing]
      split
      · next heq =>
          rw [heq, List.count_nil] at ih
          rw [List.count_cons, ← ih]
          split
          · next hd =>
              simp [ne_of_kind hd hc]
          · simp [List.count_cons]
      · rw [List.count_cons, List.count_cons, ih]

theorem count_trim {c : Char} (hc : isBlank c = false) (a : List Char) :
    (trim a).count c = a.count c := by
  have htake : (a.takeWhile isBlank).count c = 0 := by
    refine List.count_eq_zero.mpr fun hin => ?_
    rw [List.mem_takeWhile_imp hin] at hc
    exact absurd hc (by decide)
  have hsplit := congrArg (List.count c) (List.takeWhile_append_dropWhile (p := isBlank) (l := a))
  rw [List.count_append, htake, Nat.zero_add] at hsplit
  rw [trim, trimEnd, count_dropTrailing hc]
  exact hsplit

theorem trim_eq_nil_iff {a : List Char} : trim a = [] ↔ ∀ c ∈ a, isBlank c = true := by
  rw [← trimStart_eq_nil_iff]
  constructor
  · intro h
    by_contra hne
    obtain ⟨c, rest, hcons⟩ := List.exists_cons_of_ne_nil hne
    have hc : isBlank c = false := by
      have hhead := List.head?_dropWhile_not isBlank a
      rw [show a.dropWhile isBlank = c :: rest from hcons] at hhead
      simpa using hhead
    rw [trim, trimEnd, hcons, dropTrailing_cons_of_neg hc] at h
    exact absurd h (List.cons_ne_nil _ _)
  · intro h
    rw [trim, h]
    rfl

/-! ## The text that stays -/

/-- Trimming the end cuts white space off, and the text that stays does not end with any. -/
theorem exists_trimEnd (cs : List Char) :
    ∃ g, (∀ c ∈ g, isBlank c = true) ∧ cs = trimEnd cs ++ g ∧
      ∀ c ∈ (trimEnd cs).getLast?, isBlank c = false := by
  have hnone : ∀ c ∈ ([] : List Char).getLast?, isBlank c = false := by simp
  induction cs with
  | nil => exact ⟨[], fun c hc => absurd hc List.not_mem_nil, rfl, hnone⟩
  | cons c rest ih =>
      obtain ⟨g, hg, hrest, hlast⟩ := ih
      -- when all the rest is cut off, the character stays only if it is no white space itself
      by_cases hnil : trimEnd rest = []
      · have hcons : trimEnd (c :: rest) = if isBlank c then [] else [c] := by
          rw [trimEnd, dropTrailing, ← trimEnd, hnil]
        rw [hnil, List.nil_append] at hrest
        subst hrest
        rw [hcons]
        split
        · next hc => exact ⟨c :: rest, by simpa [hc] using hg, rfl, hnone⟩
        · next hc =>
            exact ⟨rest, hg, rfl, fun d hd => Option.some.inj hd ▸ Bool.eq_false_iff.mpr hc⟩
      · have hcons : trimEnd (c :: rest) = c :: trimEnd rest :=
          dropTrailing_append_of_ne_nil hnil [c]
        rw [hcons]
        refine ⟨g, hg, congrArg (c :: ·) hrest, fun d hd => hlast d ?_⟩
        obtain ⟨e, kept, hkept⟩ := List.exists_cons_of_ne_nil hnil
        rw [hkept, List.getLast?_cons_cons] at hd
        rwa [hkept]

theorem trimEnd_ne_nil {cs : List Char} {c : Char} (h : c ∈ cs) (hc : isBlank c = false) :
    trimEnd cs ≠ [] := by
  intro hnil
  obtain ⟨g, hg, hcs, -⟩ := exists_trimEnd cs
  rw [hnil, List.nil_append] at hcs
  have hblank := hg c (hcs ▸ h)
  rw [hc] at hblank
  exact Bool.noConfusion hblank

/-- Where a text that is not blank stands at the end, it alone is trimmed. -/
theorem trimEnd_append {b : List Char} {c : Char} (h : c ∈ b) (hc : isBlank c = false)
    (a : List Char) : trimEnd (a ++ b) = a ++ trimEnd b :=
  dropTrailing_append_of_ne_nil (trimEnd_ne_nil h hc) a

theorem head?_trimEnd {cs : List Char} {c : Char} (h : c ∈ cs) (hc : isBlank c = false) :
    (trimEnd cs).head? = cs.head? := by
  obtain ⟨g, -, hcs, -⟩ := exists_trimEnd cs
  conv_rhs => rw [hcs]
  exact (List.head?_append_of_ne_nil _ (trimEnd_ne_nil h hc)).symm

/-- White space goes from both ends of a text. -/
theorem trim_padded {a t b : List Char} (ha : ∀ c ∈ a, isBlank c = true)
    (hb : ∀ c ∈ b, isBlank c = true) {first last : Char} (hfirst : t.head? = some first)
    (hlast : t.getLast? = some last) (hopen : isBlank first = false)
    (hclosed : isBlank last = false) : trim (a ++ (t ++ b)) = t := by
  obtain ⟨rest, rfl⟩ := List.head?_eq_some_iff.mp hfirst
  have hstart : trimStart (first :: (rest ++ b)) = first :: (rest ++ b) :=
    List.dropWhile_cons_of_neg (by rw [hopen]; exact Bool.false_ne_true)
  rw [trim, trimStart_blank ha, List.cons_append, hstart, trimEnd, ← List.cons_append,
    dropTrailing_append hb, dropTrailing_self hlast hclosed]

end ChangeScope.Text
