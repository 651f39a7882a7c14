import ChangeScope.Proofs.Text.Lines
import ChangeScope.Proofs.Text.Trim

/-!
# Cuts at commas

A text is cut into pieces at some of its commas, so the pieces, joined with commas, are the text.
The pieces are told by the places of the cuts (`eq_of_isCut`); where no piece begins with a comma,
they are told by the trimmed pieces that are not empty, too (`eq_of_trimmed`).
-/

set_option autoImplicit false

namespace ChangeScope.Text

/-! ## Pieces -/

/-- The text up to a comma that it is cut at. -/
inductive IsCut : List (List Char) → List Char → Prop where
  | here (p q : List Char) (ps : List (List Char)) : IsCut (p :: q :: ps) p
  | later {p : List Char} {ps : List (List Char)} {front : List Char} (rest : IsCut ps front) :
      IsCut (p :: ps) (p ++ ',' :: front)

theorem isCut_single {p front : List Char} : ¬ IsCut [p] front := by
  intro h
  cases h with
  | later rest => cases rest

/-- Text in front of the first piece is in front of each cut. -/
theorem isCut_modifyHead {ps : List (List Char)} {u front : List Char} :
    IsCut (ps.modifyHead (u ++ ·)) front ↔ ∃ front', front = u ++ front' ∧ IsCut ps front' := by
  cases ps with
  | nil =>
      constructor
      · intro h
        cases h
      · rintro ⟨_, -, h⟩
        cases h
  | cons p ps =>
      rw [List.modifyHead_cons]
      constructor
      · intro h
        cases h with
        | here => exact ⟨p, rfl, .here p _ _⟩
        | later rest => exact ⟨_, by rw [List.append_assoc], .later rest⟩
      · rintro ⟨front', rfl, h⟩
        cases h with
        | here => exact .here _ _ _
        | later rest =>
            rw [← List.append_assoc]
            exact .later rest

/-- The first cut is at the beginning. -/
theorem isCut_nil_cons {ps : List (List Char)} (hps : ps ≠ []) {front : List Char} :
    IsCut ([] :: ps) front ↔ front = [] ∨ ∃ front', front = ',' :: front' ∧ IsCut ps front' := by
  obtain ⟨q, qs, rfl⟩ := List.exists_cons_of_ne_nil hps
  constructor
  · intro h
    cases h with
    | here => exact Or.inl rfl
    | later rest => exact Or.inr ⟨_, rfl, rest⟩
  · rintro (rfl | ⟨front', rfl, h⟩)
    · exact .here [] q qs
    · exact @IsCut.later [] _ _ h

/-- Behind the first piece stands the first cut. -/
theorem IsCut.length_le {p front : List Char} {ps : List (List Char)} (h : IsCut (p :: ps) front) :
    p.length ≤ front.length := by
  cases h with
  | here => exact Nat.le_refl _
  | later rest =>
      rw [List.length_append]
      omega

/-- **The pieces of a text are told by the places that it is cut at.** -/
theorem eq_of_isCut {ps qs : List (List Char)} (hps : ps ≠ []) (hqs : qs ≠ [])
    (hjoin : join [','] ps = join [','] qs) (h : ∀ front, IsCut ps front ↔ IsCut qs front) :
    ps = qs := by
  induction ps generalizing qs with
  | nil => exact absurd rfl hps
  | cons p ps ih =>
      obtain ⟨q, qs, rfl⟩ := List.exists_cons_of_ne_nil hqs
      cases ps with
      | nil =>
          cases qs with
          | nil => simpa [join] using hjoin
          | cons q' qs => exact absurd ((h q).mpr (.here q q' qs)) isCut_single
      | cons p' ps =>
          cases qs with
          | nil => exact absurd ((h p).mp (.here p p' ps)) isCut_single
          | cons q' qs =>
              -- the shortest text up to a cut is the first piece
              have hpq : p.length = q.length := by
                have hle := ((h p).mp (.here p p' ps)).length_le
                have hge := ((h q).mpr (.here q q' qs)).length_le
                omega
              rw [join_cons_cons, join_cons_cons] at hjoin
              obtain ⟨rfl, hrest⟩ := List.append_inj hjoin hpq
              obtain ⟨-, hrest⟩ := List.cons.inj hrest
              rw [ih (List.cons_ne_nil _ _) (List.cons_ne_nil _ _) hrest fun front => ?_]
              have hlater : ∀ (r : List Char) (rs : List (List Char)),
                  IsCut (p :: r :: rs) (p ++ ',' :: front) ↔ IsCut (r :: rs) front := by
                intro r rs
                constructor
                · generalize hfront : p ++ ',' :: front = whole
                  intro hcut
                  cases hcut with
                  | here =>
                      have hlength := congrArg List.length hfront
                      simp only [List.length_append, List.length_cons] at hlength
                      omega
                  | later rest =>
                      obtain ⟨-, hrest⟩ := List.cons.inj (List.append_cancel_left hfront)
                      rwa [hrest]
                · exact .later
              rw [← hlater p' ps, ← hlater q' qs]
              exact h _

/-! ## Trimmed pieces -/

/-- The trimmed pieces without the empty ones. -/
def trimmed (ps : List (List Char)) : List (List Char) :=
  (ps.map trim).filter fun piece => !piece.isEmpty

/-- No comma comes first in the piece, white space apart. -/
def IsFree (piece : List Char) : Prop := (trimStart piece).head? ≠ some ','

theorem trimmed_cons (p : List Char) (ps : List (List Char)) :
    trimmed (p :: ps) = if (trim p).isEmpty then trimmed ps else trim p :: trimmed ps := by
  unfold trimmed
  rw [List.map_cons, List.filter_cons]
  cases (trim p).isEmpty <;> rfl

/-- A first piece that goes on over a comma is trimmed to another text. -/
theorem trimmed_ne {p more : List Char} {ps qs : List (List Char)}
    (hfree : IsFree (p ++ ',' :: more)) :
    trimmed (p :: ps) ≠ trimmed ((p ++ ',' :: more) :: qs) := by
  have hcomma : isBlank ',' = false := rfl
  intro h
  by_cases hp : trimStart p = []
  · -- the comma would come first
    apply hfree
    rw [trimStart_blank (trimStart_eq_nil_iff.mp hp)]
    rfl
  · have hlong : trim (p ++ ',' :: more) = trimStart p ++ ',' :: dropTrailing isBlank more := by
      have hcons := dropTrailing_cons_of_neg hcomma more
      rw [trim, trimStart_append_of_ne_nil hp, trimEnd,
        dropTrailing_append_of_ne_nil (by rw [hcons]; exact List.cons_ne_nil _ _), hcons]
    have hshort : (trim p).length ≤ (trimStart p).length := length_dropTrailing_le _ _
    have hne : ¬ (trim p).isEmpty = true := by
      rwa [List.isEmpty_iff, trim_eq_nil_iff, ← trimStart_eq_nil_iff]
    rw [trimmed_cons, trimmed_cons, if_neg hne, if_neg (by rw [hlong]; simp), hlong] at h
    have hlength := congrArg List.length (List.cons.inj h).1
    rw [List.length_append, List.length_cons] at hlength
    omega

/-- Of two first pieces of a text the longer one goes on over a comma. -/
theorem longer_piece {p q rest : List Char} {ps : List (List Char)}
    (hjoin : join [','] (p :: ps) = q ++ rest) (h : p <+: q) (hne : p ≠ q) :
    ∃ more, q = p ++ ',' :: more := by
  obtain ⟨more, rfl⟩ := h
  cases more with
  | nil => exact absurd (List.append_nil p).symm hne
  | cons c more =>
      cases ps with
      | nil =>
          have hlength := congrArg List.length hjoin
          simp [join] at hlength
      | cons p' ps =>
          rw [join_cons_cons, List.append_assoc] at hjoin
          obtain ⟨rfl, -⟩ := List.cons.inj (List.append_cancel_left hjoin)
          exact ⟨more, rfl⟩

theorem join_begins (p : List Char) (ps : List (List Char)) :
    ∃ rest, join [','] (p :: ps) = p ++ rest := by
  cases ps with
  | nil => exact ⟨[], by simp [join]⟩
  | cons q ps => exact ⟨_, join_cons_cons p q ps⟩

/-- The first pieces are the same where the trimmed pieces are. -/
theorem first_eq_of_trimmed {p q : List Char} {ps qs : List (List Char)}
    (hjoin : join [','] (p :: ps) = join [','] (q :: qs)) (hp : IsFree p) (hq : IsFree q)
    (h : trimmed (p :: ps) = trimmed (q :: qs)) : p = q := by
  obtain ⟨restP, hrestP⟩ := join_begins p ps
  obtain ⟨restQ, hrestQ⟩ := join_begins q qs
  by_contra hne
  have hbeginP : p <+: join [','] (p :: ps) := ⟨restP, hrestP.symm⟩
  have hbeginQ : q <+: join [','] (p :: ps) := ⟨restQ, by rw [hjoin, hrestQ]⟩
  rcases List.prefix_or_prefix_of_prefix hbeginP hbeginQ with hlonger | hlonger
  · obtain ⟨more, rfl⟩ := longer_piece (hjoin.trans hrestQ) hlonger hne
    exact trimmed_ne hq h
  · obtain ⟨more, rfl⟩ := longer_piece (hjoin.symm.trans hrestP) hlonger (Ne.symm hne)
    exact trimmed_ne hp h.symm

/-- **The pieces of a text are told by the trimmed ones**, where none begins with a comma. -/
theorem eq_of_trimmed {ps qs : List (List Char)} (hps : ps ≠ []) (hqs : qs ≠ [])
    (hjoin : join [','] ps = join [','] qs) (hfree : ∀ p ∈ ps, IsFree p)
    (hfree' : ∀ q ∈ qs, IsFree q) (h : trimmed ps = trimmed qs) : ps = qs := by
  induction ps generalizing qs with
  | nil => exact absurd rfl hps
  | cons p ps ih =>
      obtain ⟨q, qs, rfl⟩ := List.exists_cons_of_ne_nil hqs
      -- with the first pieces the same, so are the texts behind their commas
      obtain rfl := first_eq_of_trimmed hjoin (hfree p List.mem_cons_self)
        (hfree' q List.mem_cons_self) h
      have htail : trimmed ps = trimmed qs := by
        rw [trimmed_cons, trimmed_cons] at h
        split at h
        · exact h
        · exact (List.cons.inj h).2
      cases ps with
      | nil =>
          cases qs with
          | nil => rfl
          | cons q' qs =>
              have hlength := congrArg List.length hjoin
              simp [join] at hlength
      | cons p' ps =>
          cases qs with
          | nil =>
              have hlength := congrArg List.length hjoin
              simp [join] at hlength
          | cons q' qs =>
              rw [join_cons_cons, join_cons_cons] at hjoin
              obtain ⟨-, hrest⟩ := List.cons.inj (List.append_cancel_left hjoin)
              rw [ih (List.cons_ne_nil _ _) (List.cons_ne_nil _ _) hrest
                (fun r hr => hfree r (List.mem_cons_of_mem p hr))
                (fun r hr => hfree' r (List.mem_cons_of_mem p hr)) htail]

/-! ## Characters of the pieces -/

/-- The pieces hold all characters of the text but commas. -/
theorem count_join {c : Char} (hc : c ≠ ',') (ps : List (List Char)) :
    (join [','] ps).count c = (ps.map (·.count c)).sum := by
  induction ps with
  | nil => rfl
  | cons p ps ih =>
      cases ps with
      | nil => simp [join]
      | cons q ps =>
          rw [join_cons_cons, List.count_append, List.count_cons_of_ne (Ne.symm hc), ih]
          rfl

theorem count_trimmed {c : Char} (hc : isBlank c = false) (ps : List (List Char)) :
    ((trimmed ps).map (·.count c)).sum = (ps.map (·.count c)).sum := by
  induction ps with
  | nil => rfl
  | cons p ps ih =>
      have hp := count_trim hc p
      rw [trimmed_cons, List.map_cons, List.sum_cons, ← hp]
      split
      · next hempty => rw [List.isEmpty_iff.mp hempty, ih, List.count_nil, Nat.zero_add]
      · rw [List.map_cons, List.sum_cons, ih]

/-- Where a part of a list has the whole sum, the others are zero. -/
theorem eq_zero_of_filter {α : Type} {f : α → Nat} {keep : α → Bool} {xs : List α}
    (h : (xs.map f).sum ≤ ((xs.filter keep).map f).sum) : ∀ x ∈ xs, keep x = false → f x = 0 := by
  induction xs with
  | nil => exact fun x hx => absurd hx List.not_mem_nil
  | cons y xs ih =>
      have hle : ((xs.filter keep).map f).sum ≤ (xs.map f).sum :=
        (List.filter_sublist.map f).sum_le_sum fun _ _ => Nat.zero_le _
      rw [List.map_cons, List.sum_cons, List.filter_cons] at h
      intro x hx hkeep
      split at h
      · next hy =>
          rw [List.map_cons, List.sum_cons] at h
          rcases List.mem_cons.mp hx with rfl | hx
          · rw [hkeep] at hy
            exact absurd hy (by decide)
          · exact ih (by omega) x hx hkeep
      · rcases List.mem_cons.mp hx with rfl | hx
        · omega
        · exact ih (by omega) x hx hkeep

end ChangeScope.Text
