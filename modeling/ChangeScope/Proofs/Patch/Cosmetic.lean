import ChangeScope.Patch.Hunk
import ChangeScope.Proofs.Text.Trim

/-!
# Hunks that change only form

A hunk that does not matter holds blank lines, comments and signature lines, and each removed
signature line is near to the first added one of its name. An added signature line needs no
removed one of its name, as long as some other one is removed: so a hunk that adds a function may
be taken for one that changes only form. Main statement: `isImportant_eq_false_iff`.
-/

set_option autoImplicit false

namespace ChangeScope.Patch

/-! ## Signature lines of both sides -/

/-- The signatures that some lines give. -/
def signatures (lines : List Line) : List Signature := lines.filterMap signature?

/-- The plain forms are the same, or nearly. -/
def Signature.IsNear (a b : Signature) : Prop :=
  a.plain = b.plain ∨ closeEnough ≤ Text.similarity a.plain b.plain

/-- The first signature of the name is near. -/
def IsPaired (added : List Signature) (removed : Signature) : Prop :=
  ∃ kept, added.find? (·.name == removed.name) = some kept ∧ removed.IsNear kept

/-- A blank line, a comment or a signature line. -/
def IsFormal (line : Line) : Prop := isNoise line = true ∨ (signature? line).isSome = true

/-- The lines are formal, and their signature lines stand for each other on both sides. -/
structure Corresponds (hunk : List Line) : Prop where
  formal : ∀ line ∈ addedLines hunk ++ removedLines hunk, IsFormal line
  removed : ∀ r ∈ signatures (removedLines hunk), IsPaired (signatures (addedLines hunk)) r
  added : ∀ a ∈ signatures (addedLines hunk), ∃ r ∈ signatures (removedLines hunk),
    r.name = a.name

/-- The lines are formal, and removed signature lines stand for added ones, of which there are none
without them. -/
structure IsCosmetic (hunk : List Line) : Prop where
  formal : ∀ line ∈ addedLines hunk ++ removedLines hunk, IsFormal line
  removed : ∀ r ∈ signatures (removedLines hunk), IsPaired (signatures (addedLines hunk)) r
  added : signatures (removedLines hunk) = [] → signatures (addedLines hunk) = []

/-! ## Kinds of lines -/

/-- A blank line or a comment does not begin with a letter. -/
theorem not_isNoise_of_letter {line : Line} {c : Char} {rest : List Char}
    (hstart : Text.trimStart line = c :: rest) (hblank : Text.isBlank c = false) (hc : c ≠ '#') :
    isNoise line = false := by
  unfold isNoise Text.trim Text.trimEnd
  rw [hstart, Text.dropTrailing_cons_of_neg hblank]
  simpa using hc

/-- A signature line is no blank line and no comment. -/
theorem signature?_of_isNoise {line : Line} (h : isNoise line = true) : signature? line = none := by
  cases hsignature : signature? line with
  | none => rfl
  | some s =>
      rcases head?_of_signature? hsignature with hhead | hhead
      all_goals
        obtain ⟨rest, hstart⟩ := List.head?_eq_some_iff.mp hhead
        rw [not_isNoise_of_letter hstart (by decide) (by decide)] at h
        exact absurd h (by decide)

theorem isSubstantive_eq_false_iff {line : Line} : isSubstantive line = false ↔ IsFormal line := by
  unfold isSubstantive IsFormal
  cases isNoise line <;> cases signature? line <;> simp

theorem signatures_of_noise {lines : List Line} (h : lines.all isNoise = true) :
    signatures lines = [] := by
  refine List.filterMap_eq_nil_iff.mpr fun line hline => ?_
  exact signature?_of_isNoise (List.all_eq_true.mp h line hline)

/-- Formal lines without a signature line are blank lines and comments. -/
theorem noise_of_signatures {lines : List Line} (hformal : ∀ line ∈ lines, IsFormal line)
    (h : signatures lines = []) : lines.all isNoise = true := by
  refine List.all_eq_true.mpr fun line hline => (hformal line hline).resolve_right ?_
  rw [List.filterMap_eq_nil_iff.mp h line hline]
  exact Bool.false_ne_true

/-! ## Hunks -/

theorem isLost_eq_false_iff {added : List Signature} {r : Signature} :
    isLost added r = false ↔ IsPaired added r := by
  unfold isLost IsPaired Signature.IsNear
  cases added.find? (·.name == r.name) with
  | none => simp
  | some kept =>
      simp only [differs, Option.some.injEq, exists_eq_left', Bool.and_eq_false_iff,
        bne_eq_false_iff_eq, decide_eq_false_iff_not, not_lt]

theorem all_formal_iff {hunk : List Line} :
    ((addedLines hunk).any isSubstantive || (removedLines hunk).any isSubstantive) = false ↔
      ∀ line ∈ addedLines hunk ++ removedLines hunk, IsFormal line := by
  rw [← List.any_append, List.any_eq_false]
  refine forall₂_congr fun line _ => ?_
  rw [Bool.not_eq_true]
  exact isSubstantive_eq_false_iff

theorem isCosmetic_of_noise {hunk : List Line} (hadded : (addedLines hunk).all isNoise = true)
    (hremoved : (removedLines hunk).all isNoise = true) : IsCosmetic hunk where
  formal := by
    intro line hline
    rcases List.mem_append.mp hline with hline | hline
    · exact .inl (List.all_eq_true.mp hadded line hline)
    · exact .inl (List.all_eq_true.mp hremoved line hline)
  removed := by
    rw [signatures_of_noise hremoved]
    exact fun r hr => absurd hr List.not_mem_nil
  added := fun _ => signatures_of_noise hadded

/-- Among formal lines that are not all noise, the signatures decide. -/
theorem important_formal_iff {hunk : List Line}
    (hformal : ∀ line ∈ addedLines hunk ++ removedLines hunk, IsFormal line)
    (hnoise : ¬ ((addedLines hunk).all isNoise && (removedLines hunk).all isNoise) = true) :
    (((signatures (removedLines hunk)).any (isLost (signatures (addedLines hunk))) ||
      ((signatures (removedLines hunk)).isEmpty && !(addedLines hunk).isEmpty)) = false) ↔
        IsCosmetic hunk := by
  obtain ⟨hadded, hremoved⟩ := List.forall_mem_append.mp hformal
  have hkept :
      (signatures (removedLines hunk)).any (isLost (signatures (addedLines hunk))) = false ↔
        ∀ r ∈ signatures (removedLines hunk), IsPaired (signatures (addedLines hunk)) r := by
    rw [List.any_eq_false]
    refine forall₂_congr fun r _ => ?_
    rw [Bool.not_eq_true]
    exact isLost_eq_false_iff
  -- without a removed signature some added line is no noise
  have hnone : signatures (removedLines hunk) = [] →
      signatures (addedLines hunk) ≠ [] ∧ addedLines hunk ≠ [] := by
    intro hold
    have hnew : signatures (addedLines hunk) ≠ [] := fun hnew => hnoise (by
      rw [noise_of_signatures hadded hnew, noise_of_signatures hremoved hold]
      rfl)
    refine ⟨hnew, fun hempty => hnew ?_⟩
    rw [hempty]
    rfl
  rw [Bool.or_eq_false_iff, hkept]
  constructor
  · rintro ⟨hall, hany⟩
    refine ⟨hformal, hall, fun hold => ?_⟩
    rw [hold] at hany
    exact absurd (by simpa using hany) (hnone hold).2
  · intro h
    refine ⟨h.removed, ?_⟩
    rw [Bool.and_eq_false_iff]
    left
    rw [Bool.eq_false_iff, ne_eq, List.isEmpty_iff]
    exact fun hold => (hnone hold).1 (h.added hold)

/-- **A hunk is taken for one that changes only form** just when its lines are blank, comments and
signature lines, each removed signature is near to the first added one of its name, and none is
added when none is removed. What this leaves out is that each added signature has a removed one of
its name: with it, the signature lines stand for each other. -/
theorem isImportant_eq_false_iff (hunk : List Line) :
    (isImportant hunk = false ↔ IsCosmetic hunk) ∧
      (Corresponds hunk ↔ isImportant hunk = false ∧
        ∀ a ∈ signatures (addedLines hunk), ∃ r ∈ signatures (removedLines hunk),
          r.name = a.name) := by
  have hcosmetic : isImportant hunk = false ↔ IsCosmetic hunk := by
    unfold isImportant
    dsimp only
    split
    · next hnoise =>
        obtain ⟨hadded, hremoved⟩ := Bool.and_eq_true_iff.mp hnoise
        exact iff_of_true rfl (isCosmetic_of_noise hadded hremoved)
    · next hnoise =>
        split
        · next hsubstantive =>
            refine iff_of_false (by decide) fun h => ?_
            rw [all_formal_iff.mpr h.formal] at hsubstantive
            exact absurd hsubstantive (by decide)
        · next hsubstantive =>
            have hformal := all_formal_iff.mp (Bool.not_eq_true _ ▸ hsubstantive)
            exact important_formal_iff hformal hnoise
  refine ⟨hcosmetic, ⟨fun h => ⟨hcosmetic.mpr ⟨h.formal, h.removed, fun hnone => ?_⟩, h.added⟩,
    fun ⟨h, hadded⟩ => ⟨(hcosmetic.mp h).formal, (hcosmetic.mp h).removed, hadded⟩⟩⟩
  refine List.eq_nil_iff_forall_not_mem.mpr fun a ha => ?_
  obtain ⟨r, hr, -⟩ := h.added a ha
  rw [hnone] at hr
  exact absurd hr List.not_mem_nil

/-- A function that stays, and a new one below it. -/
def grownHunk : List Line := ["-def f():".toList, "+def f():".toList, "+def g():".toList]

/-- A new function is overlooked when the signature line of another one is replaced by itself. -/
theorem new_function_overlooked : isImportant grownHunk = false ∧ ¬ Corresponds grownHunk := by
  have hadded : signatures (addedLines grownHunk) = [⟨['f'], []⟩, ⟨['g'], []⟩] := by decide
  have hremoved : signatures (removedLines grownHunk) = [⟨['f'], []⟩] := by decide
  refine ⟨?_, fun h => ?_⟩
  · have hlost : isLost [⟨['f'], []⟩, ⟨['g'], []⟩] ⟨['f'], []⟩ = false :=
      isLost_eq_false_iff.mpr ⟨⟨['f'], []⟩, by decide, .inl rfl⟩
    unfold isImportant
    dsimp only
    rw [if_neg (by decide), if_neg (by decide)]
    show ((signatures (removedLines grownHunk)).any (isLost (signatures (addedLines grownHunk))) ||
      ((signatures (removedLines grownHunk)).isEmpty && _)) = false
    rw [hadded, hremoved, List.any_cons, hlost]
    rfl
  · obtain ⟨r, hr, hname⟩ := h.added ⟨['g'], []⟩ (by rw [hadded]; simp)
    rw [hremoved] at hr
    rw [List.mem_singleton.mp hr] at hname
    exact absurd hname (by decide)

end ChangeScope.Patch
