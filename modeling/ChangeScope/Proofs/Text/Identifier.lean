import ChangeScope.Text
import ChangeScope.Text.Letter

/-!
# Identifiers

A character of an identifier is no white space (`IsIdentifier.not_blank`), and within ASCII it is a
letter, a digit or the underscore (`IsIdentifier.isWord`). So an identifier holds no mark that
separates names.
-/

set_option autoImplicit false

namespace ChangeScope.Text

/-- The characters of a list are run through, not all characters there are. -/
instance decidableForallMemChar (p : Char → Prop) [DecidablePred p] (l : List Char) :
    Decidable (∀ c ∈ l, p c) :=
  List.decidableBAll p l

/-- A text that may be a name: it begins like an identifier and goes on like one. -/
def IsIdentifier : List Char → Prop
  | [] => False
  | c :: rest => isIdentifierStart c = true ∧ ∀ d ∈ rest, isIdentifierPart d = true

instance : DecidablePred IsIdentifier
  | [] => inferInstanceAs (Decidable False)
  | c :: rest =>
      inferInstanceAs (Decidable (isIdentifierStart c = true ∧ ∀ d ∈ rest, isIdentifierPart d = true))

/-- The code points of white space. -/
private def blankCodes : List Nat :=
  List.range' 0x09 5 ++ [0x20, 0x85, 0xa0, 0x1680] ++ List.range' 0x2000 11 ++
    [0x2028, 0x2029, 0x202f, 0x205f, 0x3000]

private theorem mem_blankCodes {c : Char} (h : isBlank c = true) : c.toNat ∈ blankCodes := by
  unfold isBlank at h
  simp only [Bool.or_eq_true, Bool.and_eq_true, decide_eq_true_eq, beq_iff_eq] at h
  simp only [blankCodes, List.mem_append, List.mem_range'_1, List.mem_cons, List.not_mem_nil]
  omega

/-- No identifier begins or goes on with white space. -/
private theorem blankCodes_apart :
    ∀ n ∈ blankCodes, isIdentifierStart (Char.ofNat n) = false ∧
      isIdentifierPart (Char.ofNat n) = false := by
  decide +kernel

namespace IsIdentifier

variable {name : List Char}

theorem ne_nil (h : IsIdentifier name) : name ≠ [] := by
  rintro rfl
  exact h

theorem char (h : IsIdentifier name) {c : Char} (hc : c ∈ name) :
    isIdentifierStart c = true ∨ isIdentifierPart c = true := by
  cases name with
  | nil => exact absurd hc List.not_mem_nil
  | cons d rest =>
      rcases List.mem_cons.mp hc with rfl | hc
      · exact .inl h.1
      · exact .inr (h.2 c hc)

/-- No character of an identifier is white space. -/
theorem not_blank (h : IsIdentifier name) {c : Char} (hc : c ∈ name) : isBlank c = false := by
  rw [Bool.eq_false_iff]
  intro hblank
  obtain ⟨hstart, hpart⟩ := blankCodes_apart _ (mem_blankCodes hblank)
  rw [Char.ofNat_toNat] at hstart hpart
  rcases h.char hc with hc | hc
  · exact absurd hc (Bool.eq_false_iff.mp hstart)
  · exact absurd hc (Bool.eq_false_iff.mp hpart)

/-- Within ASCII an identifier has letters, digits and underscores. -/
theorem isWord (h : IsIdentifier name) {c : Char} (hc : c ∈ name) (hascii : isAscii c = true) :
    Text.isWord c = true := by
  rcases h.char hc with hstart | hpart
  · unfold isIdentifierStart at hstart
    unfold Text.isWord
    rw [if_pos hascii] at hstart ⊢
    rcases Bool.or_eq_true_iff.mp hstart with hletter | hunder
    · rw [hletter]
      rfl
    · rw [hunder, Bool.or_true]
  · unfold isIdentifierPart at hpart
    rwa [if_pos hascii] at hpart

/-- A mark of ASCII is not in an identifier. -/
theorem not_mem (h : IsIdentifier name) {c : Char} (hascii : isAscii c = true)
    (hmark : Text.isWord c = false) : c ∉ name := by
  intro hc
  rw [h.isWord hc hascii] at hmark
  exact Bool.noConfusion hmark

end IsIdentifier

end ChangeScope.Text
