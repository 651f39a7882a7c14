import Mathlib.Data.Finset.Max
import ChangeScope.Call.Site

/-!
# Longest candidates

A candidate is dropped when a longer one on its line covers it. Whether the longer one is itself
dropped does not matter, since the longest of all that cover a candidate is covered by none
(`exists_kept_cover`): whatever is lost lies inside something that is kept. The main statement is
`dropped_iff_covered`.
-/

set_option autoImplicit false

namespace ChangeScope.Call

/-! ## Spans within spans -/

/-- The span of the one candidate lies within that of the other, on the same line. -/
structure Candidate.Within (c other : Candidate) : Prop where
  line : other.lineOffset = c.lineOffset
  start : other.start ≤ c.start
  stop : c.stop ≤ other.stop

/-- The length of the called expression. -/
def Candidate.length (c : Candidate) : Nat := c.stop - c.start

variable {a b c other : Candidate} {cands : List Candidate}

theorem Candidate.isCoveredBy_iff :
    c.isCoveredBy other = true ↔ c.Within other ∧ c.length < other.length := by
  simp only [Candidate.isCoveredBy, Candidate.length, Bool.and_eq_true, decide_eq_true_eq,
    beq_iff_eq]
  constructor
  · rintro ⟨⟨⟨hline, hstart⟩, hstop⟩, hshort⟩
    exact ⟨⟨hline, hstart, hstop⟩, hshort⟩
  · rintro ⟨⟨hline, hstart, hstop⟩, hshort⟩
    exact ⟨⟨⟨hline, hstart⟩, hstop⟩, hshort⟩

theorem Candidate.Within.trans (hab : a.Within b) (hbc : b.Within c) : a.Within c where
  line := hbc.line.trans hab.line
  start := hbc.start.trans hab.start
  stop := hab.stop.trans hbc.stop

/-- A span within one that is not longer is the same span. -/
theorem Candidate.Within.eq_of_length_le (h : c.Within other) (hc : c.start ≤ c.stop)
    (hle : other.length ≤ c.length) : c.start = other.start ∧ c.stop = other.stop := by
  have hstart := h.start
  have hstop := h.stop
  simp only [Candidate.length] at hle
  omega

/-! ## What is kept -/

theorem mem_longestMatches :
    c ∈ longestMatches cands ↔
      c ∈ cands ∧ ∀ other ∈ cands, ¬(c.Within other ∧ c.length < other.length) := by
  simp only [longestMatches, List.mem_filter, Bool.not_eq_true', List.any_eq_false,
    Candidate.isCoveredBy_iff]

theorem not_mem_longestMatches (hc : c ∈ cands) :
    c ∉ longestMatches cands ↔ ∃ other ∈ cands, c.Within other ∧ c.length < other.length := by
  rw [mem_longestMatches]
  simp [hc]

/-- **A longest candidate around another one is kept**: what covers it would lie around the other
one as well, and be longer. -/
theorem exists_kept_cover (hc : c ∈ cands) : ∃ top ∈ longestMatches cands, c.Within top := by
  classical
  obtain ⟨top, htop, hmax⟩ :=
    (cands.toFinset.filter fun other => c.Within other).exists_max_image Candidate.length
      ⟨c, by simp [hc, Candidate.Within.mk]⟩
  obtain ⟨hmem, hwithin⟩ : top ∈ cands ∧ c.Within top := by simpa using htop
  refine ⟨top, mem_longestMatches.mpr ⟨hmem, ?_⟩, hwithin⟩
  rintro other hother ⟨hcovers, hlonger⟩
  have hle : other.length ≤ top.length := by
    apply hmax
    simp [hother, hwithin.trans hcovers]
  omega

theorem count_longestMatches (hc : c ∈ longestMatches cands) :
    (longestMatches cands).count c = cands.count c :=
  List.count_filter (List.mem_filter.mp hc).2

/-- What is kept is covered by nothing, so by nothing that is kept. -/
theorem longestMatches_longestMatches (cands : List Candidate) :
    longestMatches (longestMatches cands) = longestMatches cands := by
  apply List.filter_eq_self.mpr
  intro c hc
  rw [Bool.not_eq_true', List.any_eq_false]
  intro other hother hcovered
  apply (mem_longestMatches.mp hc).2 other (mem_longestMatches.mp hother).1
  exact Candidate.isCoveredBy_iff.mp hcovered

/-- **Only covered candidates are lost.** The others stay in their order, each as often as it
occurs. A place of the list is dropped just when the candidate at another place lies around it on
its line and is longer. Some kept candidate lies around each dropped one, none lies strictly
inside another kept one, and dropping once is enough. -/
theorem dropped_iff_covered (cands : List Candidate) (hforward : ∀ c ∈ cands, c.start ≤ c.stop) :
    (longestMatches cands).Sublist cands ∧
    (∀ c ∈ longestMatches cands, (longestMatches cands).count c = cands.count c) ∧
    (∀ (i : Nat) (hi : i < cands.length), cands[i] ∉ longestMatches cands ↔
      ∃ (j : Nat) (hj : j < cands.length), j ≠ i ∧ cands[i].Within cands[j] ∧
        cands[i].length < cands[j].length) ∧
    (∀ c ∈ cands, c ∉ longestMatches cands → ∃ top ∈ longestMatches cands, c.Within top) ∧
    (∀ c ∈ longestMatches cands, ∀ other ∈ longestMatches cands, c.Within other →
      c.start = other.start ∧ c.stop = other.stop) ∧
    longestMatches (longestMatches cands) = longestMatches cands := by
  refine ⟨List.filter_sublist, fun c hc => count_longestMatches hc, ?_, ?_, ?_,
    longestMatches_longestMatches cands⟩
  · intro i hi
    rw [not_mem_longestMatches (List.getElem_mem hi)]
    constructor
    · rintro ⟨other, hother, hwithin, hlonger⟩
      obtain ⟨j, hj, rfl⟩ := List.getElem_of_mem hother
      -- nothing is longer than itself
      have hji : j ≠ i := by rintro rfl; omega
      exact ⟨j, hj, hji, hwithin, hlonger⟩
    · rintro ⟨j, hj, -, hcovers⟩
      exact ⟨cands[j], List.getElem_mem hj, hcovers⟩
  · intro c hc _
    exact exists_kept_cover hc
  · intro c hc other hother hwithin
    obtain ⟨hmem, huncovered⟩ := mem_longestMatches.mp hc
    have hother := (mem_longestMatches.mp hother).1
    apply hwithin.eq_of_length_le (hforward c hmem)
    exact Nat.le_of_not_lt fun hlonger => huncovered other hother ⟨hwithin, hlonger⟩

/-- A name within a name within a name that occurs twice, and a name on another line. -/
def nestedNames : List Candidate :=
  [⟨0, 3, "b", .bare, 2, 3, ""⟩, ⟨0, 1, "a_b", .bare, 0, 3, ""⟩, ⟨0, 1, "a_b_c", .bare, 0, 5, ""⟩,
    ⟨0, 1, "a_b_c", .bare, 0, 5, ""⟩, ⟨1, 1, "a_b", .bare, 0, 3, ""⟩]

theorem dropped_iff_covered_nested :
    (∀ c ∈ nestedNames, c.start ≤ c.stop) ∧
    longestMatches nestedNames = nestedNames.drop 2 ∧
    (∃ (j : Nat) (hj : j < nestedNames.length), j ≠ 0 ∧ nestedNames[0].Within nestedNames[j] ∧
      nestedNames[0].length < nestedNames[j].length) ∧
    (∃ top ∈ longestMatches nestedNames, nestedNames[0].Within top) ∧
    longestMatches (longestMatches nestedNames) = longestMatches nestedNames := by
  have hforward : ∀ c ∈ nestedNames, c.start ≤ c.stop := by decide
  obtain ⟨-, -, hplaces, hcover, -, hagain⟩ := dropped_iff_covered nestedNames hforward
  have hdropped : nestedNames[0] ∉ longestMatches nestedNames := by decide
  exact ⟨hforward, by decide, (hplaces 0 (by decide)).mp hdropped,
    hcover nestedNames[0] (by decide) hdropped, hagain⟩

end ChangeScope.Call
