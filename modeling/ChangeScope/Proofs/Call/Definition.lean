import ChangeScope.Proofs.Call.Qualifier

/-!
# Lines of definitions

A line that defines a function begins so. It makes no difference to the beginning when a file with
a colon behind it is put in later in the line (`isDefLine_insert`), nor does what a comment or a
literal in it holds (`isDefLine_marked`). The word `class` is looked for behind the boundary before
it (`followsClass_congr`).
-/

set_option autoImplicit false

namespace ChangeScope.Call

open ChangeScope.Text

/-! ## The beginning of a line -/

theorem isDefLine_iff {line : List Char} : isDefLine line = true ↔
    ∃ kw, (kw = "def ".toList ∨ kw = "async def ".toList) ∧ kw <+: trimStart line := by
  unfold isDefLine
  rw [Bool.or_eq_true, List.isPrefixOf_iff_prefix, List.isPrefixOf_iff_prefix]
  constructor
  · rintro (h | h)
    · exact ⟨_, Or.inl rfl, h⟩
    · exact ⟨_, Or.inr rfl, h⟩
  · rintro ⟨kw, rfl | rfl, h⟩
    · exact Or.inl h
    · exact Or.inr h

theorem trimStart_append (a b : List Char) : trimStart (a ++ b) =
    if (trimStart a).isEmpty then trimStart b else trimStart a ++ b := by
  unfold trimStart
  exact List.dropWhile_append

/-- A line goes on as it began. -/
theorem isDefLine_append {a : List Char} (h : isDefLine a = true) (b : List Char) :
    isDefLine (a ++ b) = true := by
  obtain ⟨kw, hkw, hstarts⟩ := isDefLine_iff.mp h
  refine isDefLine_iff.mpr ⟨kw, hkw, ?_⟩
  have hne : ¬ (trimStart a).isEmpty = true := by
    intro hempty
    rw [List.isEmpty_iff.mp hempty, List.prefix_nil] at hstarts
    rcases hkw with rfl | rfl <;> exact absurd hstarts (by decide)
  rw [trimStart_append, if_neg hne]
  exact hstarts.trans (List.prefix_append _ _)

/-- A text with a blank does not begin before a colon where there is no blank. -/
theorem not_prefix_colon {kw a b : List Char} (hblank : ' ' ∈ kw) (hcolon : ':' ∉ kw)
    (ha : ' ' ∉ a) : ¬ kw <+: a ++ ':' :: b := by
  intro h
  have hmem : ':' ∈ a ++ [':'] := by simp
  have hsplit : a ++ ':' :: b = (a ++ [':']) ++ b := by simp
  rw [hsplit, prefix_within hmem hcolon] at h
  rcases List.mem_append.mp (h.subset hblank) with hin | hin
  · exact ha hin
  · exact absurd hin (by decide)

/-- A file and a colon in a line are no part of its beginning. -/
theorem isDefLine_insert {a file b : List Char} (hfile : ' ' ∉ file)
    (h : isDefLine (a ++ (file ++ ':' :: b)) = true) : isDefLine a = true := by
  obtain ⟨kw, hkw, hstarts⟩ := isDefLine_iff.mp h
  refine isDefLine_iff.mpr ⟨kw, hkw, ?_⟩
  obtain ⟨hcolon, start, hstart⟩ : ':' ∉ kw ∧ ∃ start, kw = start ++ [' '] := by
    rcases hkw with rfl | rfl
    · exact ⟨by decide, ['d', 'e', 'f'], rfl⟩
    · exact ⟨by decide, ['a', 's', 'y', 'n', 'c', ' ', 'd', 'e', 'f'], rfl⟩
  rw [trimStart_append] at hstarts
  split at hstarts
  · -- the line would begin with the file
    exfalso
    rw [trimStart_append] at hstarts
    have hblank : ' ' ∈ kw := by
      rw [hstart]
      simp
    split at hstarts
    · exact not_prefix_colon (a := []) hblank hcolon List.not_mem_nil hstarts
    · apply not_prefix_colon hblank hcolon _ hstarts
      intro hin
      exact hfile ((List.dropWhile_suffix _).subset hin)
  · rcases List.prefix_or_prefix_of_prefix hstarts (List.prefix_append _ _) with hshort | hlong
    · exact hshort
    · obtain ⟨more, rfl⟩ := hlong
      rw [List.prefix_append_right_inj] at hstarts
      rcases List.eq_nil_or_concat' more with rfl | ⟨more', d, rfl⟩
      · rw [List.append_nil]
      · -- the beginning would end inside the file
        exfalso
        rw [← List.append_assoc] at hstart
        have hd : d = ' ' := by
          have hlast := congrArg List.getLast? hstart
          simpa using hlast
        subst hd
        have hblank : ' ' ∈ more' ++ [' '] := by simp
        apply not_prefix_colon hblank _ hfile hstarts
        intro hin
        exact hcolon (List.mem_append_right _ hin)

/-- The sign of a comment and the quotes are no part of the beginning of a definition. -/
theorem not_mem_definition {m : Char} (hm : m = '#' ∨ isQuote m = true) {kw : List Char}
    (hkw : kw = "def ".toList ∨ kw = "async def ".toList) : m ∉ kw := by
  rw [isQuote_iff] at hm
  rcases hkw with rfl | rfl <;> rcases hm with rfl | rfl | rfl <;> decide

/-- What follows the sign of a comment or a quote in a line is no part of its beginning. -/
theorem isDefLine_marked {m : Char} (hm : m = '#' ∨ isQuote m = true) (a x y : List Char) :
    isDefLine (a ++ m :: x) = isDefLine (a ++ m :: y) := by
  have hblank : isBlank m = false := by
    rw [isQuote_iff] at hm
    rcases hm with rfl | rfl | rfl <;> rfl
  -- the mark is no blank, so at the latest it stops the trimming
  have hmark : ∀ z, trimStart (a ++ m :: z) = trimStart (a ++ [m]) ++ z := by
    intro z
    have hmz : ∀ z, trimStart (m :: z) = m :: z := fun z =>
      List.dropWhile_cons_of_neg (by simp [hblank])
    rw [trimStart_append, trimStart_append, hmz, hmz]
    split
    · rfl
    · rw [List.append_assoc]
      rfl
  have hmem : m ∈ trimStart (a ++ [m]) := by
    rw [trimStart_append]
    have hone : trimStart [m] = [m] := List.dropWhile_cons_of_neg (by simp [hblank])
    rw [hone]
    split
    · exact List.mem_cons_self
    · exact List.mem_append_right _ List.mem_cons_self
  rw [Bool.eq_iff_iff, isDefLine_iff, isDefLine_iff]
  refine exists_congr fun kw => and_congr_right fun hkw => ?_
  rw [hmark x, hmark y, prefix_within hmem (not_mem_definition hm hkw),
    prefix_within hmem (not_mem_definition hm hkw)]

/-! ## The line around a position -/

/-- Text without the end of a line moves from one side of a position to the other. -/
theorem lineAround_append {u : List Char} (hu : '\n' ∉ u) (before after : List Char) :
    lineAround (u.reverse ++ before) after = lineAround before (u ++ after) := by
  have hall : ∀ c ∈ u, (c != '\n') = true := by
    intro c hc
    rw [bne_iff_ne]
    rintro rfl
    exact hu hc
  unfold lineAround
  rw [List.takeWhile_append_of_pos hall,
    List.takeWhile_append_of_pos (fun c hc => hall c (List.mem_reverse.mp hc)),
    List.reverse_append, List.reverse_reverse, List.append_assoc]

/-- Behind the end of a line nothing counts. -/
theorem lineAround_within {u : List Char} (hu : '\n' ∈ u) (before a b : List Char) :
    lineAround before (u ++ a) = lineAround before (u ++ b) := by
  unfold lineAround
  rw [(takeWhile_within hu rfl a).1, (takeWhile_within hu rfl b).1]

/-! ## Classes -/

/-- The word `class` is looked for behind the boundary before it. -/
theorem followsClass_congr {d : Char} (hd : isFileBoundary d = true) (hgap : isGap d = false)
    (x y : List Char) {u : List Char} (hu : d ∈ u) :
    followsClass (u ++ x) = followsClass (u ++ y) := by
  obtain ⟨-, hdropx, hmem⟩ := takeWhile_within hu (p := isGap) hgap x
  obtain ⟨-, hdropy, -⟩ := takeWhile_within hu (p := isGap) hgap y
  -- the boundary is no part of the word, which is found before it or not at all
  have hkw : d ∉ "class".toList.reverse := by
    intro hin
    have hall : ("class".toList.reverse.all fun c => !isFileBoundary c) = true := by decide
    have hnone := List.all_eq_true.mp hall d hin
    rw [hd] at hnone
    exact absurd hnone (by decide)
  unfold followsClass
  rw [hdropx, hdropy]
  by_cases hstarts : "class".toList.reverse <+: u.dropWhile isGap
  · obtain ⟨more, hmore⟩ := hstarts
    rw [← hmore] at hmem ⊢
    have hin : d ∈ more := (List.mem_append.mp hmem).resolve_left hkw
    obtain ⟨c, more', rfl⟩ := List.exists_cons_of_ne_nil (List.ne_nil_of_mem hin)
    rw [List.append_assoc, List.append_assoc, isPrefixOf?_eq_some_iff.mpr rfl,
      isPrefixOf?_eq_some_iff.mpr rfl]
    rfl
  · have hx : ¬ "class".toList.reverse <+: u.dropWhile isGap ++ x := by
      rwa [prefix_within hmem hkw]
    have hy : ¬ "class".toList.reverse <+: u.dropWhile isGap ++ y := by
      rwa [prefix_within hmem hkw]
    rw [isPrefixOf?_eq_none_iff.mpr hx, isPrefixOf?_eq_none_iff.mpr hy]

theorem followsClass_colon (x : List Char) : followsClass (':' :: x) = false := rfl

end ChangeScope.Call
