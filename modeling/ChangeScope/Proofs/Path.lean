import ChangeScope.Path
import ChangeScope.Proofs.Text.Fields

/-!
# Absolute paths

A path that begins with a slash does so after every operation on it. The extension of a path is the
end of its text (`getLast?_extension`).
-/

set_option autoImplicit false

namespace ChangeScope

namespace Path

/-! ## Slashes at the end -/

theorem trimReversed_suffix (cs : List Char) : trimReversed cs <:+ cs := by
  fun_induction trimReversed cs with
  | case1 rest ih => exact ih.trans (List.suffix_cons _ _)
  | case2 rest ih => exact ih.trans (List.suffix_cons _ _)
  | case3 rest => exact List.suffix_refl _

/-- The components but the first are those of the text without slashes at its end. -/
theorem components_trimReversed (cs : List Char) :
    (pieces (trimReversed cs).reverse).filterMap componentOf? =
      (pieces cs.reverse).filterMap componentOf? := by
  have hend : ∀ a b : List Char, pieces (a ++ '/' :: b) = pieces a ++ pieces b :=
    fun a b => Text.fields_append rfl a b
  fun_induction trimReversed cs with
  | case1 rest ih =>
      rw [ih, List.reverse_cons, hend, List.filterMap_append]
      exact (List.append_nil _).symm
  | case2 rest ih =>
      have hdot : ('.' :: '/' :: rest).reverse = rest.reverse ++ '/' :: ['.'] := by simp
      rw [ih, hdot, List.reverse_cons, hend, hend, List.filterMap_append, List.filterMap_append]
      rfl
  | case3 rest => rfl

/-! ## Absolute paths -/

/-- The text begins with a slash. -/
def Rooted (cs : List Char) : Prop := cs.head? = some '/'

/-- The path begins at the root. -/
def IsAbsolute (p : Path) : Prop := Rooted p.text.toList

theorem rooted_append {a : List Char} (h : Rooted a) (b : List Char) : Rooted (a ++ b) := by
  unfold Rooted at h ⊢
  rw [List.head?_append, h]
  rfl

/-- What is left of the end of a rooted text, if anything, has its root. -/
theorem rooted_of_suffix {cs rest : List Char} (h : Rooted cs.reverse) (hrest : rest <:+ cs)
    (hne : rest ≠ []) : Rooted rest.reverse := by
  obtain ⟨front, rfl⟩ := hrest
  unfold Rooted at h ⊢
  rw [List.head?_reverse] at h ⊢
  rw [List.getLast?_append] at h
  cases hlast : rest.getLast? with
  | none => exact absurd (List.getLast?_eq_none_iff.mp hlast) hne
  | some c =>
      rw [hlast] at h
      exact h

theorem rooted_joinText {base : List Char} (h : Rooted base) (part : List Char) :
    Rooted (joinText base part) := by
  unfold joinText
  split
  · next hpart => exact hpart
  · split
    · next hlast =>
        rw [List.getLast?_eq_none_iff.mp hlast] at h
        exact absurd h (by simp [Rooted])
    · exact rooted_append h part
    · exact rooted_append h _

theorem IsAbsolute.join {p : Path} (h : p.IsAbsolute) (part : String) :
    (p.join part).IsAbsolute := by
  unfold IsAbsolute Path.join
  rw [String.toList_ofList]
  exact rooted_joinText h part.toList

theorem components_of_rooted {cs : List Char} (h : Rooted cs) :
    componentsOf cs = .root :: (pieces cs).filterMap componentOf? := by
  unfold componentsOf
  exact if_pos h

/-- An absolute path that has a directory around it has text before its last component. -/
theorem trimReversed_ne_nil {cs : List Char} (h : Rooted cs) {last : Component}
    (hlast : (componentsOf cs).getLast? = some last) (hroot : last ≠ .root) :
    trimReversed cs.reverse ≠ [] := by
  intro hnil
  have hinner := components_trimReversed cs.reverse
  rw [hnil, List.reverse_reverse] at hinner
  rw [components_of_rooted h, ← hinner] at hlast
  exact hroot (Option.some.inj hlast).symm

theorem rooted_dropLastPiece {cs : List Char} (h : Rooted cs) (hne : trimReversed cs.reverse ≠ []) :
    Rooted (dropLastPiece cs) := by
  have hreverse : Rooted cs.reverse.reverse := by
    rw [List.reverse_reverse]
    exact h
  have hbody := rooted_of_suffix hreverse (trimReversed_suffix _) hne
  have hslash : '/' ∈ trimReversed cs.reverse := by
    unfold Rooted at hbody
    rw [List.head?_reverse] at hbody
    exact List.mem_of_getLast? hbody
  have hbefore : (trimReversed cs.reverse).dropWhile (· != '/') ≠ [] := by
    intro hnil
    have hall := List.dropWhile_eq_nil_iff.mp hnil '/' hslash
    exact absurd hall (by decide)
  unfold dropLastPiece
  dsimp only
  split
  · rw [if_neg (by rw [List.isEmpty_iff]; exact hbefore)]
    rfl
  · next rest hrest =>
      have hsuffix := (trimReversed_suffix ((trimReversed cs.reverse).dropWhile (· != '/'))).trans
        ((List.dropWhile_suffix _).trans (trimReversed_suffix cs.reverse))
      exact rooted_of_suffix hreverse hsuffix hrest

theorem IsAbsolute.parent {p q : Path} (h : p.IsAbsolute) (hq : p.parent? = some q) :
    q.IsAbsolute := by
  unfold parent? at hq
  split at hq
  · exact absurd hq (by simp)
  · exact absurd hq (by simp)
  · next last hroot hlast =>
      obtain rfl := Option.some.inj hq
      unfold IsAbsolute
      rw [String.toList_ofList]
      exact rooted_dropLastPiece h (trimReversed_ne_nil h hlast hroot)

/-- The file name is shorter than an absolute path. -/
theorem length_fileName_lt {p : Path} (h : p.IsAbsolute) {name : List Char}
    (hname : p.fileName? = some name) :
    name.length < (trimReversed p.text.toList.reverse).length := by
  unfold fileName? at hname
  split at hname
  · next last hlast =>
      obtain rfl := Option.some.inj hname
      have hne := trimReversed_ne_nil h hlast (by simp)
      have hrooted : Rooted p.text.toList.reverse.reverse := by
        rw [List.reverse_reverse]
        exact h
      have hbody := rooted_of_suffix hrooted (trimReversed_suffix _) hne
      -- the name is one of the fields of a text with a slash
      have hmem : Component.name last ∈ (pieces p.text.toList).filterMap componentOf? := by
        have hin := List.mem_of_getLast? hlast
        unfold components at hin
        rw [components_of_rooted h] at hin
        exact (List.mem_cons.mp hin).resolve_left (by simp)
      have hsame := components_trimReversed p.text.toList.reverse
      rw [List.reverse_reverse] at hsame
      rw [← hsame] at hmem
      obtain ⟨piece, hpiece, hcomponent⟩ := List.mem_filterMap.mp hmem
      have hpiece' : piece = last := by
        unfold componentOf? at hcomponent
        split at hcomponent
        · exact absurd hcomponent (by simp)
        · split at hcomponent
          · exact absurd hcomponent (by simp)
          · simpa using hcomponent
      subst hpiece'
      have hlength := Text.length_field_le hpiece
      have hslash : 0 < (trimReversed p.text.toList.reverse).reverse.countP (· == '/') := by
        apply List.countP_pos_iff.mpr
        exact ⟨'/', List.mem_of_head? hbody, rfl⟩
      rw [List.length_reverse] at hlength
      omega
  · exact absurd hname (by simp)

theorem IsAbsolute.withExtension {p : Path} (h : p.IsAbsolute) (extension : String) :
    (p.withExtension extension).IsAbsolute := by
  unfold Path.withExtension
  cases hname : p.fileName? with
  | none => exact h
  | some name =>
      have hlength := length_fileName_lt h hname
      have hrooted : Rooted p.text.toList.reverse.reverse := by
        rw [List.reverse_reverse]
        exact h
      show Rooted (String.ofList _).toList
      rw [String.toList_ofList]
      apply rooted_append
      apply rooted_of_suffix hrooted
      · exact (List.drop_suffix _ _).trans (trimReversed_suffix _)
      · rw [← List.length_pos_iff_ne_nil, List.length_drop]
        omega

theorem rooted_foldl_joinText (components : List Component) {a : List Char} (h : Rooted a) :
    Rooted (components.foldl (fun cs c => joinText cs c.text) a) := by
  induction components generalizing a with
  | nil => exact h
  | cons c components ih => exact ih (rooted_joinText h c.text)

theorem IsAbsolute.tidy {p : Path} (h : p.IsAbsolute) : p.tidy.IsAbsolute := by
  unfold Path.tidy ofComponents components IsAbsolute
  rw [components_of_rooted h, String.toList_ofList]
  exact rooted_foldl_joinText _ (a := ['/']) rfl

/-! ## Extensions -/

/-- A path that ends in neither a slash nor a dot ends in a name that ends as it does. -/
theorem exists_fileName {cs : List Char} {c : Char} (hlast : cs.getLast? = some c)
    (hslash : c ≠ '/') (hdot : c ≠ '.') :
    ∃ name, fileName? ⟨String.ofList cs⟩ = some name ∧ name.getLast? = some c := by
  obtain ⟨piece, hpiece, hend⟩ :=
    Text.getLast?_fields (p := (· == '/')) hlast (by simpa using hslash)
  have hcomponent : componentOf? piece = some (.name piece) := by
    unfold componentOf?
    rw [if_neg, if_neg]
    · rintro rfl
      exact hdot (Option.some.inj hend).symm
    · rw [Bool.or_eq_true, decide_eq_true_eq, decide_eq_true_eq]
      rintro (rfl | rfl)
      · exact absurd hend (by simp)
      · exact hdot (Option.some.inj hend).symm
  have hinner : ((pieces cs).filterMap componentOf?).getLast? = some (.name piece) := by
    obtain ⟨front, hfront⟩ := List.getLast?_eq_some_iff.mp hpiece
    rw [pieces, hfront, List.filterMap_append, List.filterMap_cons_some hcomponent,
      List.filterMap_nil, List.getLast?_concat]
  have hcomponents : (componentsOf cs).getLast? = some (.name piece) := by
    unfold componentsOf
    dsimp only
    split
    · rw [List.getLast?_cons, hinner]
      rfl
    · split
      · rw [List.getLast?_cons, hinner]
        rfl
      · exact hinner
  refine ⟨piece, ?_, hend⟩
  unfold fileName? components
  rw [String.toList_ofList, hcomponents]

/-- What stands behind the last dot of a name ends as the name does. -/
theorem getLast?_splitName {name after : List Char} {c : Char} (hlast : name.getLast? = some c)
    (hdot : c ≠ '.') (h : (splitName name).2 = some after) : after.getLast? = some c := by
  unfold splitName at h
  split at h
  · next stem rest hsplit =>
      split at h
      · exact absurd h (by simp)
      · obtain rfl : rest = after := Option.some.inj h
        obtain ⟨heq, -⟩ := Text.splitLast_spec (by simp) hsplit
        rw [heq, List.getLast?_append, List.getLast?_append] at hlast
        cases hrest : rest.getLast? with
        | some d => rwa [hrest] at hlast
        | none =>
            rw [hrest] at hlast
            exact absurd (Option.some.inj hlast).symm hdot
  · exact absurd h (by simp)

/-- An extension ends as the path does. -/
theorem getLast?_extension {cs : List Char} {c : Char} (hlast : cs.getLast? = some c)
    (hslash : c ≠ '/') (hdot : c ≠ '.') {extension : String}
    (h : extension? ⟨String.ofList cs⟩ = some extension) : extension.toList.getLast? = some c := by
  obtain ⟨name, hname, hend⟩ := exists_fileName hlast hslash hdot
  unfold extension? at h
  rw [hname] at h
  obtain ⟨after, hafter, rfl⟩ := Option.map_eq_some_iff.mp h
  rw [String.toList_ofList]
  exact getLast?_splitName hend hdot hafter

end Path

end ChangeScope
