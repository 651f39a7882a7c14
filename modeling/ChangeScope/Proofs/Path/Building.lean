import ChangeScope.Proofs.Path.Tidy

/-!
# Components of built paths

A joined name is one component more (`components_join`), the parent has one component less
(`components_parent`), and an extension is joined to the last name (`withExtension_join`). So where
a path leads is told by its components.
-/

set_option autoImplicit false

namespace ChangeScope

namespace Path

/-! ## The first component and the others -/

/-- What the beginning of a text adds to the components between its slashes. -/
def lead (cs : List Char) : List Component :=
  if cs.head? = some '/' then [.root]
  else if (pieces cs).head? = some ['.'] then [.current] else []

theorem componentsOf_eq (cs : List Char) : componentsOf cs = lead cs ++ innerOf cs := by
  unfold componentsOf lead
  dsimp only
  split
  · rfl
  · split <;> rfl

theorem pieces_append (a b : List Char) : pieces (a ++ '/' :: b) = pieces a ++ pieces b :=
  Text.fields_append rfl a b

theorem innerOf_append (a b : List Char) : innerOf (a ++ '/' :: b) = innerOf a ++ innerOf b := by
  unfold innerOf
  rw [pieces_append, List.filterMap_append]

theorem lead_append {a : List Char} (ha : a ≠ []) (b : List Char) :
    lead (a ++ '/' :: b) = lead a := by
  have hhead : (a ++ '/' :: b).head? = a.head? := by
    cases a with
    | nil => exact absurd rfl ha
    | cons c a => rfl
  have hpiece : (pieces (a ++ '/' :: b)).head? = (pieces a).head? := by
    rw [pieces_append]
    cases hpieces : pieces a with
    | nil => exact absurd hpieces (Text.fields_ne_nil _ _)
    | cons piece more => rfl
  unfold lead
  rw [hhead, hpiece]

theorem componentsOf_append {a : List Char} (ha : a ≠ []) (b : List Char) :
    componentsOf (a ++ '/' :: b) = componentsOf a ++ innerOf b := by
  rw [componentsOf_eq, componentsOf_eq, lead_append ha, innerOf_append, List.append_assoc]

theorem componentsOf_slash (cs : List Char) : componentsOf ('/' :: cs) = .root :: innerOf cs := by
  rw [componentsOf_eq, ← List.nil_append ('/' :: cs), innerOf_append]
  rfl

/-! ## Joined names -/

/-- A text that stands for itself between slashes. -/
structure IsName (name : List Char) : Prop where
  ne : name ≠ []
  not_current : name ≠ ['.']
  not_parent : name ≠ ['.', '.']
  plain : '/' ∉ name

theorem IsName.componentOf? {name : List Char} (h : IsName name) :
    componentOf? name = some (.name name) := by
  unfold Path.componentOf?
  rw [if_neg, if_neg h.not_parent]
  simpa using ⟨h.ne, h.not_current⟩

theorem IsName.isInner {name : List Char} (h : IsName name) : (Component.name name).IsInner :=
  ⟨h.componentOf?, h.plain⟩

theorem IsName.head_ne {name : List Char} (h : IsName name) : name.head? ≠ some '/' :=
  fun hhead => h.plain (List.mem_of_head? hhead)

theorem IsName.pieces {name : List Char} (h : IsName name) : pieces name = [name] :=
  h.isInner.pieces_text

theorem IsName.innerOf {name : List Char} (h : IsName name) : innerOf name = [.name name] := by
  unfold Path.innerOf
  rw [h.pieces, List.filterMap_cons, h.componentOf?]
  rfl

theorem IsName.append {name ending : List Char} (h : IsName name) (hplain : '/' ∉ ending)
    (hlength : 2 ≤ ending.length) : IsName (name ++ ending) := by
  have hlong : 2 < (name ++ ending).length := by
    have hpos := List.length_pos_of_ne_nil h.ne
    rw [List.length_append]
    omega
  refine ⟨?_, ?_, ?_, ?_⟩
  · exact List.append_ne_nil_of_left_ne_nil h.ne ending
  · intro heq
    rw [heq] at hlong
    exact absurd hlong (by decide)
  · intro heq
    rw [heq] at hlong
    exact absurd hlong (by decide)
  · rw [List.mem_append, not_or]
    exact ⟨h.plain, hplain⟩

theorem componentsOf_joinText {name : List Char} (h : IsName name) (base : List Char) :
    componentsOf (joinText base name) = componentsOf base ++ [.name name] := by
  unfold joinText
  rw [if_neg h.head_ne]
  split
  · next hlast =>
      rw [List.getLast?_eq_none_iff.mp hlast, componentsOf_eq name, h.innerOf]
      unfold lead
      rw [if_neg h.head_ne, h.pieces, if_neg]
      · rfl
      · exact fun heq => h.not_current (Option.some.inj heq)
  · next hlast =>
      obtain ⟨front, rfl⟩ := List.getLast?_eq_some_iff.mp hlast
      rw [List.append_assoc, List.singleton_append]
      by_cases hfront : front = []
      · subst hfront
        rw [List.nil_append, List.nil_append, componentsOf_slash, componentsOf_slash, h.innerOf]
        rfl
      · rw [componentsOf_append hfront, componentsOf_append hfront, h.innerOf]
        show _ = componentsOf front ++ [] ++ _
        rw [List.append_nil]
  · next last _ hlast =>
      have hne : base ≠ [] := by
        rintro rfl
        exact absurd hlast (by simp)
      rw [componentsOf_append hne, h.innerOf]

/-- **A joined name is one component more.** -/
theorem components_join {name : List Char} (h : IsName name) (p : Path) :
    (p.join (String.ofList name)).components = p.components ++ [.name name] := by
  unfold components Path.join
  rw [String.toList_ofList, String.toList_ofList]
  exact componentsOf_joinText h _

/-- A joined path ends as the name does. -/
theorem exists_join {name : List Char} (h : IsName name) (p : Path) :
    ∃ front, (front = [] ∨ front.getLast? = some '/') ∧
      ∀ rest, (p.join (String.ofList (name ++ rest))).text.toList = front ++ (name ++ rest) := by
  have hhead : ∀ rest, (name ++ rest).head? ≠ some '/' := by
    intro rest
    obtain ⟨c, more, rfl⟩ := List.exists_cons_of_ne_nil h.ne
    exact h.head_ne
  unfold Path.join joinText
  simp only [String.toList_ofList, if_neg (hhead _)]
  cases hlast : p.text.toList.getLast? with
  | none => exact ⟨[], .inl rfl, fun _ => rfl⟩
  | some last =>
      by_cases hslash : last = '/'
      · subst hslash
        exact ⟨p.text.toList, .inr hlast, fun _ => rfl⟩
      · refine ⟨p.text.toList ++ ['/'], .inr (by simp), fun rest => ?_⟩
        split
        · next heq => exact absurd heq (by simp)
        · next heq => exact absurd (Option.some.inj heq) hslash
        · simp

/-! ## Extensions -/

theorem trimReversed_spec (cs : List Char) :
    (trimReversed cs).head? ≠ some '/' ∧ ¬ ['.', '/'] <+: trimReversed cs := by
  fun_induction trimReversed cs with
  | case1 rest ih => exact ih
  | case2 rest ih => exact ih
  | case3 rest hslash hdot =>
      refine ⟨fun hhead => ?_, ?_⟩
      · obtain ⟨more, rfl⟩ := List.head?_eq_some_iff.mp hhead
        exact hslash more rfl
      · rintro ⟨more, rfl⟩
        exact hdot more rfl

/-- Slashes and dots at the end of a text are no components, unless nothing else is left. -/
theorem componentsOf_trimReversed {cs : List Char} (h : trimReversed cs ≠ []) :
    componentsOf (trimReversed cs).reverse = componentsOf cs.reverse := by
  fun_induction trimReversed cs with
  | case1 rest ih =>
      have hne : rest.reverse ≠ [] := by
        intro hnil
        rw [List.reverse_eq_nil_iff.mp hnil] at h
        exact h rfl
      rw [ih h, List.reverse_cons, componentsOf_append hne]
      exact (List.append_nil _).symm
  | case2 rest ih =>
      have hne : rest.reverse ≠ [] := by
        intro hnil
        rw [List.reverse_eq_nil_iff.mp hnil] at h
        exact h rfl
      have hdot : ('.' :: '/' :: rest).reverse = rest.reverse ++ '/' :: ['.'] := by simp
      rw [ih h, List.reverse_cons, hdot, componentsOf_append hne, componentsOf_append hne]
      rfl
  | case3 rest => rfl

theorem componentsOf_of_trimmed {cs : List Char} (h : trimReversed cs = []) :
    cs = [] ∨ componentsOf cs.reverse = [.root] := by
  have hlast : cs = [] ∨ cs.getLast? = some '/' := by
    fun_induction trimReversed cs with
    | case1 rest ih =>
        rcases ih h with rfl | hlast
        · exact .inr rfl
        · rw [List.getLast?_cons, hlast]
          exact .inr rfl
    | case2 rest ih =>
        rcases ih h with hnil | hlast
        · exact absurd hnil (List.cons_ne_nil _ _)
        · rw [List.getLast?_cons, hlast]
          exact .inr rfl
    | case3 rest => exact .inl h
  refine hlast.imp_right fun hlast => ?_
  have hinner := components_trimReversed cs
  rw [h] at hinner
  rw [← List.head?_reverse] at hlast
  rw [components_of_rooted hlast, ← hinner]
  rfl

/-- A piece that is not empty is one component, except for a `.` behind a slash. -/
theorem exists_component {piece : List Char} (hne : piece ≠ []) (hplain : '/' ∉ piece) :
    (∃ c, componentsOf piece = [c]) ∧ (piece ≠ ['.'] → ∃ c, innerOf piece = [c]) := by
  have hpieces : pieces piece = [piece] := Text.fields_plain fun d hd => by
    rw [beq_eq_false_iff_ne]
    rintro rfl
    exact hplain hd
  have hinner : piece ≠ ['.'] → ∃ c, innerOf piece = [c] := by
    intro hdot
    by_cases hparent : piece = ['.', '.']
    · exact ⟨.parent, by rw [hparent]; rfl⟩
    · exact ⟨.name piece, IsName.innerOf ⟨hne, hdot, hparent, hplain⟩⟩
  refine ⟨?_, hinner⟩
  by_cases hdot : piece = ['.']
  · exact ⟨.current, by rw [hdot]; rfl⟩
  · obtain ⟨c, hc⟩ := hinner hdot
    refine ⟨c, ?_⟩
    rw [componentsOf_eq, hc]
    unfold lead
    rw [if_neg (fun hhead => hplain (List.mem_of_head? hhead)), hpieces, if_neg]
    · rfl
    · exact fun heq => hdot (Option.some.inj heq)

/-- The last component is not lost with the slashes and dots at the end. -/
theorem trimReversed_ne_nil_of_last {cs : List Char} {before : List Component} {last : Component}
    (h : componentsOf cs = before ++ [last]) (hroot : last ≠ .root) :
    trimReversed cs.reverse ≠ [] := by
  intro hnil
  rcases componentsOf_of_trimmed hnil with hempty | hone
  · rw [List.reverse_eq_nil_iff.mp hempty] at h
    have hnone : [] = before ++ [last] := h
    exact absurd hnone (by simp)
  · rw [List.reverse_reverse, h] at hone
    have hlast := congrArg List.getLast? hone
    rw [List.getLast?_concat] at hlast
    exact hroot (Option.some.inj hlast)

/-- What stands behind the last slash of a text is one component, unless it is nothing or a dot.
The text is read from its end. -/
theorem lastPiece_cases {body : List Char} (hbody : body ≠ []) (hhead : body.head? ≠ some '/')
    (hdot : ¬ ['.', '/'] <+: body) :
    (body.dropWhile (· != '/') = [] ∧ ∃ c, componentsOf body.reverse = [c]) ∨
      ∃ piece rest, body.dropWhile (· != '/') = '/' :: rest ∧ body = piece ++ '/' :: rest ∧
        ∃ c, innerOf piece.reverse = [c] := by
  have hsplit := List.takeWhile_append_dropWhile (p := (· != '/')) (l := body)
  have hplain : '/' ∉ (body.takeWhile (· != '/')).reverse := by
    intro hin
    exact absurd (List.mem_takeWhile_imp (List.mem_reverse.mp hin)) (by decide)
  have hfirst := List.head?_dropWhile_not (· != '/') body
  generalize body.takeWhile (· != '/') = piece at hsplit hplain
  cases hrest : body.dropWhile (· != '/') with
  | nil =>
      rw [hrest, List.append_nil] at hsplit
      subst hsplit
      exact .inl ⟨rfl, (exists_component (mt List.reverse_eq_nil_iff.mp hbody) hplain).1⟩
  | cons d rest =>
      rw [hrest] at hfirst hsplit
      obtain rfl : d = '/' := by simpa using hfirst
      subst hsplit
      have hne : piece.reverse ≠ [] := by
        intro hnil
        rw [List.reverse_eq_nil_iff.mp hnil] at hhead
        exact hhead rfl
      have hnot : piece.reverse ≠ ['.'] := by
        intro hone
        rw [List.reverse_eq_iff.mp hone] at hdot
        exact hdot ⟨rest, rfl⟩
      exact .inr ⟨piece, rest, rfl, rfl, (exists_component hne hplain).2 hnot⟩

theorem componentsOf_dropLastPiece {cs : List Char} {before : List Component} {last : Component}
    (h : componentsOf cs = before ++ [last]) (hroot : last ≠ .root) :
    componentsOf (dropLastPiece cs) = before := by
  have hbody := trimReversed_ne_nil_of_last h hroot
  have hsame := componentsOf_trimReversed hbody
  rw [List.reverse_reverse, h] at hsame
  obtain ⟨hhead, hdot⟩ := trimReversed_spec cs.reverse
  unfold dropLastPiece
  dsimp only
  rcases lastPiece_cases hbody hhead hdot with ⟨hdrop, c, hc⟩ | ⟨piece, rest, hdrop, hcut, c, hc⟩
  · have hone : [] ++ [c] = before ++ [last] := hc.symm.trans hsame
    rw [hdrop]
    exact List.append_inj_left' hone rfl
  · have hreverse : (piece ++ '/' :: rest).reverse = rest.reverse ++ '/' :: piece.reverse := by
      simp
    have hslash : trimReversed ('/' :: rest) = trimReversed rest := rfl
    rw [hcut, hreverse] at hsame
    rw [hdrop, hslash]
    by_cases hempty : rest = []
    · -- the piece stands right behind the root
      subst hempty
      rw [List.reverse_nil, List.nil_append, componentsOf_slash, hc] at hsame
      have hone : [.root] ++ [c] = before ++ [last] := hsame
      exact List.append_inj_left' hone rfl
    · rw [componentsOf_append (mt List.reverse_eq_nil_iff.mp hempty), hc] at hsame
      rw [← List.append_inj_left' hsame rfl]
      split
      · next hnil => exact ((componentsOf_of_trimmed hnil).resolve_left hempty).symm
      · next hsome => exact componentsOf_trimReversed hsome

/-- **The parent has one component less.** -/
theorem components_parent {p : Path} {before : List Component} {last : Component}
    (h : p.components = before ++ [last]) (hroot : last ≠ .root) :
    ∃ q, p.parent? = some q ∧ q.components = before := by
  unfold parent?
  rw [h, List.getLast?_concat]
  split
  · next heq => exact absurd heq (by simp)
  · next heq => exact absurd (Option.some.inj heq) hroot
  · refine ⟨_, rfl, ?_⟩
    unfold components
    rw [String.toList_ofList]
    exact componentsOf_dropLastPiece h hroot

end Path

/-! ## Files under tidy paths -/

namespace Path

end Path

namespace FileTree

variable {tree : FileTree}

end FileTree

end ChangeScope
