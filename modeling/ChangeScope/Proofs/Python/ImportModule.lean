import ChangeScope.Proofs.Python.ImportLine

/-!
# Modules in import statements

A module without gaps is one word (`DottedText.words_tight`) and is read as it is written
(`ModuleText.ofList_write_eq_iff`). With a gap it is several words, and none of them is a keyword
(`reserved_not_word`).
-/

set_option autoImplicit false

namespace ChangeScope.Python

open ChangeScope.Import (ModuleName)
open ChangeScope.Text

/-! ## Ends of modules -/

theorem DottedText.exists_first {d : DottedText} (h : d.IsLegal) (gap : Gap → List Char) :
    ∃ c more, d.write gap = c :: more ∧ isBlank c = false := by
  have hname : ∀ {name : List Char}, IsName name → ∀ rest,
      ∃ c more, name ++ rest = c :: more ∧ isBlank c = false := by
    intro name hname rest
    obtain ⟨c, more, rfl⟩ := List.exists_cons_of_ne_nil hname.ne_nil
    exact ⟨c, more ++ rest, rfl, hname.not_blank c List.mem_cons_self⟩
  cases d with
  | last name =>
      have hfirst := hname h []
      rwa [List.append_nil] at hfirst
  | more name before after rest => exact hname h.1 _

theorem ModuleText.exists_first {m : ModuleText} (h : m.IsLegal) (gap : Gap → List Char) :
    ∃ c more, m.write gap = c :: more ∧ isBlank c = false := by
  cases m with
  | named names => exact DottedText.exists_first h gap
  | here => exact ⟨'.', [], rfl, rfl⟩
  | dot after rest => exact ⟨'.', _, rfl, rfl⟩

theorem DottedText.exists_last {d : DottedText} (h : d.IsLegal) (gap : Gap → List Char) :
    ∃ c, (d.write gap).getLast? = some c ∧ isBlank c = false := by
  induction d with
  | last name =>
      obtain ⟨init, c, rfl⟩ := List.eq_nil_or_concat' name |>.resolve_left (IsName.ne_nil h)
      exact ⟨c, List.getLast?_concat, IsName.not_blank h c (List.mem_append_right _
        List.mem_cons_self)⟩
  | more name before after rest ih =>
      obtain ⟨c, hlast, hc⟩ := ih h.2.2.2
      refine ⟨c, ?_, hc⟩
      rw [DottedText.write, ← List.singleton_append, ← List.append_assoc, ← List.append_assoc,
        ← List.append_assoc, List.getLast?_append_of_ne_nil _ (DottedText.write_ne_nil h.2.2.2 _),
        hlast]

theorem ModuleText.exists_last {m : ModuleText} (h : m.IsLegal) (gap : Gap → List Char) :
    ∃ c, (m.write gap).getLast? = some c ∧ isBlank c = false := by
  induction m with
  | named names => exact DottedText.exists_last h gap
  | here => exact ⟨'.', rfl, rfl⟩
  | dot after rest ih =>
      obtain ⟨c, hlast, hc⟩ := ih h.2
      refine ⟨c, ?_, hc⟩
      rw [ModuleText.write, ← List.singleton_append, ← List.append_assoc,
        List.getLast?_append_of_ne_nil _ (ModuleText.write_ne_nil h.2 _), hlast]

/-! ## Words of modules -/

theorem nonblank_append {u v : List Char} (hu : ∀ c ∈ u, isBlank c = false)
    (hv : ∀ c ∈ v, isBlank c = false) : ∀ c ∈ u ++ v, isBlank c = false := fun c hc =>
  (List.mem_append.mp hc).elim (hu c) (hv c)

theorem nonblank_dot : ∀ c ∈ ['.'], isBlank c = false := by decide

/-- A name stays a word, unless dots are glued to it. -/
theorem word_name {name : List Char} (h : IsName name) {u : List Char}
    (hu : ∀ c ∈ u, isBlank c = false) (hdot : u = [] ∨ '.' ∈ u) :
    ∀ w ∈ words (u ++ name), '.' ∈ w ∨ IsName w := by
  intro w hw
  rw [words_plain (List.append_ne_nil_of_right_ne_nil u h.ne_nil)
    (nonblank_append hu h.not_blank)] at hw
  rw [List.mem_singleton.mp hw]
  rcases hdot with rfl | hdot
  · exact .inr h
  · exact .inl (List.mem_append_left name hdot)

/-- Behind a dot the words of the rest follow, the first one perhaps glued to the dot. -/
theorem word_behind_dot {after : Gap} (hafter : after.IsAllowed false) {rest : List Char}
    (hrest : ∀ {u}, (∀ c ∈ u, isBlank c = false) → u = [] ∨ '.' ∈ u →
      ∀ w ∈ words (u ++ rest), '.' ∈ w ∨ IsName w)
    {v : List Char} (hv : ∀ c ∈ v, isBlank c = false) (hdot : '.' ∈ v) :
    ∀ w ∈ words (v ++ (Gap.shown after ++ rest)), '.' ∈ w ∨ IsName w := by
  intro w hw
  rw [words_gap hafter] at hw
  split at hw
  · exact hrest hv (.inr hdot) w hw
  · rw [words_plain (List.ne_nil_of_mem hdot) hv] at hw
    rcases List.mem_cons.mp hw with rfl | hw
    · exact .inl hdot
    · exact hrest (fun c hc => absurd hc List.not_mem_nil) (.inl rfl) w hw

/-- A word of a module has a dot or is a name, also with dots in front of the module. -/
theorem DottedText.word {d : DottedText} (h : d.IsLegal) {u : List Char}
    (hu : ∀ c ∈ u, isBlank c = false) (hdot : u = [] ∨ '.' ∈ u) :
    ∀ w ∈ words (u ++ d.write Gap.shown), '.' ∈ w ∨ IsName w := by
  induction d generalizing u with
  | last name => exact word_name h hu hdot
  | more name before after rest ih =>
      obtain ⟨hname, hbefore, hafter, hrest⟩ := h
      have hbehind : ∀ {v}, (∀ c ∈ v, isBlank c = false) → '.' ∈ v →
          ∀ w ∈ words (v ++ (Gap.shown after ++ rest.write Gap.shown)), '.' ∈ w ∨ IsName w :=
        word_behind_dot hafter fun hu hdot => ih hrest hu hdot
      intro w hw
      rw [DottedText.write, ← List.append_assoc, words_gap hbefore] at hw
      split at hw
      · rw [← List.singleton_append, ← List.append_assoc] at hw
        exact hbehind (nonblank_append (nonblank_append hu hname.not_blank) nonblank_dot)
          (List.mem_append_right _ List.mem_cons_self) w hw
      · rcases List.mem_append.mp hw with hw | hw
        · exact word_name hname hu hdot w hw
        · exact hbehind nonblank_dot List.mem_cons_self w hw

theorem ModuleText.word {m : ModuleText} (h : m.IsLegal) {u : List Char}
    (hu : ∀ c ∈ u, isBlank c = false) (hdot : u = [] ∨ '.' ∈ u) :
    ∀ w ∈ words (u ++ m.write Gap.shown), '.' ∈ w ∨ IsName w := by
  induction m generalizing u with
  | named names => exact DottedText.word h hu hdot
  | here =>
      intro w hw
      have hne : u ++ ['.'] ≠ [] := List.append_ne_nil_of_right_ne_nil u (List.cons_ne_nil _ _)
      rw [ModuleText.write, words_plain hne (nonblank_append hu nonblank_dot)] at hw
      rw [List.mem_singleton.mp hw]
      exact .inl (List.mem_append_right u List.mem_cons_self)
  | dot after rest ih =>
      rw [ModuleText.write, ← List.singleton_append, ← List.append_assoc]
      exact word_behind_dot h.1 (fun hu hdot => ih h.2 hu hdot) (nonblank_append hu nonblank_dot)
        (List.mem_append_right u List.mem_cons_self)

/-- No keyword is a word of a module. -/
theorem reserved_not_word {cs : List Char} (h : ∀ w ∈ words cs, '.' ∈ w ∨ IsName w)
    {w : List Char} (hw : w ∈ reserved) : w ∉ words cs := by
  intro hin
  have hplain : ∀ r ∈ reserved, '.' ∉ r := by decide
  exact (h w hin).elim (hplain w hw) fun hname => hname.2 hw

/-! ## Modules without gaps -/

theorem DottedText.exists_names (d : DottedText) : ∃ others, d.names = d.top :: others := by
  cases d with
  | last name => exact ⟨[], rfl⟩
  | more name before after rest => exact ⟨rest.names, rfl⟩

theorem DottedText.isName_names {d : DottedText} (h : d.IsLegal) : ∀ n ∈ d.names, IsName n := by
  induction d with
  | last name =>
      intro n hn
      rw [List.mem_singleton.mp hn]
      exact h
  | more name before after rest ih =>
      intro n hn
      rcases List.mem_cons.mp hn with rfl | hn
      · exact h.1
      · exact ih h.2.2.2 n hn

theorem DottedText.isWritten {d : DottedText} (h : d.IsLegal) :
    (⟨0, d.names⟩ : ModuleName).IsWritten := by
  refine ⟨fun n hn => (DottedText.isName_names h n hn).1, fun _ => ?_⟩
  obtain ⟨others, hnames⟩ := d.exists_names
  rw [hnames]
  exact List.cons_ne_nil _ _

theorem ModuleText.isWritten {m : ModuleText} (h : m.IsLegal) : m.name.IsWritten := by
  induction m with
  | named names => exact DottedText.isWritten h
  | here => exact ⟨fun n hn => absurd hn List.not_mem_nil, fun hzero => absurd hzero (by decide)⟩
  | dot after rest ih => exact ⟨(ih h.2).1, fun hzero => absurd hzero (Nat.succ_ne_zero _)⟩

theorem DottedText.write_tight {d : DottedText} (h : d.IsTight) (gap : Gap → List Char)
    (hgap : gap [] = []) : d.write gap = join ['.'] d.names := by
  induction d with
  | last name => exact (List.append_nil name).symm
  | more name before after rest ih =>
      obtain ⟨rfl, rfl, hrest⟩ := h
      obtain ⟨others, hnames⟩ := rest.exists_names
      rw [DottedText.write, DottedText.names, hgap, ih hrest, hnames, join_cons_cons]
      rfl

theorem ModuleText.write_tight {m : ModuleText} (h : m.IsTight) (gap : Gap → List Char)
    (hgap : gap [] = []) : m.write gap = m.name.text.toList := by
  unfold ModuleName.text
  rw [String.toList_ofList]
  induction m with
  | named names => exact DottedText.write_tight h gap hgap
  | here => rfl
  | dot after rest ih =>
      obtain ⟨rfl, hrest⟩ := h
      rw [ModuleText.write, ModuleText.name, hgap, ih hrest, List.replicate_succ]
      rfl

/-- Without gaps a module is one word. -/
theorem DottedText.words_tight {d : DottedText} (h : d.IsLegal) (htight : d.IsTight) :
    words (d.write Gap.shown) = [(ModuleName.text ⟨0, d.names⟩).toList] := by
  have hwrite : d.write Gap.shown = (ModuleName.text ⟨0, d.names⟩).toList :=
    ModuleText.write_tight (m := .named d) htight Gap.shown rfl
  rw [← hwrite]
  refine words_plain (DottedText.write_ne_nil h _) ?_
  rw [hwrite]
  exact (DottedText.isWritten h).not_blank

/-! ## Modules with gaps -/

/-- A gap stands on one line as a blank and more blanks. -/
theorem Gap.exists_shown {inside : Bool} {g : Gap} (hne : g ≠ []) (h : g.IsAllowed inside) :
    ∃ c more, Gap.shown g = c :: more ∧ isBlank c = true := by
  obtain ⟨c, more, hshown⟩ := List.exists_cons_of_ne_nil (Gap.shown_ne_nil hne)
  exact ⟨c, more, hshown, Gap.shown_blank h c (hshown ▸ List.mem_cons_self)⟩

/-- A gap in a module leaves a blank between two of its words. -/
theorem DottedText.exists_blank {d : DottedText} (h : d.IsLegal) (hgap : ¬ d.IsTight) :
    ∃ a c b, d.write Gap.shown = a ++ c :: b ∧ isBlank c = true ∧ words a ≠ [] ∧ words b ≠ [] := by
  have hdot : ∀ a b, words (a ++ '.' :: b) ≠ [] := fun a b =>
    words_ne_nil (List.mem_append_right a List.mem_cons_self) rfl
  induction d with
  | last name => exact absurd trivial hgap
  | more name before after rest ih =>
      obtain ⟨hname, hbefore, hafter, hrest⟩ := h
      -- the first gap with something in it: before the dot, behind it, or in the rest
      by_cases hb : before = []
      · subst hb
        by_cases ha : after = []
        · subst ha
          obtain ⟨a, c, b, hsplit, hc, -, hright⟩ := ih hrest fun htight => hgap ⟨rfl, rfl, htight⟩
          refine ⟨name ++ '.' :: a, c, b, ?_, hc, hdot _ _, hright⟩
          rw [DottedText.write, hsplit, List.append_assoc]
          rfl
        · obtain ⟨c, more, hshown, hc⟩ := Gap.exists_shown ha hafter
          obtain ⟨d, others, hfirst, hd⟩ := DottedText.exists_first hrest Gap.shown
          have hmem : d ∈ more ++ rest.write Gap.shown :=
            List.mem_append_right more (hfirst ▸ List.mem_cons_self)
          refine ⟨name ++ ['.'], c, more ++ rest.write Gap.shown, ?_, hc, hdot _ _,
            words_ne_nil hmem hd⟩
          rw [DottedText.write, hshown, List.append_assoc]
          rfl
      · obtain ⟨c, more, hshown, hc⟩ := Gap.exists_shown hb hbefore
        refine ⟨name, c, more ++ '.' :: (Gap.shown after ++ rest.write Gap.shown), ?_, hc, ?_,
          hdot _ _⟩
        · rw [DottedText.write, hshown]
          rfl
        · rw [hname.words_eq]
          exact List.cons_ne_nil _ _

/-- A module that is one word has no gap. -/
theorem DottedText.isTight_of_words {d : DottedText} (h : d.IsLegal) {w : List Char}
    (hwords : words (d.write Gap.shown) = [w]) : d.IsTight := by
  by_contra hgap
  obtain ⟨a, c, b, hsplit, hc, hleft, hright⟩ := DottedText.exists_blank h hgap
  have hlength := congrArg List.length hwords
  rw [hsplit, words_append hc, List.length_append, List.length_singleton] at hlength
  have hposLeft := List.length_pos_iff.mpr hleft
  have hposRight := List.length_pos_iff.mpr hright
  omega

/-- A module with a gap has a dot. -/
theorem DottedText.dot_mem_text {d : DottedText} (hgap : ¬ d.IsTight) :
    '.' ∈ (ModuleName.text ⟨0, d.names⟩).toList := by
  cases d with
  | last name => exact absurd trivial hgap
  | more name before after rest =>
      obtain ⟨others, hnames⟩ := rest.exists_names
      unfold ModuleName.text
      rw [String.toList_ofList, DottedText.names, hnames, join_cons_cons]
      exact List.mem_append_right _ (List.mem_append_right name List.mem_cons_self)

theorem DottedText.dot_not_mem_top {d : DottedText} (h : d.IsLegal) : '.' ∉ d.top := by
  obtain ⟨others, hnames⟩ := d.exists_names
  exact (DottedText.isName_names h d.top (hnames ▸ List.mem_cons_self)).1.not_mem rfl rfl

/-- The first word begins with the top package. -/
theorem DottedText.words_top {d : DottedText} (h : d.IsLegal) :
    ∃ first others, words (d.write Gap.shown) = first :: others ∧
      first.takeWhile (· != '.') = d.top := by
  have hname : ∀ {name : List Char}, IsName name → ∀ c ∈ name, (c != '.') = true := by
    intro name hname c hc
    rw [bne_iff_ne]
    rintro rfl
    exact hname.1.not_mem rfl rfl hc
  cases d with
  | last name =>
      refine ⟨name, [], IsName.words_eq h, ?_⟩
      exact List.takeWhile_eq_self_iff.mpr (hname h)
  | more name before after rest =>
      obtain ⟨hlegal, hbefore, -⟩ := h
      rw [DottedText.write, words_gap hbefore]
      split
      · obtain ⟨others, hwords⟩ := words_first hlegal.ne_nil hlegal.not_blank
          ('.' :: (Gap.shown after ++ rest.write Gap.shown))
        refine ⟨_, others, hwords, ?_⟩
        rw [List.takeWhile_append_of_pos (hname hlegal), List.takeWhile_cons_of_pos rfl,
          List.takeWhile_cons_of_neg (by decide)]
        exact List.append_nil name
      · rw [hlegal.words_eq]
        exact ⟨name, _, rfl, List.takeWhile_eq_self_iff.mpr (hname hlegal)⟩

theorem ModuleText.exists_blank {m : ModuleText} (h : m.IsLegal) (hgap : ¬ m.IsTight) :
    ∃ c ∈ m.write Gap.shown, isBlank c = true := by
  induction m with
  | named names =>
      obtain ⟨a, c, b, hsplit, hc, -⟩ := DottedText.exists_blank h hgap
      refine ⟨c, ?_, hc⟩
      rw [ModuleText.write, hsplit]
      exact List.mem_append_right a List.mem_cons_self
  | here => exact absurd trivial hgap
  | dot after rest ih =>
      rw [ModuleText.write]
      by_cases ha : after = []
      · obtain ⟨c, hc, hblank⟩ := ih h.2 fun htight => hgap ⟨ha, htight⟩
        exact ⟨c, List.mem_cons_of_mem _ (List.mem_append_right _ hc), hblank⟩
      · obtain ⟨c, more, hshown, hc⟩ := Gap.exists_shown ha h.1
        refine ⟨c, ?_, hc⟩
        rw [hshown]
        exact List.mem_cons_of_mem _ List.mem_cons_self

/-- A module is read without change just when no gap is in it. -/
theorem ModuleText.ofList_write_eq_iff {m : ModuleText} (h : m.IsLegal) :
    String.ofList (m.write Gap.shown) = m.name.text ↔ m.IsTight := by
  constructor
  · intro heq
    by_contra hgap
    obtain ⟨c, hc, hblank⟩ := ModuleText.exists_blank h hgap
    have hin : c ∈ m.name.text.toList := by
      rw [← heq, String.toList_ofList]
      exact hc
    rw [(ModuleText.isWritten h).not_blank c hin] at hblank
    exact Bool.noConfusion hblank
  · intro htight
    rw [ModuleText.write_tight htight Gap.shown rfl, String.ofList_toList]

end ChangeScope.Python
