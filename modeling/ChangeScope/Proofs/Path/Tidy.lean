import ChangeScope.Proofs.FileTree.Ways
import ChangeScope.Proofs.Path

/-!
# Tidy paths

A tidy path has the components of the path but for a `.` in front (`Path.components_tidy`), so a
file is found under it as well (`FileTree.isFile_tidy`).
-/

set_option autoImplicit false

namespace ChangeScope

namespace Path

/-! ## Components between slashes -/

/-- The component is read back from its text between slashes. -/
structure Component.IsInner (c : Component) : Prop where
  reads : componentOf? c.text = some c
  plain : '/' ∉ c.text

/-- The components between the slashes of a text. -/
def innerOf (cs : List Char) : List Component := (pieces cs).filterMap componentOf?

theorem text_of_componentOf? {piece : List Char} {c : Component} (h : componentOf? piece = some c) :
    c.text = piece := by
  unfold componentOf? at h
  split at h
  · exact absurd h (by simp)
  · split at h
    · next hparent =>
        obtain rfl := Option.some.inj h
        exact hparent.symm
    · obtain rfl := Option.some.inj h
      rfl

/-- A component between slashes has its text from the path. -/
theorem piece_of_innerOf {cs : List Char} {c : Component} (h : c ∈ innerOf cs) :
    c.text ∈ pieces cs ∧ componentOf? c.text = some c := by
  obtain ⟨piece, hpiece, hc⟩ := List.mem_filterMap.mp h
  rw [text_of_componentOf? hc]
  exact ⟨hpiece, hc⟩

theorem isInner_of_innerOf {cs : List Char} {c : Component} (h : c ∈ innerOf cs) : c.IsInner := by
  obtain ⟨hpiece, hc⟩ := piece_of_innerOf h
  refine ⟨hc, fun hslash => ?_⟩
  exact absurd (Text.of_mem_field hpiece hslash).2 (by decide)

theorem Component.IsInner.text_ne {c : Component} (h : c.IsInner) :
    c.text ≠ [] ∧ c.text ≠ ['.'] := by
  have hreads := h.reads
  unfold componentOf? at hreads
  split at hreads
  · exact absurd hreads (by simp)
  · next hne => simpa using hne

theorem Component.IsInner.head_ne {c : Component} (h : c.IsInner) : c.text.head? ≠ some '/' :=
  fun hhead => h.plain (List.mem_of_head? hhead)

theorem Component.IsInner.ne_current {c : Component} (h : c.IsInner) : c ≠ .current := by
  rintro rfl
  exact h.text_ne.2 rfl

theorem Component.IsInner.pieces_text {c : Component} (h : c.IsInner) : pieces c.text = [c.text] :=
  Text.fields_plain fun d hd => by
    rw [beq_eq_false_iff_ne]
    rintro rfl
    exact h.plain hd

theorem filterMap_texts {cs : List Component} (h : ∀ c ∈ cs, c.IsInner) :
    (cs.map Component.text).filterMap componentOf? = cs := by
  induction cs with
  | nil => rfl
  | cons c cs ih =>
      rw [List.map_cons, List.filterMap_cons, (h c List.mem_cons_self).reads,
        ih fun d hd => h d (List.mem_cons_of_mem c hd)]

/-! ## Joined components -/

/-- Components, each after a slash. -/
def slashed (cs : List Component) : List Char := cs.flatMap fun c => '/' :: c.text

/-- The text ends, and not with a slash. -/
def IsOpen (cs : List Char) : Prop := ∃ c, cs.getLast? = some c ∧ c ≠ '/'

theorem Component.IsInner.isOpen {c : Component} (h : c.IsInner) (base : List Char) :
    IsOpen (base ++ c.text) := by
  obtain ⟨last, hlast⟩ := Option.isSome_iff_exists.mp (List.getLast?_isSome.mpr h.text_ne.1)
  refine ⟨last, ?_, ?_⟩
  · rw [List.getLast?_append, hlast]
    rfl
  · rintro rfl
    exact h.plain (List.mem_of_getLast? hlast)

theorem joinText_inner {base : List Char} (hbase : IsOpen base) {c : Component} (h : c.IsInner) :
    joinText base c.text = base ++ '/' :: c.text := by
  obtain ⟨last, hlast, hne⟩ := hbase
  unfold joinText
  rw [if_neg h.head_ne, hlast]
  split
  · next heq => exact absurd heq (by simp)
  · next heq => exact absurd (Option.some.inj heq) hne
  · rfl

theorem foldl_joinText {cs : List Component} (h : ∀ c ∈ cs, c.IsInner) {base : List Char}
    (hbase : IsOpen base) :
    cs.foldl (fun text c => joinText text c.text) base = base ++ slashed cs ∧
      IsOpen (base ++ slashed cs) := by
  induction cs generalizing base with
  | nil => exact ⟨(List.append_nil base).symm, by rwa [slashed, List.flatMap_nil, List.append_nil]⟩
  | cons c cs ih =>
      have hc := h c List.mem_cons_self
      have hnext : IsOpen (base ++ '/' :: c.text) := by
        rw [List.append_cons]
        exact hc.isOpen _
      have hslashed : slashed (c :: cs) = '/' :: c.text ++ slashed cs := rfl
      rw [List.foldl_cons, joinText_inner hbase hc, hslashed, ← List.append_assoc]
      exact ih (fun d hd => h d (List.mem_cons_of_mem c hd)) hnext

/-- The text of components without a root. -/
theorem text_ofComponents {c : Component} {cs : List Component} (h : ∀ d ∈ c :: cs, d.IsInner) :
    (ofComponents (c :: cs)).text.toList = c.text ++ slashed cs ∧
      IsOpen (c.text ++ slashed cs) := by
  have hc := h c List.mem_cons_self
  have hfirst : joinText [] c.text = c.text := by
    unfold joinText
    rw [if_neg hc.head_ne]
    rfl
  unfold ofComponents
  rw [String.toList_ofList, List.foldl_cons, hfirst]
  exact foldl_joinText (fun d hd => h d (List.mem_cons_of_mem c hd)) (hc.isOpen [])

/-- The text of components from the root on. -/
theorem text_ofComponents_root {c : Component} {cs : List Component}
    (h : ∀ d ∈ c :: cs, d.IsInner) :
    (ofComponents (.root :: c :: cs)).text.toList = '/' :: c.text ++ slashed cs ∧
      IsOpen ('/' :: c.text ++ slashed cs) := by
  have hc := h c List.mem_cons_self
  have hfirst : joinText (joinText [] Component.root.text) c.text = '/' :: c.text := by
    show joinText ['/'] c.text = _
    unfold joinText
    rw [if_neg hc.head_ne]
    rfl
  unfold ofComponents
  rw [String.toList_ofList, List.foldl_cons, List.foldl_cons, hfirst]
  exact foldl_joinText (fun d hd => h d (List.mem_cons_of_mem c hd)) (hc.isOpen ['/'])

theorem pieces_slashed {cs : List Component} (h : ∀ c ∈ cs, c.IsInner) (base : List Char) :
    pieces (base ++ slashed cs) = pieces base ++ cs.map Component.text := by
  induction cs generalizing base with
  | nil => rw [slashed, List.flatMap_nil, List.append_nil, List.map_nil, List.append_nil]
  | cons c cs ih =>
      have hnext := ih (fun d hd => h d (List.mem_cons_of_mem c hd)) (base ++ '/' :: c.text)
      have hbase : pieces (base ++ '/' :: c.text) = pieces base ++ [c.text] := by
        rw [← (h c List.mem_cons_self).pieces_text]
        exact Text.fields_append rfl base c.text
      have hslashed : slashed (c :: cs) = '/' :: c.text ++ slashed cs := rfl
      rw [hslashed, ← List.append_assoc, hnext, hbase, List.append_assoc]
      rfl

/-! ## The components of a tidy path -/

theorem components_ofComponents {cs : List Component} (h : ∀ c ∈ cs, c.IsInner) :
    (ofComponents cs).components = cs := by
  cases cs with
  | nil => rfl
  | cons c cs =>
      have hc := h c List.mem_cons_self
      have hpieces : pieces (c.text ++ slashed cs) = (c :: cs).map Component.text := by
        rw [pieces_slashed (fun d hd => h d (List.mem_cons_of_mem c hd)), hc.pieces_text]
        rfl
      obtain ⟨first, more, htext⟩ := List.exists_cons_of_ne_nil hc.text_ne.1
      have hhead : (c.text ++ slashed cs).head? ≠ some '/' := by
        have hne := hc.head_ne
        rw [htext] at hne ⊢
        exact hne
      unfold components componentsOf
      rw [(text_ofComponents h).1, hpieces, filterMap_texts h]
      dsimp only
      rw [if_neg hhead, if_neg]
      exact fun heq => hc.text_ne.2 (Option.some.inj heq)

theorem components_ofComponents_root {cs : List Component} (h : ∀ c ∈ cs, c.IsInner) :
    (ofComponents (.root :: cs)).components = .root :: cs := by
  cases cs with
  | nil => rfl
  | cons c cs =>
      have hpieces : pieces ('/' :: c.text ++ slashed cs) = [] :: (c :: cs).map Component.text := by
        have hfirst : pieces ('/' :: c.text) = [[], c.text] := by
          rw [← List.nil_append ('/' :: c.text)]
          show Text.fields _ _ = _
          rw [Text.fields_append rfl]
          show pieces [] ++ pieces c.text = _
          rw [(h c List.mem_cons_self).pieces_text]
          rfl
        rw [pieces_slashed (fun d hd => h d (List.mem_cons_of_mem c hd)), hfirst]
        rfl
      have hrooted : Rooted ('/' :: c.text ++ slashed cs) := rfl
      unfold components
      rw [(text_ofComponents_root h).1, components_of_rooted hrooted, hpieces]
      show _ :: List.filterMap _ _ = _
      rw [List.filterMap_cons, show componentOf? [] = none from rfl]
      exact congrArg _ (filterMap_texts h)

theorem filter_innerOf (cs : List Char) :
    (innerOf cs).filter (· != .current) = innerOf cs := by
  refine List.filter_eq_self.mpr fun c hc => ?_
  simpa using (isInner_of_innerOf hc).ne_current

/-- What stands in front of the components between slashes: the root, a `.` or nothing. -/
theorem components_cases (p : Path) :
    p.components = .root :: innerOf p.text.toList ∨
      p.components = .current :: innerOf p.text.toList ∨ p.components = innerOf p.text.toList := by
  unfold components componentsOf
  dsimp only
  split
  · exact .inl rfl
  · split
    · exact .inr (.inl rfl)
    · exact .inr (.inr rfl)

/-- The components but for a `.` in front, which may begin with the root. -/
theorem filter_components (p : Path) :
    p.components.filter (· != .current) = .root :: innerOf p.text.toList ∨
      p.components.filter (· != .current) = innerOf p.text.toList := by
  rcases p.components_cases with hroot | hcurrent | hplain
  · rw [hroot, List.filter_cons_of_pos rfl, filter_innerOf]
    exact .inl rfl
  · rw [hcurrent, List.filter_cons_of_neg (by decide)]
    exact .inr (filter_innerOf _)
  · rw [hplain]
    exact .inr (filter_innerOf _)

/-- A `.` stands nowhere but in front. -/
theorem components_eq_filter (p : Path) :
    p.components = p.components.filter (· != .current) ∨
      p.components = .current :: p.components.filter (· != .current) := by
  rcases p.components_cases with hroot | hcurrent | hplain
  · rw [hroot, List.filter_cons_of_pos rfl, filter_innerOf]
    exact .inl rfl
  · rw [hcurrent, List.filter_cons_of_neg (by decide), filter_innerOf]
    exact .inr rfl
  · rw [hplain, filter_innerOf]
    exact .inl rfl

/-- **A tidy path has the components of the path**, but for a `.` in front. -/
theorem components_tidy (p : Path) : p.tidy.components = p.components.filter (· != .current) := by
  unfold tidy
  rcases filter_components p with hroot | hinner
  · rw [hroot]
    exact components_ofComponents_root fun c hc => isInner_of_innerOf hc
  · rw [hinner]
    exact components_ofComponents fun c hc => isInner_of_innerOf hc

theorem mem_slashed {cs : List Component} {d : Char} (h : d ∈ slashed cs) :
    d = '/' ∨ ∃ c ∈ cs, d ∈ c.text := by
  obtain ⟨c, hc, hd⟩ := List.mem_flatMap.mp h
  exact (List.mem_cons.mp hd).imp id fun hd => ⟨c, hc, hd⟩

/-- A tidy path has no other characters than the path and slashes. -/
theorem mem_tidy {p : Path} {d : Char} (h : d ∈ p.tidy.text.toList) :
    d = '/' ∨ d ∈ p.text.toList := by
  have hinner : ∀ c ∈ innerOf p.text.toList, ∀ d ∈ c.text, d ∈ p.text.toList := fun c hc d hd =>
    (Text.of_mem_field (piece_of_innerOf hc).1 hd).1
  have hall : ∀ c ∈ innerOf p.text.toList, c.IsInner := fun c hc => isInner_of_innerOf hc
  unfold tidy at h
  generalize hcs : innerOf p.text.toList = cs at hinner hall
  rcases filter_components p with hroot | hrelative
  · rw [hroot, hcs] at h
    cases cs with
    | nil => exact .inl (List.mem_singleton.mp h)
    | cons c cs =>
        rw [(text_ofComponents_root hall).1] at h
        rcases List.mem_append.mp h with h | h
        · exact (List.mem_cons.mp h).imp id fun h => hinner c List.mem_cons_self d h
        · exact (mem_slashed h).imp id fun ⟨e, he, hd⟩ => hinner e (List.mem_cons_of_mem c he) d hd
  · rw [hrelative, hcs] at h
    cases cs with
    | nil => exact absurd h (by simp [ofComponents])
    | cons c cs =>
        rw [(text_ofComponents hall).1] at h
        rcases List.mem_append.mp h with h | h
        · exact .inr (hinner c List.mem_cons_self d h)
        · exact (mem_slashed h).imp id fun ⟨e, he, hd⟩ => hinner e (List.mem_cons_of_mem c he) d hd

/-- A tidy path of more than the root ends without a slash. -/
theorem isOpen_tidy {p : Path} (hempty : p.components.filter (· != .current) ≠ [])
    (hroot : p.components.filter (· != .current) ≠ [.root]) : IsOpen p.tidy.text.toList := by
  have hall : ∀ c ∈ innerOf p.text.toList, c.IsInner := fun c hc => isInner_of_innerOf hc
  unfold tidy
  generalize hcs : innerOf p.text.toList = cs at hall
  rcases filter_components p with hrooted | hrelative
  · rw [hrooted, hcs] at hroot ⊢
    cases cs with
    | nil => exact absurd rfl hroot
    | cons c cs =>
        rw [(text_ofComponents_root hall).1]
        exact (text_ofComponents_root hall).2
  · rw [hrelative, hcs] at hempty ⊢
    cases cs with
    | nil => exact absurd rfl hempty
    | cons c cs =>
        rw [(text_ofComponents hall).1]
        exact (text_ofComponents hall).2

end Path

namespace FileTree

variable {tree : FileTree}

/-- A `.` in front leads nowhere else. -/
theorem lead_filter (p : Path) :
    tree.lead (p.components.filter (· != .current)) = tree.lead p.components := by
  rcases p.components_eq_filter with hsame | hcurrent
  · rw [← hsame]
  · generalize p.components.filter (· != .current) = components at hcurrent
    rw [hcurrent, lead, lead, walk_current tree.entryAt?_working]

/-- A file stands at the place of its path. -/
theorem isFile_iff {p : Path} : tree.isFile p = true ↔
    ∃ here content, tree.place p = .ok here ∧ tree.foundAt? here = some (.file content) ∧
      p.text.toList.getLast? ≠ some '/' := by
  unfold isFile find
  cases hplace : tree.place p with
  | error cause =>
      constructor
      · intro h
        exact absurd h (by simp [bind, Except.bind])
      · rintro ⟨here, content, hok, -⟩
        exact absurd hok (by simp)
  | ok here =>
      dsimp only [bind, Except.bind]
      cases hfound : tree.foundAt? here with
      | none => simp [hfound]
      | some found =>
          cases found with
          | directory => simp [hfound]
          | file content =>
              by_cases hlast : p.text.toList.getLast? = some '/' <;> simp [hfound, hlast]

theorem check_ok_iff {p : Path} :
    check p = .ok () ↔ '\x00' ∉ p.text.toList ∧ p.text.toList ≠ [] := by
  unfold check
  split
  · next hnul => simpa using fun h => absurd (List.contains_iff_mem.mp hnul) h
  · next hnul =>
      have hplain : '\x00' ∉ p.text.toList := by simpa using hnul
      split
      · next hempty => simp [String.isEmpty_iff.mp hempty]
      · next hne => simpa [hplain, String.isEmpty_iff] using hne

/-- **A file is also found under its tidy path.** -/
theorem isFile_tidy {p : Path} (h : tree.isFile p = true) : tree.isFile p.tidy = true := by
  obtain ⟨here, content, hplace, hfound, -⟩ := isFile_iff.mp h
  obtain ⟨⟨⟩, hcheck, hlead⟩ := ok_of_bind hplace
  obtain ⟨hnul, -⟩ := check_ok_iff.mp hcheck
  rw [← lead_filter] at hlead
  -- the working directory and the root are no files
  have hdirectory : tree.entryAt? here ≠ some .directory := by
    intro hdir
    rw [foundAt?, hdir] at hfound
    cases hfound
  have hempty : p.components.filter (· != .current) ≠ [] := by
    intro hnil
    rw [hnil] at hlead
    obtain rfl : tree.working = here := Except.ok.inj hlead
    exact hdirectory tree.entryAt?_working
  have hroot : p.components.filter (· != .current) ≠ [.root] := by
    intro hone
    rw [hone] at hlead
    have hstep : tree.lead [.root] = .ok [] := by
      rw [lead, walk_eq, stage_of_plain, enter_ok_iff.mpr tree.entryAt?_working]
      · rfl
      · intro target
        rw [next, entryAt?, List.isPrefixOf_nil_left, if_pos rfl]
        simp
    rw [hstep] at hlead
    obtain rfl := Except.ok.inj hlead
    exact hdirectory (by rw [entryAt?, List.isPrefixOf_nil_left, if_pos rfl])
  obtain ⟨last, hlast, hne⟩ := Path.isOpen_tidy hempty hroot
  refine isFile_iff.mpr ⟨here, content, ?_, hfound, ?_⟩
  · have hcheck' : check p.tidy = .ok () := by
      refine check_ok_iff.mpr ⟨fun hmem => ?_, fun htext => by simp [htext] at hlast⟩
      rcases Path.mem_tidy hmem with hslash | hmem
      · exact absurd hslash (by decide)
      · exact hnul hmem
    rw [place, hcheck', Path.components_tidy]
    exact hlead
  · rw [hlast]
    exact fun heq => hne (Option.some.inj heq)

end FileTree

end ChangeScope
