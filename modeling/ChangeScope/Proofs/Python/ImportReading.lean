import ChangeScope.Proofs.Python.ImportParts

/-!
# Reading import statements

A statement is read after it is put on one line: the words `import` and `from` are found with a
space next to them, and the words between the commas make the bindings. So a statement binds what it
should bind just when its layout is plain (`importBindings_eq_iff`).
-/

set_option autoImplicit false

namespace ChangeScope.Python

open ChangeScope.Import (Binding)
open ChangeScope.Text

/-! ## The line that is read -/

/-- **The line that is read is the statement on one line, trimmed at its end.** -/
theorem plainImport_text {s : ImportStatement} (h : s.IsLegal) :
    plainImport s.text = trimEnd s.shown := by
  obtain ⟨first, rest, hshown, hfirst⟩ :
      ∃ first rest, s.shown = first :: rest ∧ isBlank first = false := by
    cases s <;> exact ⟨_, _, rfl, rfl⟩
  have hmem : first ∈ s.shown := hshown ▸ List.mem_cons_self
  have hhead : (trimEnd s.shown).head? = some first := by
    rw [head?_trimEnd hmem hfirst, hshown]
    rfl
  obtain ⟨g, hg, hsplit, hclosed⟩ := exists_trimEnd s.shown
  obtain ⟨init, last, hconcat⟩ :=
    List.eq_nil_or_concat' (trimEnd s.shown) |>.resolve_left (trimEnd_ne_nil hmem hfirst)
  have hlast : (trimEnd s.shown).getLast? = some last := by
    rw [hconcat]
    exact List.getLast?_concat
  have hblank := hclosed last hlast
  have hmark : (last == ';') = false := by
    rw [beq_eq_false_iff_ne]
    rintro rfl
    refine ImportStatement.semicolon_not_mem h ?_
    rw [hsplit]
    exact List.mem_append_left g (List.mem_of_getLast? hlast)
  -- the text ends with neither white space nor a semicolon, so the later cuts find nothing
  have hpadded : ∀ b, (∀ c ∈ b, isBlank c = true) → trim (trimEnd s.shown ++ b) = trimEnd s.shown :=
    fun b hb => trim_padded (a := []) (fun c hc => absurd hc List.not_mem_nil) hb hhead hlast hfirst
      hblank
  have houter : trim s.shown = trimEnd s.shown := by
    conv_lhs => rw [hsplit]
    exact hpadded g hg
  have hinner : trim (trimEnd s.shown) = trimEnd s.shown := by
    have hnil := hpadded [] fun c hc => absurd hc List.not_mem_nil
    rwa [List.append_nil] at hnil
  rw [plainImport_eq, ImportStatement.oneLine_text h, houter, dropTrailing_self hlast hmark, hinner]

/-! ## Words next to a space -/

/-- A word and a space are not found at the beginning where no space follows the word. -/
theorem isPrefixOf?_word_eq_none (w : List Char) {rest : List Char}
    (hrest : rest.head? ≠ some ' ') : (w ++ [' ']).isPrefixOf? (w ++ rest) = none := by
  refine isPrefixOf?_eq_none_iff.mpr ?_
  rintro ⟨more, hmore⟩
  rw [List.append_assoc] at hmore
  rw [← List.append_cancel_left hmore] at hrest
  exact hrest rfl

theorem Gap.head?_shown_append {b : List Char} (hb : b.head? ≠ some ' ') (g : Gap) :
    (Gap.shown g ++ b).head? = some ' ' ↔ g.head?.any Space.isSpace = true := by
  rw [← Gap.head?_shown]
  by_cases hg : g = []
  · subst hg
    exact iff_of_false hb (by decide)
  · rw [List.head?_append_of_ne_nil _ (Gap.shown_ne_nil hg)]

theorem Gap.getLast?_append_shown {a : List Char} (ha : a.getLast? ≠ some ' ') (g : Gap) :
    (a ++ Gap.shown g).getLast? = some ' ' ↔ g.getLast?.any Space.isSpace = true := by
  rw [← Gap.getLast?_shown]
  by_cases hg : g = []
  · subst hg
    rw [show Gap.shown [] = [] from rfl, List.append_nil]
    exact iff_of_false ha (by decide)
  · rw [List.getLast?_append_of_ne_nil _ (Gap.shown_ne_nil hg)]

theorem Gap.exists_space {g : Gap} (h : g.head?.any Space.isSpace = true) :
    ∃ more, Gap.shown g = ' ' :: more :=
  List.head?_eq_some_iff.mp ((Gap.head?_shown g).mpr h)

theorem Gap.exists_last_space {g : Gap} (h : g.getLast?.any Space.isSpace = true) :
    ∃ init, Gap.shown g = init ++ [' '] :=
  List.getLast?_eq_some_iff.mp ((Gap.getLast?_shown g).mpr h)

theorem ne_space_of_not_blank {c : Char} (hc : isBlank c = false) : some c ≠ some ' ' := by
  intro heq
  rw [Option.some.inj heq] at hc
  exact absurd hc (by decide)

/-! ## Parts -/

theorem moduleBinding?_congr (line : Nat) {a b : List Char} (h : words a = words b) :
    moduleBinding? line a = moduleBinding? line b := by
  unfold moduleBinding?
  rw [h]

theorem memberBinding?_congr (module : String) (line : Nat) {a b : List Char}
    (h : words a = words b) : memberBinding? module line a = memberBinding? module line b := by
  unfold memberBinding?
  rw [h]

/-- What depends on the words alone is found in texts with the same words alike. -/
theorem filterMap_words {f : List Char → Option Binding}
    (hf : ∀ {a b}, words a = words b → f a = f b) {xs ys : List (List Char)}
    (h : xs.map words = ys.map words) : xs.filterMap f = ys.filterMap f := by
  induction xs generalizing ys with
  | nil =>
      cases ys with
      | nil => rfl
      | cons y ys => exact absurd h.symm (List.cons_ne_nil _ _)
  | cons x xs ih =>
      cases ys with
      | nil => exact absurd h (List.cons_ne_nil _ _)
      | cons y ys =>
          obtain ⟨hfirst, hrest⟩ := List.cons.inj h
          rw [List.filterMap_cons, List.filterMap_cons, hf hfirst, ih hrest]

/-- Each item binds what is read of it. -/
theorem filterMap_eq_map {α : Type} {f : α → Option Binding} {g : α → Binding} {xs : List α}
    (h : ∀ x ∈ xs, f x = some (g x)) : xs.filterMap f = xs.map g := by
  rw [List.filterMap_congr h, List.filterMap_eq_map']

theorem moduleBinding?_alias {part module name : List Char}
    (h : words part = [module, "as".toList, name]) (line : Nat) :
    moduleBinding? line part = some ⟨String.ofList name, String.ofList module, none, line⟩ := by
  unfold moduleBinding?
  rw [h]
  rfl

theorem moduleBinding?_top {part first : List Char} {rest : List (List Char)}
    (h : words part = first :: rest) (hrest : rest.head? ≠ some "as".toList) (line : Nat) :
    moduleBinding? line part = some ⟨String.ofList (first.takeWhile (· != '.')),
      String.ofList (first.takeWhile (· != '.')), none, line⟩ := by
  unfold moduleBinding?
  rw [h]
  dsimp only
  split
  · exact absurd rfl hrest
  · rfl

/-- The binding that is read of a module: with a gap in it, that of its top package. -/
theorem moduleBinding?_item {item : ImportItem DottedText}
    (h : item.IsLegal false DottedText.IsLegal) (line : Nat) :
    ∃ b, moduleBinding? line (item.write Gap.shown (DottedText.write Gap.shown)) = some b ∧
      (b = item.moduleBinding line ↔ (item.alias? ≠ none → item.content.IsTight)) := by
  obtain ⟨hd, halias⟩ := id h
  have hwords : words (item.write Gap.shown (DottedText.write Gap.shown)) = _ :=
    ImportItem.words_write h
  obtain ⟨first, others, hsplit, htop⟩ := DottedText.words_top hd
  have hothers : others.head? ≠ some "as".toList := by
    intro hhead
    refine reserved_not_word (DottedText.word hd (u := []) (fun c hc => absurd hc List.not_mem_nil)
      (.inl rfl)) (w := "as".toList) (by decide) ?_
    rw [List.nil_append, hsplit]
    exact List.mem_cons_of_mem first (List.mem_of_head? hhead)
  unfold ImportItem.moduleBinding
  cases hitem : item.alias? with
  | none =>
      rw [hitem, Option.map_none, Option.getD_none, List.append_nil, hsplit] at hwords
      refine ⟨_, moduleBinding?_top hwords hothers line, ?_⟩
      rw [htop]
      exact iff_of_true rfl fun hne => absurd rfl hne
  | some a =>
      rw [hitem, Option.map_some, Option.getD_some] at hwords
      by_cases htight : item.content.IsTight
      · rw [DottedText.words_tight hd htight, List.singleton_append] at hwords
        refine ⟨_, moduleBinding?_alias hwords line, ?_⟩
        rw [String.ofList_toList]
        exact iff_of_true rfl fun _ => htight
      · -- the second word belongs to the module, so the alias is not seen
        have hne : others ≠ [] := by
          rintro rfl
          exact htight (DottedText.isTight_of_words hd hsplit)
        rw [hsplit, List.cons_append] at hwords
        have hrest : (others ++ ["as".toList, a.name]).head? ≠ some "as".toList := by
          rwa [List.head?_append_of_ne_nil _ hne]
        refine ⟨_, moduleBinding?_top hwords hrest line, ?_⟩
        rw [htop]
        refine iff_of_false (fun heq => ?_) fun h => htight (h (Option.some_ne_none a))
        have hmodule := (Binding.mk.injEq .. ▸ heq).2.1
        have hdot := DottedText.dot_mem_text htight
        rw [← hmodule, String.toList_ofList] at hdot
        exact DottedText.dot_not_mem_top hd hdot

/-- A member is read as it should bind. -/
theorem memberBinding?_item {inside : Bool} {item : ImportItem (List Char)}
    (h : item.IsLegal inside IsName) (module : String) (line : Nat) :
    memberBinding? module line (item.write Gap.shown id) =
      some (item.memberBinding module line) := by
  have hwords : words (item.write Gap.shown id) = _ := ImportItem.words_write h
  have hstar : item.content ≠ ['*'] := by
    intro heq
    exact h.1.1.not_mem (c := '*') rfl rfl (heq ▸ List.mem_cons_self)
  rw [id, h.1.words_eq] at hwords
  unfold memberBinding? ImportItem.memberBinding
  rw [hwords]
  cases item.alias? with
  | none => exact if_neg hstar
  | some a => exact if_neg hstar

/-- A star and the end behind a comma bind nothing, and each member binds its name. -/
theorem ImportNames.filterMap_parts {names : ImportNames} (h : names.IsLegal) (module : String)
    (line : Nat) : names.parts.filterMap (memberBinding? module line) =
      names.items.map (ImportItem.memberBinding module line) := by
  have hitems : ∀ {inside : Bool} {items : ImportItems (List Char)}, items.IsLegal inside IsName →
      (items.toList.map (ImportItem.write Gap.shown id)).filterMap (memberBinding? module line) =
        items.toList.map (ImportItem.memberBinding module line) := by
    intro inside items hitems
    rw [List.filterMap_map]
    exact filterMap_eq_map fun item hitem =>
      memberBinding?_item (ImportItems.isLegal_of_mem hitems hitem) module line
  cases names with
  | all g => rfl
  | listed g items => exact hitems h.2.2
  | enclosed outside inside items comma behind =>
      rw [ImportNames.parts, List.filterMap_append, hitems h.2.2.1]
      cases comma with
      | none => exact List.append_nil _
      | some g => exact List.append_nil _

/-! ## Statements -/

section Statements

variable {text rest : List Char} (line : Nat)

theorem importBindings_modules (h : "import ".toList.isPrefixOf? (plainImport text) = some rest) :
    importBindings text line = (fields (· == ',') rest).filterMap (moduleBinding? line) := by
  unfold importBindings
  dsimp only
  rw [h]

theorem importBindings_members (himport : "import ".toList.isPrefixOf? (plainImport text) = none)
    (hfrom : "from ".toList.isPrefixOf? (plainImport text) = some rest) {module names : List Char}
    (hsplit : splitOnce " import ".toList rest = some (module, names)) :
    importBindings text line =
      (fields (· == ',') names).filterMap (memberBinding? (String.ofList (trim module)) line) := by
  unfold importBindings
  dsimp only
  rw [himport, hfrom]
  dsimp only
  rw [hsplit]

theorem importBindings_unsplit (himport : "import ".toList.isPrefixOf? (plainImport text) = none)
    (hfrom : "from ".toList.isPrefixOf? (plainImport text) = some rest)
    (hsplit : splitOnce " import ".toList rest = none) : importBindings text line = [] := by
  unfold importBindings
  dsimp only
  rw [himport, hfrom]
  dsimp only
  rw [hsplit]

theorem importBindings_other (himport : "import ".toList.isPrefixOf? (plainImport text) = none)
    (hfrom : "from ".toList.isPrefixOf? (plainImport text) = none) :
    importBindings text line = [] := by
  unfold importBindings
  dsimp only
  rw [himport, hfrom]

end Statements

/-! ### Modules -/

/-- Behind `import` and a space each item binds what is read of it, and without a space nothing is
bound. -/
theorem importBindings_modules_text {g : Gap} {items : ImportItems DottedText}
    (h : (ImportStatement.modules g items).IsLegal) (line : Nat) :
    importBindings (ImportStatement.modules g items).text line =
      if g.head?.any Space.isSpace = true then
        items.toList.filterMap fun item =>
          moduleBinding? line (item.write Gap.shown (DottedText.write Gap.shown))
      else [] := by
  obtain ⟨-, hg, hitems⟩ := id h
  obtain ⟨c, more, hfirst, hc⟩ :=
    ImportItems.exists_first (fun d hd => DottedText.exists_first hd Gap.shown) hitems
  have hmem : c ∈ items.write Gap.shown (DottedText.write Gap.shown) := hfirst ▸ List.mem_cons_self
  have hplain : plainImport (ImportStatement.modules g items).text = "import".toList ++
      (Gap.shown g ++ trimEnd (items.write Gap.shown (DottedText.write Gap.shown))) := by
    rw [plainImport_text h, ← trimEnd_append hmem hc,
      ← trimEnd_append (List.mem_append_right (Gap.shown g) hmem) hc]
    rfl
  split
  · next hspace =>
      obtain ⟨rest, hrest⟩ := Gap.exists_space hspace
      have himport : "import ".toList.isPrefixOf?
          (plainImport (ImportStatement.modules g items).text) = some (rest ++ trimEnd
            (items.write Gap.shown (DottedText.write Gap.shown))) := by
        refine isPrefixOf?_eq_some_iff.mpr ?_
        rw [hplain, hrest]
        rfl
      -- between the commas stand the words of the items
      have hparts : (fields (· == ',') (rest ++ trimEnd
            (items.write Gap.shown (DottedText.write Gap.shown)))).map words =
          (items.toList.map
            (ImportItem.write Gap.shown (DottedText.write Gap.shown))).map words := by
        rw [← words_fields_cons (c := ' ') rfl rfl, ← List.cons_append, ← hrest,
          words_fields_gap hg, words_fields_trimEnd fun c hc => ne_comma_of_blank hc,
          ImportItems.words_fields (fun d hd => comma_isMark.not_mem_dotted (by decide) hd) hitems,
          List.map_map]
        rfl
      rw [importBindings_modules line himport, filterMap_words (moduleBinding?_congr line) hparts,
        List.filterMap_map]
      rfl
  · next hspace =>
      have hhead : (trimEnd (items.write Gap.shown (DottedText.write Gap.shown))).head? ≠
          some ' ' := by
        rw [head?_trimEnd hmem hc, hfirst]
        exact ne_space_of_not_blank hc
      refine importBindings_other line ?_ ?_
      · rw [hplain]
        exact isPrefixOf?_word_eq_none "import".toList
          (mt (Gap.head?_shown_append hhead g).mp hspace)
      · rw [hplain]
        rfl

/-! ### Members -/

/-- What follows `import` begins with a space or a parenthesis just when that is how it is laid
out. -/
theorem ImportNames.head?_write {names : ImportNames} (h : names.IsLegal) :
    (names.write Gap.shown ' ' ' ').head? = some ' ' ↔ names.OpensPlain := by
  cases names with
  | all g => exact Gap.head?_shown_append (by decide) g
  | listed g items =>
      obtain ⟨c, more, hfirst, hc⟩ := exists_first_members h.2.2
      refine Gap.head?_shown_append ?_ g
      rw [hfirst]
      exact ne_space_of_not_blank hc
  | enclosed outside inside items comma behind =>
      by_cases hne : outside = []
      · rw [hne]
        exact iff_of_true rfl (.inl rfl)
      · rw [ImportNames.write, List.head?_append_of_ne_nil _ (Gap.shown_ne_nil hne),
          Gap.head?_shown]
        exact (or_iff_right hne).symm

section Members

variable {start middle : Gap} {module : ModuleText} {names : ImportNames}
  (h : (ImportStatement.members start module middle names).IsLegal) (line : Nat)

include h

theorem plainImport_members :
    plainImport (ImportStatement.members start module middle names).text = "from".toList ++
      (Gap.shown start ++ (module.write Gap.shown ++ (Gap.shown middle ++ ("import".toList ++
        trimEnd (names.write Gap.shown ' ' ' '))))) := by
  obtain ⟨c, hmem, hc⟩ := ImportNames.exists_not_blank h.2.2.2.2.2
  have hword := List.mem_append_right "import".toList hmem
  have hmiddle := List.mem_append_right (Gap.shown middle) hword
  have hmodule := List.mem_append_right (module.write Gap.shown) hmiddle
  rw [plainImport_text h, ← trimEnd_append hmem hc, ← trimEnd_append hword hc,
    ← trimEnd_append hmiddle hc, ← trimEnd_append hmodule hc,
    ← trimEnd_append (List.mem_append_right (Gap.shown start) hmodule) hc]
  rfl

theorem import_isPrefixOf?_members : "import ".toList.isPrefixOf?
    (plainImport (ImportStatement.members start module middle names).text) = none := by
  rw [plainImport_members h]
  rfl

theorem from_isPrefixOf?_members {before : List Char} (hbefore : Gap.shown start = ' ' :: before) :
    "from ".toList.isPrefixOf?
      (plainImport (ImportStatement.members start module middle names).text) =
      some (before ++ (module.write Gap.shown ++ (Gap.shown middle ++ ("import".toList ++
        trimEnd (names.write Gap.shown ' ' ' '))))) := by
  refine isPrefixOf?_eq_some_iff.mpr ?_
  rw [plainImport_members h, hbefore]
  rfl

/-- The word `import` is not in the module. -/
theorem import_not_mem_members {before behind : List Char}
    (hbefore : ∀ c ∈ before, isBlank c = true) (hbehind : ∀ c ∈ behind, isBlank c = true) :
    "import".toList ∉ words (before ++ (module.write Gap.shown ++ behind)) := by
  rw [words_blank_append hbefore, words_append_blank hbehind, ← List.nil_append (module.write _)]
  exact reserved_not_word (ModuleText.word h.2.2.1 (fun c hc => absurd hc List.not_mem_nil)
    (.inl rfl)) (by decide)

/-- With spaces around `from` and `import` each member binds its name, and the module is read with
its gaps. -/
theorem importBindings_members_open (hstart : start.head?.any Space.isSpace = true)
    (hmiddle : middle.getLast?.any Space.isSpace = true) (hnames : names.OpensPlain) :
    importBindings (ImportStatement.members start module middle names).text line =
      names.items.map
        (ImportItem.memberBinding (String.ofList (module.write Gap.shown)) line) := by
  obtain ⟨hstartAllowed, -, hmodule, hmiddleAllowed, -, hlegal⟩ := id h
  obtain ⟨before, hbefore⟩ := Gap.exists_space hstart
  obtain ⟨init, hinit⟩ := Gap.exists_last_space hmiddle
  obtain ⟨c, hmem, hc⟩ := ImportNames.exists_not_blank hlegal
  have hhead := (head?_trimEnd hmem hc).trans ((ImportNames.head?_write hlegal).mpr hnames)
  obtain ⟨behind, hbehind⟩ := List.head?_eq_some_iff.mp hhead
  have hbeforeBlank : ∀ c ∈ before, isBlank c = true := fun c hc =>
    Gap.shown_blank hstartAllowed c (hbefore ▸ List.mem_cons_of_mem _ hc)
  have hinitBlank : ∀ c ∈ init, isBlank c = true := fun c hc =>
    Gap.shown_blank hmiddleAllowed c (hinit ▸ List.mem_append_left _ hc)
  -- the last space of the gap and the first one behind the word are cut off with it
  have hsplit : splitOnce " import ".toList (before ++ (module.write Gap.shown ++
      (Gap.shown middle ++ ("import".toList ++ trimEnd (names.write Gap.shown ' ' ' '))))) =
      some (before ++ (module.write Gap.shown ++ init), behind) := by
    have hfound := splitOnce_word (w := "import".toList) (by decide) (by decide)
      (import_not_mem_members h hbeforeBlank hinitBlank) behind
    rw [List.append_assoc, List.append_assoc] at hfound
    rw [hinit, hbehind, List.append_assoc]
    exact hfound
  have htrim : trim (before ++ (module.write Gap.shown ++ init)) = module.write Gap.shown := by
    obtain ⟨first, more, hfirst, hopen⟩ := ModuleText.exists_first hmodule Gap.shown
    obtain ⟨last, hlast, hclosed⟩ := ModuleText.exists_last hmodule Gap.shown
    refine trim_padded hbeforeBlank hinitBlank ?_ hlast hopen hclosed
    rw [hfirst]
    rfl
  have hparts : (fields (· == ',') behind).map words = names.parts.map words := by
    rw [← words_fields_cons (c := ' ') rfl rfl, ← hbehind,
      words_fields_trimEnd fun c hc => ne_comma_of_blank hc, ImportNames.words_fields hlegal]
  rw [importBindings_members line (import_isPrefixOf?_members h)
    (from_isPrefixOf?_members h hbefore) hsplit, htrim,
    filterMap_words (memberBinding?_congr _ line) hparts, ImportNames.filterMap_parts hlegal]

/-- Without one of these spaces nothing is bound. -/
theorem importBindings_members_shut (hshut : ¬ (start.head?.any Space.isSpace = true ∧
    middle.getLast?.any Space.isSpace = true ∧ names.OpensPlain)) :
    importBindings (ImportStatement.members start module middle names).text line = [] := by
  obtain ⟨hstartAllowed, -, hmodule, hmiddleAllowed, -, hlegal⟩ := id h
  by_cases hstart : start.head?.any Space.isSpace = true
  · obtain ⟨before, hbefore⟩ := Gap.exists_space hstart
    have hbeforeBlank : ∀ c ∈ before, isBlank c = true := fun c hc =>
      Gap.shown_blank hstartAllowed c (hbefore ▸ List.mem_cons_of_mem _ hc)
    -- a space is missing on one side, and the word stands nowhere else
    have hbeside : (before ++ (module.write Gap.shown ++ Gap.shown middle)).getLast? = some ' ' →
        (trimEnd (names.write Gap.shown ' ' ' ')).head? ≠ some ' ' := by
      intro hlast hhead
      obtain ⟨c, hmem, hc⟩ := ImportNames.exists_not_blank hlegal
      rw [head?_trimEnd hmem hc] at hhead
      obtain ⟨last, hmoduleLast, hclosed⟩ := ModuleText.exists_last hmodule Gap.shown
      have hmoduleSpace : (before ++ module.write Gap.shown).getLast? ≠ some ' ' := by
        rw [List.getLast?_append_of_ne_nil _ (ModuleText.write_ne_nil hmodule _), hmoduleLast]
        exact ne_space_of_not_blank hclosed
      rw [← List.append_assoc] at hlast
      exact hshut ⟨hstart, (Gap.getLast?_append_shown hmoduleSpace middle).mp hlast,
        (ImportNames.head?_write hlegal).mp hhead⟩
    have hnames : "import".toList ∉ words (trimEnd (names.write Gap.shown ' ' ' ')) := by
      rw [words_trimEnd]
      exact ImportNames.import_not_mem hlegal
    have hsplit := splitOnce_word_eq_none (w := "import".toList) (by decide) (by decide)
      (import_not_mem_members h hbeforeBlank (Gap.shown_blank hmiddleAllowed)) hnames hbeside
    rw [List.append_assoc, List.append_assoc] at hsplit
    exact importBindings_unsplit line (import_isPrefixOf?_members h)
      (from_isPrefixOf?_members h hbefore) hsplit
  · refine importBindings_other line (import_isPrefixOf?_members h) ?_
    rw [plainImport_members h]
    refine isPrefixOf?_word_eq_none "from".toList (mt (Gap.head?_shown_append ?_ start).mp hstart)
    obtain ⟨first, more, hfirst, hopen⟩ := ModuleText.exists_first hmodule Gap.shown
    rw [hfirst]
    exact ne_space_of_not_blank hopen

end Members

/-! ## Plain layouts -/

/-- Each item is read as some binding, and the bindings are the right ones just when each is. -/
theorem filterMap_eq_map_iff {α : Type} {f : α → Option Binding} {g : α → Binding} {Q : α → Prop}
    {xs : List α} (h : ∀ x ∈ xs, ∃ b, f x = some b ∧ (b = g x ↔ Q x)) :
    xs.filterMap f = xs.map g ↔ ∀ x ∈ xs, Q x := by
  induction xs with
  | nil => exact iff_of_true rfl fun x hx => absurd hx List.not_mem_nil
  | cons x xs ih =>
      obtain ⟨b, hb, hright⟩ := h x List.mem_cons_self
      rw [List.filterMap_cons_some hb, List.map_cons, List.cons.injEq, hright,
        ih fun y hy => h y (List.mem_cons_of_mem x hy), List.forall_mem_cons]

theorem map_memberBinding_eq_iff {items : List (ImportItem (List Char))} {m m' : String}
    (line : Nat) : items.map (ImportItem.memberBinding m line) =
      items.map (ImportItem.memberBinding m' line) ↔ items = [] ∨ m = m' := by
  cases items with
  | nil => exact iff_of_true rfl (.inl rfl)
  | cons item items =>
      constructor
      · intro heq
        exact .inr (congrArg Binding.module (List.cons.inj heq).1)
      · rintro (hnil | rfl)
        · exact absurd hnil (List.cons_ne_nil _ _)
        · rfl

/-- **A statement binds what it should just when it is laid out plainly.** -/
theorem importBindings_eq_iff {s : ImportStatement} (h : s.IsLegal) (line : Nat) :
    importBindings s.text line = s.bindings line ↔ s.IsPlain := by
  cases s with
  | modules g items =>
      rw [importBindings_modules_text h]
      split
      · next hspace =>
          refine (filterMap_eq_map_iff fun item hitem =>
            moduleBinding?_item (ImportItems.isLegal_of_mem h.2.2 hitem) line).trans ?_
          exact (and_iff_right hspace).symm
      · next hspace =>
          exact iff_of_false (List.cons_ne_nil _ _).symm fun hplain => hspace hplain.1
  | members start module middle names =>
      -- without the spaces that are looked for nothing is bound at all
      by_cases hopen : start.head?.any Space.isSpace = true ∧
          middle.getLast?.any Space.isSpace = true ∧ names.OpensPlain
      · obtain ⟨hstart, hmiddle, hnames⟩ := hopen
        rw [importBindings_members_open h line hstart hmiddle hnames]
        refine (map_memberBinding_eq_iff line).trans (or_congr_right ?_)
        rw [ModuleText.ofList_write_eq_iff h.2.2.1]
        exact ⟨fun htight => ⟨hstart, htight, hmiddle, hnames⟩, fun hplain => hplain.2.1⟩
      · rw [importBindings_members_shut h line hopen]
        refine eq_comm.trans (List.map_eq_nil_iff.trans (or_iff_left ?_).symm)
        rintro ⟨hstart, -, hmiddle, hnames⟩
        exact hopen ⟨hstart, hmiddle, hnames⟩

/-- `from ..pkg.mod import (`, an alias and a comment over several lines, and a comma at the end. -/
def enclosedImport : ImportStatement :=
  .members [.blank ' '] (.dot [] (.dot [] (.named (.more "pkg".toList [] [] (.last "mod".toList)))))
    [.blank ' '] (.enclosed [.blank ' '] [.broken .feed, .blank '\t']
      ⟨⟨['a'], some ⟨[.blank ' '], [.joined .returnFeed], ['b']⟩⟩,
        [([], [.blank ' ', .comment " (first)".toList .feed], ⟨['c'], none⟩)]⟩
      (some []) [.broken .feed])

theorem importBindings_enclosedImport :
    enclosedImport.text =
      "from ..pkg.mod import (\n\ta as\\\r\nb, # (first)\nc,\n)".toList ∧
    enclosedImport.IsLegal ∧ enclosedImport.IsPlain ∧
    importBindings enclosedImport.text 3 =
      [⟨"b", "..pkg.mod", some "a", 3⟩, ⟨"c", "..pkg.mod", some "c", 3⟩] := by
  have hlegal : enclosedImport.IsLegal := by decide
  have hplain : enclosedImport.IsPlain :=
    .inr ⟨rfl, ⟨rfl, rfl, rfl, rfl, trivial⟩, rfl, .inr rfl⟩
  exact ⟨rfl, hlegal, hplain, (importBindings_eq_iff hlegal 3).mpr hplain⟩

/-- `from m`, a tab and `import x`. -/
def tabbedImport : ImportStatement :=
  .members [.blank ' '] (.named (.last ['m'])) [.blank '\t'] (.listed [.blank ' '] ⟨⟨['x'], none⟩, []⟩)

/-- A legal statement that binds a name, and none is read. -/
theorem importBindings_tabbedImport :
    tabbedImport.text = "from m\timport x".toList ∧ tabbedImport.IsLegal ∧
      tabbedImport.bindings 1 = [⟨"x", "m", some "x", 1⟩] ∧
      importBindings tabbedImport.text 1 = [] :=
  ⟨rfl, by decide, rfl, rfl⟩

end ChangeScope.Python
