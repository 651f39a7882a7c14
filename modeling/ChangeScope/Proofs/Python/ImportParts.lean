import ChangeScope.Proofs.Python.ImportModule

/-!
# Parts of import statements

The commas of a statement stand between its items, and its other marks are dots, a star and the
parentheses. So the fields between the commas have the words of the items
(`ImportItems.words_fields`, `ImportNames.words_fields`).
-/

set_option autoImplicit false

namespace ChangeScope.Python

open ChangeScope.Text

/-! ## Marks -/

/-- A mark that is in no name and no gap. -/
structure IsMark (c : Char) : Prop where
  ascii : isAscii c = true
  not_word : isWord c = false
  not_blank : isBlank c = false

section Marks

variable {c : Char} (hc : IsMark c)

include hc

theorem IsMark.not_mem_name {name : List Char} (h : IsName name) : c ∉ name :=
  h.1.not_mem hc.ascii hc.not_word

theorem IsMark.not_mem_gap {inside : Bool} {g : Gap} (h : g.IsAllowed inside) :
    c ∉ Gap.shown g := by
  intro hin
  have hblank := Gap.shown_blank h c hin
  rw [hc.not_blank] at hblank
  exact Bool.noConfusion hblank

theorem IsMark.ne_of_isWord {d : Char} (hd : isWord d = true) : c ≠ d := by
  rintro rfl
  rw [hc.not_word] at hd
  exact Bool.noConfusion hd

theorem IsMark.not_mem_word {w : List Char} (h : ∀ d ∈ w, isWord d = true) : c ∉ w :=
  fun hin => hc.ne_of_isWord (h c hin) rfl

theorem IsMark.not_mem_dotted (hdot : c ≠ '.') {d : DottedText} (h : d.IsLegal) :
    c ∉ d.write Gap.shown := by
  induction d with
  | last name => exact hc.not_mem_name h
  | more name before after rest ih =>
      obtain ⟨hname, hbefore, hafter, hrest⟩ := h
      simp only [DottedText.write, List.mem_append, List.mem_cons, not_or]
      exact ⟨hc.not_mem_name hname, hc.not_mem_gap hbefore, hdot, hc.not_mem_gap hafter, ih hrest⟩

theorem IsMark.not_mem_module (hdot : c ≠ '.') {m : ModuleText} (h : m.IsLegal) :
    c ∉ m.write Gap.shown := by
  induction m with
  | named names => exact hc.not_mem_dotted hdot h
  | here => simpa [ModuleText.write] using hdot
  | dot after rest ih =>
      simp only [ModuleText.write, List.mem_append, List.mem_cons, not_or]
      exact ⟨hdot, hc.not_mem_gap h.1, ih h.2⟩

theorem IsMark.not_mem_alias {inside : Bool} {a : ImportAlias} (h : a.IsLegal inside) :
    c ∉ a.write Gap.shown := by
  simp only [ImportAlias.write, List.mem_append, not_or]
  exact ⟨hc.not_mem_gap h.before, hc.not_mem_word (by decide), hc.not_mem_gap h.after,
    hc.not_mem_name h.name⟩

variable {α : Type} {inside : Bool} {legal : α → Prop} {shown : α → List Char}

theorem IsMark.not_mem_item (hcontent : ∀ a, legal a → c ∉ shown a) {item : ImportItem α}
    (h : item.IsLegal inside legal) : c ∉ item.write Gap.shown shown := by
  simp only [ImportItem.write, List.mem_append, not_or]
  refine ⟨hcontent _ h.1, ?_⟩
  cases halias : item.alias? with
  | none => exact List.not_mem_nil
  | some a => exact hc.not_mem_alias (h.2 a halias)

theorem IsMark.not_mem_items (hcomma : c ≠ ',') (hcontent : ∀ a, legal a → c ∉ shown a)
    {items : ImportItems α} (h : items.IsLegal inside legal) :
    c ∉ items.write Gap.shown shown := by
  simp only [ImportItems.write, List.mem_append, List.mem_flatMap, List.mem_cons, not_or,
    not_exists, not_and]
  refine ⟨hc.not_mem_item hcontent h.1, fun m hm => ?_⟩
  obtain ⟨hbefore, hafter, hitem⟩ := h.2 m hm
  exact ⟨hc.not_mem_gap hbefore, hcomma, hc.not_mem_gap hafter, hc.not_mem_item hcontent hitem⟩

theorem IsMark.not_mem_names (hcomma : c ≠ ',') (hstar : c ≠ '*') {names : ImportNames}
    (h : names.IsLegal) : c ∉ names.write Gap.shown ' ' ' ' := by
  have hsingle : ∀ {d : Char}, c ≠ d → c ∉ [d] := fun hne =>
    List.not_mem_cons_of_ne_of_not_mem hne List.not_mem_nil
  have hitems : ∀ {inside : Bool} {items : ImportItems (List Char)}, items.IsLegal inside IsName →
      c ∉ items.write Gap.shown id :=
    hc.not_mem_items hcomma fun n hn => hc.not_mem_name hn
  cases names with
  | all g => exact List.not_mem_append (hc.not_mem_gap h) (hsingle hstar)
  | listed g items => exact List.not_mem_append (hc.not_mem_gap h.2.1) (hitems h.2.2)
  | enclosed outside inside items comma behind =>
      obtain ⟨houtside, hinside, hlegal, htrailing, hbehind⟩ := h
      have hcommas : c ∉ (comma.map fun g => Gap.shown g ++ [',']).getD [] := by
        cases comma with
        | none => exact List.not_mem_nil
        | some g =>
            exact List.not_mem_append (hc.not_mem_gap (htrailing g rfl)) (hsingle hcomma)
      have hspace : c ≠ ' ' := by
        rintro rfl
        exact absurd hc.not_blank (by decide)
      have hend := List.not_mem_append (hc.not_mem_gap hbehind) (hsingle hspace)
      have hlist := List.not_mem_append (hitems hlegal) (List.not_mem_append hcommas hend)
      exact List.not_mem_append (hc.not_mem_gap houtside)
        (List.not_mem_cons_of_ne_of_not_mem hspace
          (List.not_mem_append (hc.not_mem_gap hinside) hlist))

end Marks

/-- A statement has no semicolon. -/
theorem ImportStatement.semicolon_not_mem {s : ImportStatement} (h : s.IsLegal) :
    ';' ∉ s.shown := by
  have hc : IsMark ';' := ⟨by decide, by decide, by decide⟩
  have himport : ';' ∉ "import".toList := hc.not_mem_word (by decide)
  cases s with
  | modules g items =>
      obtain ⟨-, hg, hitems⟩ := h
      have hlist := hc.not_mem_items (by decide) (fun d hd => hc.not_mem_dotted (by decide) hd)
        hitems
      exact List.not_mem_append himport (List.not_mem_append (hc.not_mem_gap hg) hlist)
  | members start module middle names =>
      obtain ⟨hstart, -, hmodule, hmiddle, -, hnames⟩ := h
      have hend := List.not_mem_append himport (hc.not_mem_names (by decide) (by decide) hnames)
      have htail := List.not_mem_append (hc.not_mem_module (by decide) hmodule)
        (List.not_mem_append (hc.not_mem_gap hmiddle) hend)
      exact List.not_mem_append (hc.not_mem_word (by decide))
        (List.not_mem_append (hc.not_mem_gap hstart) htail)

/-! ## Items -/

theorem ImportAlias.words_append {inside : Bool} {a : ImportAlias} (h : a.IsLegal inside)
    (u : List Char) : words (u ++ a.write Gap.shown) = words u ++ ["as".toList, a.name] := by
  have has : words "as".toList = ["as".toList] := words_plain (by decide) (by decide)
  rw [ImportAlias.write, words_append_blanks (Gap.shown_ne_nil h.before_ne)
    (Gap.shown_blank h.before), words_append_blanks (Gap.shown_ne_nil h.after_ne)
    (Gap.shown_blank h.after), has, h.name.words_eq]
  rfl

section Items

variable {α : Type} {inside : Bool} {legal : α → Prop} {shown : α → List Char}

/-- The words of an item are those of its content, and then its alias behind `as`. -/
theorem ImportItem.words_write {item : ImportItem α} (h : item.IsLegal inside legal) :
    words (item.write Gap.shown shown) = words (shown item.content) ++
      (item.alias?.map fun a => ["as".toList, a.name]).getD [] := by
  unfold ImportItem.write
  cases halias : item.alias? with
  | none =>
      rw [Option.map_none, Option.map_none, Option.getD_none, Option.getD_none, List.append_nil,
        List.append_nil]
  | some a => exact ImportAlias.words_append (h.2 a halias) _

theorem ImportItems.isLegal_of_mem {items : ImportItems α} (h : items.IsLegal inside legal)
    {item : ImportItem α} (hin : item ∈ items.toList) : item.IsLegal inside legal := by
  rcases List.mem_cons.mp hin with rfl | hin
  · exact h.1
  · obtain ⟨m, hm, rfl⟩ := List.mem_map.mp hin
    exact (h.2 m hm).2.2

theorem ImportItems.exists_first
    (hcontent : ∀ a, legal a → ∃ c more, shown a = c :: more ∧ isBlank c = false)
    {items : ImportItems α} (h : items.IsLegal inside legal) :
    ∃ c more, items.write Gap.shown shown = c :: more ∧ isBlank c = false := by
  obtain ⟨c, more, hfirst, hc⟩ := hcontent _ h.1.1
  unfold ImportItems.write ImportItem.write
  rw [hfirst]
  exact ⟨c, _, rfl, hc⟩

theorem comma_isMark : IsMark ',' := ⟨by decide, by decide, by decide⟩

theorem ne_comma_of_blank {c : Char} (hc : isBlank c = true) : (c == ',') = false := by
  rw [beq_eq_false_iff_ne]
  rintro rfl
  exact absurd hc (by decide)

theorem ne_comma_of_not_mem {u : List Char} (hu : ',' ∉ u) : ∀ c ∈ u, (c == ',') = false := by
  intro c hc
  rw [beq_eq_false_iff_ne]
  rintro rfl
  exact hu hc

/-- **The fields between the commas have the words of the items.** -/
theorem ImportItems.words_fields (hcontent : ∀ a, legal a → ',' ∉ shown a) {items : ImportItems α}
    (h : items.IsLegal inside legal) :
    (fields (· == ',') (items.write Gap.shown shown)).map words =
      items.toList.map fun item => words (item.write Gap.shown shown) := by
  -- the text in front of the first comma grows into the next item
  have hmore : ∀ (more : List (Gap × Gap × ImportItem α)) (u : List Char), ',' ∉ u →
      (∀ m ∈ more, m.1.IsAllowed inside ∧ m.2.1.IsAllowed inside ∧ m.2.2.IsLegal inside legal) →
      (fields (· == ',') (u ++ more.flatMap fun m =>
        Gap.shown m.1 ++ ',' :: (Gap.shown m.2.1 ++ m.2.2.write Gap.shown shown))).map words =
      words u :: more.map fun m => words (m.2.2.write Gap.shown shown) := by
    intro more
    induction more with
    | nil =>
        intro u hu _
        rw [List.flatMap_nil, List.append_nil, fields_plain (ne_comma_of_not_mem hu)]
        rfl
    | cons m more ih =>
        intro u hu hlegal
        obtain ⟨hbefore, hafter, hitem⟩ := hlegal m List.mem_cons_self
        have hnext : ',' ∉ Gap.shown m.2.1 ++ m.2.2.write Gap.shown shown :=
          List.not_mem_append (comma_isMark.not_mem_gap hafter)
            (comma_isMark.not_mem_item hcontent hitem)
        have hfirst : ',' ∉ u ++ Gap.shown m.1 :=
          List.not_mem_append hu (comma_isMark.not_mem_gap hbefore)
        rw [List.flatMap_cons, List.append_assoc, ← List.append_assoc, List.cons_append,
          fields_append (p := (· == ',')) rfl, fields_plain (ne_comma_of_not_mem hfirst),
          List.map_append, ih _ hnext fun n hn => hlegal n (List.mem_cons_of_mem m hn),
          List.map_singleton, words_append_blank (Gap.shown_blank hbefore),
          words_blank_append (Gap.shown_blank hafter)]
        rfl
  have hfirst := hmore items.more _ (comma_isMark.not_mem_item hcontent h.1) h.2
  rw [ImportItems.toList, List.map_cons, List.map_map]
  exact hfirst

end Items

/-! ## Members -/

/-- What stands between the commas behind `import`. -/
def ImportNames.parts : ImportNames → List (List Char)
  | .all _ => [['*']]
  | .listed _ items => items.toList.map (ImportItem.write Gap.shown id)
  | .enclosed _ _ items comma _ =>
      items.toList.map (ImportItem.write Gap.shown id) ++ (comma.map fun _ => []).toList

theorem words_fields_members {inside : Bool} {items : ImportItems (List Char)}
    (h : items.IsLegal inside IsName) :
    (fields (· == ',') (items.write Gap.shown id)).map words =
      (items.toList.map (ImportItem.write Gap.shown id)).map words := by
  have hcontent : ∀ n : List Char, IsName n → ',' ∉ id n := fun n hn => comma_isMark.not_mem_name hn
  rw [ImportItems.words_fields hcontent h, List.map_map]
  rfl

/-- A gap in front leaves the words of the fields. -/
theorem words_fields_gap {inside : Bool} {g : Gap} (h : g.IsAllowed inside) (rest : List Char) :
    (fields (· == ',') (Gap.shown g ++ rest)).map words = (fields (· == ',') rest).map words :=
  words_fields_blank_append (fun c hc => ⟨Gap.shown_blank h c hc,
    ne_comma_of_blank (Gap.shown_blank h c hc)⟩) rest

/-- **The fields between the commas have the words of the parts.** -/
theorem ImportNames.words_fields {names : ImportNames} (h : names.IsLegal) :
    (fields (· == ',') (names.write Gap.shown ' ' ' ')).map words = names.parts.map words := by
  cases names with
  | all g => exact words_fields_gap h ['*']
  | listed g items =>
      obtain ⟨-, hg, hitems⟩ := h
      exact (words_fields_gap hg _).trans (words_fields_members hitems)
  | enclosed outside inside items comma behind =>
      obtain ⟨houtside, hinside, hitems, hcomma, hbehind⟩ := h
      have hend : ∀ c ∈ Gap.shown behind ++ [' '], isBlank c = true ∧ (c == ',') = false := by
        intro c hc
        have hblank : isBlank c = true := by
          rcases List.mem_append.mp hc with hc | hc
          · exact Gap.shown_blank hbehind c hc
          · rw [List.mem_singleton.mp hc]
            rfl
        exact ⟨hblank, ne_comma_of_blank hblank⟩
      -- brackets are shown as blanks, so they are no part of the words
      have hopening : (fields (· == ',') ((ImportNames.enclosed outside inside items comma
            behind).write Gap.shown ' ' ' ')).map words =
          (fields (· == ',') (items.write Gap.shown id ++
            ((comma.map fun g => Gap.shown g ++ [',']).getD [] ++
              (Gap.shown behind ++ [' '])))).map words := by
        rw [ImportNames.write, words_fields_gap houtside, words_fields_cons rfl (by decide),
          words_fields_gap hinside]
      rw [hopening, ImportNames.parts, List.map_append, ← words_fields_members hitems]
      cases comma with
      | none =>
          rw [Option.map_none, Option.getD_none, List.nil_append, words_fields_append hend]
          exact (List.append_nil _).symm
      | some g =>
          have hgap : ∀ c ∈ Gap.shown g, isBlank c = true ∧ (c == ',') = false := fun c hc =>
            have hblank := Gap.shown_blank (hcomma g rfl) c hc
            ⟨hblank, ne_comma_of_blank hblank⟩
          rw [Option.map_some, Option.getD_some, List.append_assoc, List.singleton_append,
            ← List.append_assoc, fields_append (p := (· == ',')) rfl, List.map_append,
            words_fields_append hgap, fields_plain fun c hc => (hend c hc).2, List.map_singleton,
            ← List.nil_append (_ ++ [' ']), words_append_blank fun c hc => (hend c hc).1]
          rfl

theorem exists_first_members {inside : Bool} {items : ImportItems (List Char)}
    (h : items.IsLegal inside IsName) :
    ∃ c more, items.write Gap.shown id = c :: more ∧ isBlank c = false :=
  ImportItems.exists_first (fun n hn => DottedText.exists_first (d := .last n) hn Gap.shown) h

theorem ImportNames.exists_not_blank {names : ImportNames} (h : names.IsLegal) :
    ∃ c ∈ names.write Gap.shown ' ' ' ', isBlank c = false := by
  have hitems : ∀ {inside : Bool} {items : ImportItems (List Char)}, items.IsLegal inside IsName →
      ∃ c ∈ items.write Gap.shown id, isBlank c = false := by
    intro inside items hitems
    obtain ⟨c, more, hfirst, hc⟩ := exists_first_members hitems
    exact ⟨c, hfirst ▸ List.mem_cons_self, hc⟩
  cases names with
  | all g => exact ⟨'*', List.mem_append_right _ List.mem_cons_self, rfl⟩
  | listed g items =>
      obtain ⟨c, hmem, hc⟩ := hitems h.2.2
      exact ⟨c, List.mem_append_right _ hmem, hc⟩
  | enclosed outside inside items comma behind =>
      obtain ⟨c, hmem, hc⟩ := hitems h.2.2.1
      have hinside := List.mem_append_right (Gap.shown inside) (List.mem_append_left
        ((comma.map fun g => Gap.shown g ++ [',']).getD [] ++ (Gap.shown behind ++ [' '])) hmem)
      exact ⟨c, List.mem_append_right _ (List.mem_cons_of_mem _ hinside), hc⟩

/-- No part has the word `import`. -/
theorem ImportNames.import_not_mem_part {names : ImportNames} (h : names.IsLegal) :
    ∀ part ∈ names.parts, "import".toList ∉ words part := by
  have hname : ∀ {n : List Char}, IsName n → "import".toList ≠ n := by
    rintro n hn rfl
    exact hn.2 (by decide)
  have hitem : ∀ {inside : Bool} {items : ImportItems (List Char)}, items.IsLegal inside IsName →
      ∀ part ∈ items.toList.map (ImportItem.write Gap.shown id), "import".toList ∉ words part := by
    intro inside items hitems part hpart
    obtain ⟨item, hitem, rfl⟩ := List.mem_map.mp hpart
    have hlegal := ImportItems.isLegal_of_mem hitems hitem
    rw [ImportItem.words_write hlegal, id, hlegal.1.words_eq]
    refine List.not_mem_append (List.not_mem_cons_of_ne_of_not_mem (hname hlegal.1)
      List.not_mem_nil) ?_
    cases halias : item.alias? with
    | none => exact List.not_mem_nil
    | some a =>
        exact List.not_mem_cons_of_ne_of_not_mem (by decide) (List.not_mem_cons_of_ne_of_not_mem
          (hname (hlegal.2 a halias).name) List.not_mem_nil)
  cases names with
  | all g =>
      intro part hpart
      rw [List.mem_singleton.mp hpart]
      decide
  | listed g items => exact hitem h.2.2
  | enclosed outside inside items comma behind =>
      intro part hpart
      rcases List.mem_append.mp hpart with hpart | hpart
      · exact hitem h.2.2.1 part hpart
      · obtain ⟨g, -, rfl⟩ := Option.map_eq_some_iff.mp (Option.mem_toList.mp hpart)
        exact List.not_mem_nil

theorem ImportNames.import_not_mem {names : ImportNames} (h : names.IsLegal) :
    "import".toList ∉ words (names.write Gap.shown ' ' ' ') := by
  intro hin
  obtain ⟨field, hfield, hword⟩ := exists_field_word (p := (· == ',')) hin (by decide)
  have hmem : words field ∈ names.parts.map words := by
    rw [← ImportNames.words_fields h]
    exact List.mem_map_of_mem hfield
  obtain ⟨part, hpart, heq⟩ := List.mem_map.mp hmem
  rw [← heq] at hword
  exact ImportNames.import_not_mem_part h part hpart hword

end ChangeScope.Python
