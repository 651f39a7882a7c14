import ChangeScope.Proofs.Toml.Value

/-!
# Written documents are read back

A document of tables with bare keys is read as the statements that its lines are
(`readStatements_writeDocument`), and from these the same tables are built
(`ofStatements_sections`). So the document is read back (`ofText_writeDocument`).
-/

set_option autoImplicit false

namespace ChangeScope.Toml

variable {c : Char} {cs rest : List Char} {key : String}

/-! ## Documents that can be written -/

/-- A key that needs no quotes. -/
structure IsBareKey (key : String) : Prop where
  ne : key.toList ≠ []
  bare : ∀ c ∈ key.toList, isBare c = true

/-- A table with different bare keys and values that can be written. -/
structure IsWritableTable (pairs : List (String × Toml)) : Prop where
  keys : (pairs.map (·.1)).Nodup
  bare : ∀ pair ∈ pairs, IsBareKey pair.1
  values : ∀ pair ∈ pairs, IsWritable (nestingLimit - 1) pair.2

/-- Tables with different bare names that can be written. -/
structure IsWritableDocument (sections : List Section) : Prop where
  names : (sections.map (·.1)).Nodup
  bare : ∀ s ∈ sections, IsBareKey s.1
  tables : ∀ s ∈ sections, IsWritableTable s.2

/-! ## Keys -/

theorem isBare_ne (h : isBare c = true) :
    isSpace c = false ∧ c ≠ '"' ∧ c ≠ '\'' ∧ c ≠ '[' ∧ IsToken c := by
  have hpart : isScalarPart c = true := by
    simp only [isBare, Bool.or_eq_true, beq_iff_eq] at h
    simp only [isScalarPart, Bool.or_eq_true, beq_iff_eq]
    tauto
  have htoken := isToken_of_scalarPart hpart
  refine ⟨htoken.space, ?_, ?_, ?_, htoken⟩
  all_goals
    rintro rfl
    exact absurd h (by decide)

theorem IsBareKey.exists_cons (h : IsBareKey key) :
    ∃ c cs, key.toList = c :: cs ∧ isBare c = true := by
  obtain ⟨c, cs, heq⟩ := List.exists_cons_of_ne_nil h.ne
  exact ⟨c, cs, heq, h.bare c (by rw [heq]; exact List.mem_cons_self)⟩

theorem IsBareKey.writeKey (h : IsBareKey key) : writeKey key.toList = key.toList := by
  have hbare : (!key.toList.isEmpty && key.toList.all isBare) = true := by
    rw [Bool.and_eq_true, Bool.not_eq_true', List.isEmpty_eq_false_iff, List.all_eq_true]
    exact ⟨h.ne, h.bare⟩
  rw [Toml.writeKey, if_pos hbare]

/-- **A bare key is read up to what follows it.** -/
theorem readKey_bare (h : IsBareKey key) (rest : List Char)
    (hbare : ∀ c ∈ rest.head?, isBare c = false)
    (hdot : (rest.dropWhile isSpace).head? ≠ some '.') :
    readKey (key.toList ++ rest) = some (([], key), rest.dropWhile isSpace) := by
  obtain ⟨c, cs, heq, hc⟩ := h.exists_cons
  obtain ⟨hspace, hquote, hapostrophe, -, -⟩ := isBare_ne hc
  obtain ⟨htake, hdrop⟩ := Text.takeWhile_stretch h.bare hbare
  have hpart : readKeyPart (key.toList ++ rest) = some (key, rest) := by
    unfold readKeyPart
    rw [heq, List.cons_append] at htake hdrop ⊢
    split
    · next hcons => exact absurd (List.cons.inj hcons).1 hquote
    · next hcons => exact absurd (List.cons.inj hcons).1 hapostrophe
    · simp only [htake, hdrop, List.isEmpty_cons]
      rw [if_neg Bool.false_ne_true, ← heq, String.ofList_toList]
  have hfront : (key.toList ++ rest).dropWhile isSpace = key.toList ++ rest := by
    rw [heq, List.cons_append]
    exact List.dropWhile_cons_of_neg (by simp [hspace])
  have hparts : readParts (nestingLimit - 1) (key.toList ++ rest) =
      some ([key], rest.dropWhile isSpace) := by
    show readParts (78 + 1) _ = _
    rw [readParts, hfront, hpart, Option.bind_some]
    simp only
    split
    · next hcons => exact absurd (by rw [hcons]; rfl) hdot
    · rfl
  rw [readKey, hparts]
  rfl

/-! ## Statements -/

theorem readStatement_header (h : IsBareKey key) (rest : List Char) :
    readStatement ('[' :: (key.toList ++ ']' :: rest)) = some (.header [] key, rest) := by
  have hkey := readKey_bare h (']' :: rest) (by rintro c ⟨⟩; decide) (by simp [isSpace])
  obtain ⟨c, cs, heq, hc⟩ := h.exists_cons
  rw [heq, List.cons_append] at hkey ⊢
  unfold readStatement
  split
  · next hcons => exact absurd (List.cons.inj (List.cons.inj hcons).2).1 (isBare_ne hc).2.2.2.1
  · next hcons =>
    rw [← (List.cons.inj hcons).2, hkey]
    rfl
  · next hother => exact absurd rfl (hother _)

theorem readStatement_pair {v : Toml} (h : IsBareKey key)
    (hv : IsWritable (nestingLimit - 1) v) (rest : List Char) :
    readStatement (writePair (key, v) ++ rest) = some (.pair [] key v, '\n' :: rest) := by
  have hwritten : writePair (key, v) ++ rest =
      key.toList ++ (" = ".toList ++ (writeValue v ++ '\n' :: rest)) := by
    rw [writePair, h.writeKey]
    simp only [List.append_assoc, List.singleton_append]
  have hkey := readKey_bare h (" = ".toList ++ (writeValue v ++ '\n' :: rest))
    (by rintro c ⟨⟩; decide) (by simp [isSpace])
  have hequals : (" = ".toList ++ (writeValue v ++ '\n' :: rest)).dropWhile isSpace =
      '=' :: ' ' :: (writeValue v ++ '\n' :: rest) := rfl
  obtain ⟨d, ds, hhead, htoken, -⟩ := writeValue_head hv
  have hblank : (' ' :: (writeValue v ++ '\n' :: rest)).dropWhile isSpace =
      writeValue v ++ '\n' :: rest := by
    rw [List.dropWhile_cons_of_pos rfl, hhead, List.cons_append,
      List.dropWhile_cons_of_neg (by simp [htoken.space])]
  have hvalue : readValue (2 * (' ' :: (writeValue v ++ '\n' :: rest)).length + 2)
      (nestingLimit - 1) (writeValue v ++ '\n' :: rest) = some (v, '\n' :: rest) :=
    readValue_writeValue v hv (by rw [List.length_cons, List.length_append]; omega)
      (endsItem_cons (.inl rfl))
  have hpair : readPair (writePair (key, v) ++ rest) = some (.pair [] key v, '\n' :: rest) := by
    rw [hwritten, readPair, hkey, Option.bind_some, hequals]
    simp only [hblank, hvalue, Option.map_some]
  obtain ⟨c, cs, heq, hc⟩ := h.exists_cons
  rw [← hpair, hwritten, heq, List.cons_append]
  -- a bare key opens with no bracket, so the statement is no table header
  have hbracket := (isBare_ne hc).2.2.2.1
  unfold readStatement
  split
  · next hcons => exact absurd (List.cons.inj hcons).1 hbracket
  · next hcons => exact absurd (List.cons.inj hcons).1 hbracket
  · rfl

/-! ## Lines -/

/-- The statements of the lines of a table. -/
def statementsOf (s : Section) : List Statement :=
  .header [] s.1 :: s.2.map fun pair => .pair [] pair.1 pair.2

/-- A statement at the beginning of a line is read with the line. -/
theorem readStatements_line {statement : Statement} (h : IsToken c)
    (hread : readStatement (c :: cs) = some (statement, '\n' :: rest)) (fuel : Nat) :
    readStatements (fuel + 1) (c :: cs) = (readStatements fuel rest).map (statement :: ·) := by
  have hline : endLine? ('\n' :: rest) = some rest := rfl
  rw [readStatements, skipBlank_token h]
  split
  · next heq => cases heq
  · next heq => exact absurd (List.cons.inj heq).1 h.comment
  · rw [hread, Option.bind_some]
    simp only [hline, Option.bind_some]

theorem readStatements_newline (fuel : Nat) (cs : List Char) :
    readStatements fuel ('\n' :: cs) = readStatements fuel cs := by
  cases fuel with
  | zero => rfl
  | succ fuel => rfl

theorem readStatements_pairs {pairs : List (String × Toml)}
    (hbare : ∀ pair ∈ pairs, IsBareKey pair.1)
    (hvalues : ∀ pair ∈ pairs, IsWritable (nestingLimit - 1) pair.2) (fuel : Nat)
    (rest : List Char) :
    readStatements (fuel + pairs.length) (pairs.flatMap writePair ++ rest) =
      (readStatements fuel rest).map
        ((pairs.map fun pair => Statement.pair [] pair.1 pair.2) ++ ·) := by
  induction pairs with
  | nil => cases h : readStatements fuel rest <;> simp [h]
  | cons pair pairs ih =>
    obtain ⟨hkey, hkeys⟩ := List.forall_mem_cons.mp hbare
    obtain ⟨hvalue, hvalues⟩ := List.forall_mem_cons.mp hvalues
    have hread := readStatement_pair hkey hvalue (pairs.flatMap writePair ++ rest)
    obtain ⟨c, cs, heq, hc⟩ : ∃ c cs, writePair pair = c :: cs ∧ isBare c = true := by
      obtain ⟨c, cs, heq, hc⟩ := hkey.exists_cons
      refine ⟨c, cs ++ (" = ".toList ++ (writeValue pair.2 ++ ['\n'])), ?_, hc⟩
      rw [writePair, hkey.writeKey, heq]
      simp only [List.append_assoc, List.cons_append]
    rw [show (pair.1, pair.2) = pair from rfl, heq, List.cons_append] at hread
    rw [List.flatMap_cons, List.append_assoc, heq, List.cons_append, List.length_cons,
      ← Nat.add_assoc, readStatements_line (isBare_ne hc).2.2.2.2 hread, ih hkeys hvalues,
      Option.map_map]
    rfl

theorem readStatements_section {s : Section} (hname : IsBareKey s.1) (htable : IsWritableTable s.2)
    (fuel : Nat) (rest : List Char) :
    readStatements (fuel + (statementsOf s).length) (writeSection s ++ rest) =
      (readStatements fuel rest).map (statementsOf s ++ ·) := by
  have htoken : IsToken '[' := ⟨rfl, by decide, by decide, by decide⟩
  have hwritten : writeSection s ++ rest =
      '[' :: (s.1.toList ++ ']' :: '\n' :: (s.2.flatMap writePair ++ rest)) := by
    rw [writeSection, hname.writeKey]
    simp only [List.append_assoc, List.cons_append]
  rw [hwritten, statementsOf, List.length_cons, List.length_map, ← Nat.add_assoc,
    readStatements_line htoken (readStatement_header hname _),
    readStatements_pairs htable.bare htable.values, Option.map_map]
  rfl

/-- An empty line stands in front of every table but the first. -/
theorem writeDocument_cons (s : Section) (sections : List Section) :
    writeDocument (s :: sections) =
      writeSection s ++ sections.flatMap fun s => '\n' :: writeSection s := by
  rw [writeDocument, List.map_cons, Text.join_cons, List.flatMap_map]

/-- **A written document is read as the statements of its lines**, with fuel for each. -/
theorem readStatements_writeDocument {sections : List Section} (h : IsWritableDocument sections)
    (fuel : Nat) :
    readStatements (fuel + 1 + (sections.flatMap statementsOf).length) (writeDocument sections) =
      some (sections.flatMap statementsOf) := by
  -- an empty line more in front of the first table makes all tables alike
  have hlines : ∀ n, readStatements n (writeDocument sections) =
      readStatements n (sections.flatMap fun s => '\n' :: writeSection s) := by
    intro n
    cases sections with
    | nil => rfl
    | cons s sections =>
      rw [← readStatements_newline, writeDocument_cons, List.flatMap_cons, List.cons_append]
  rw [hlines]
  obtain ⟨-, hbare, htables⟩ := h
  clear hlines
  induction sections with
  | nil => rfl
  | cons s sections ih =>
    obtain ⟨hname, hnames⟩ := List.forall_mem_cons.mp hbare
    obtain ⟨htable, htables⟩ := List.forall_mem_cons.mp htables
    rw [List.flatMap_cons, List.flatMap_cons, List.length_append, List.cons_append,
      readStatements_newline, Nat.add_comm (statementsOf s).length, ← Nat.add_assoc,
      readStatements_section hname htable, ih hnames htables]
    rfl

/-! ## Tables -/

namespace Draft

variable {members : Members}

/-- A member is changed where its key is the last one. -/
theorem update_concat (h : key ∉ members.map (·.1)) (f : Option Draft → Option Draft) (d : Draft) :
    update key f (members ++ [(key, d)]) = (f (some d)).map fun d => members ++ [(key, d)] := by
  induction members with
  | nil =>
    rw [List.nil_append, update, if_pos rfl]
    rfl
  | cons m members ih =>
    obtain ⟨k, d'⟩ := m
    rw [List.map_cons, List.mem_cons, not_or] at h
    rw [List.cons_append, update, if_neg (Ne.symm h.1), ih h.2, Option.map_map]
    rfl

/-- A key that is absent is added at the end. -/
theorem update_absent (h : key ∉ members.map (·.1)) (f : Option Draft → Option Draft) :
    update key f members = (f none).map fun d => members ++ [(key, d)] := by
  induction members with
  | nil => rfl
  | cons m members ih =>
    obtain ⟨k, d'⟩ := m
    rw [List.map_cons, List.mem_cons, not_or] at h
    rw [update, if_neg (Ne.symm h.1), ih h.2, Option.map_map]
    rfl

/-- The members of a table that a header and its lines give. -/
def ofPairs (pairs : List (String × Toml)) : Members := pairs.map fun pair => (pair.1, .value pair.2)

/-- The members of a document of tables. -/
def ofSections (sections : List Section) : Members :=
  sections.map fun s => (s.1, .table .defined (ofPairs s.2))

theorem finishMembers_ofPairs (pairs : List (String × Toml)) :
    finishMembers (ofPairs pairs) = pairs := by
  induction pairs with
  | nil => rfl
  | cons pair pairs ih =>
    show (pair.1, pair.2) :: finishMembers (ofPairs pairs) = _
    rw [ih]

theorem finishMembers_ofSections (sections : List Section) :
    finishMembers (ofSections sections) = sections.map fun s => (s.1, .table s.2) := by
  induction sections with
  | nil => rfl
  | cons s sections ih =>
    show (s.1, Toml.table (finishMembers (ofPairs s.2))) :: finishMembers (ofSections sections) = _
    rw [ih, finishMembers_ofPairs]
    rfl

end Draft

open Draft (ofPairs ofSections)

section Steps

variable {root inner : Draft.Members} {path : List String} {name : String}

theorem step_header (h : name ∉ root.map (·.1)) :
    Progress.step ⟨root, path⟩ (.header [] name) =
      some ⟨root ++ [(name, .table .defined [])], [name]⟩ := by
  have hopen : Draft.alter false (fun _ members => Draft.openTable name members) .defined [] root =
      some (root ++ [(name, .table .defined [])]) := Draft.update_absent h _
  rw [Progress.step, hopen]
  rfl

theorem step_pair (hname : name ∉ root.map (·.1)) (hkey : key ∉ inner.map (·.1)) (v : Toml) :
    Progress.step ⟨root ++ [(name, .table .defined inner)], [name]⟩ (.pair [] key v) =
      some ⟨root ++ [(name, .table .defined (inner ++ [(key, .value v)]))], [name]⟩ := by
  have hset : Draft.setValue [] key v inner = some (inner ++ [(key, .value v)]) :=
    Draft.update_absent hkey _
  have halter : Draft.alter false (fun _ members => Draft.setValue [] key v members) .defined [name]
      (root ++ [(name, .table .defined inner)]) =
        ((Draft.setValue [] key v inner).map (.table .defined)).map
          fun d => root ++ [(name, d)] := by
    rw [Draft.alter]
    exact Draft.update_concat hname _ _
  rw [Progress.step, halter, hset]
  rfl

/-- The lines of a table fill it, one after the other. -/
theorem foldlM_pairs {pairs : List (String × Toml)} (hname : name ∉ root.map (·.1))
    (hkeys : (inner.map (·.1) ++ pairs.map (·.1)).Nodup) :
    (pairs.map fun pair => Statement.pair [] pair.1 pair.2).foldlM Progress.step
        ⟨root ++ [(name, .table .defined inner)], [name]⟩ =
      some ⟨root ++ [(name, .table .defined (inner ++ ofPairs pairs))], [name]⟩ := by
  induction pairs generalizing inner with
  | nil =>
    rw [show ofPairs [] = [] from rfl, List.append_nil]
    rfl
  | cons pair pairs ih =>
    obtain ⟨key, v⟩ := pair
    have hkey : key ∉ inner.map (·.1) := fun hin =>
      (List.nodup_append.mp hkeys).2.2 key hin key List.mem_cons_self rfl
    have hmore : ((inner ++ [(key, Draft.value v)]).map (·.1) ++ pairs.map (·.1)).Nodup := by
      rw [List.map_append, List.append_assoc]
      exact hkeys
    rw [List.map_cons, List.foldlM_cons, step_pair hname hkey]
    show (pairs.map _).foldlM _ _ = _
    rw [ih hmore, List.append_assoc]
    rfl

/-- **The statements of tables with different names build the tables.** -/
theorem foldlM_sections {sections : List Section}
    (hnames : (root.map (·.1) ++ sections.map (·.1)).Nodup)
    (hkeys : ∀ s ∈ sections, (s.2.map (·.1)).Nodup) :
    ∃ last, (sections.flatMap statementsOf).foldlM Progress.step ⟨root, path⟩ =
      some ⟨root ++ ofSections sections, last⟩ := by
  induction sections generalizing root path with
  | nil => exact ⟨path, by rw [ofSections, List.map_nil, List.append_nil]; rfl⟩
  | cons s sections ih =>
    obtain ⟨name, pairs⟩ := s
    obtain ⟨hpairs, hmore⟩ := List.forall_mem_cons.mp hkeys
    have hname : name ∉ root.map (·.1) := fun hin =>
      (List.nodup_append.mp hnames).2.2 name hin name List.mem_cons_self rfl
    have hothers : ((root ++ [(name, Draft.table .defined (ofPairs pairs))]).map (·.1) ++
        sections.map (·.1)).Nodup := by
      rw [List.map_append, List.append_assoc]
      exact hnames
    obtain ⟨last, hlast⟩ := @ih _ [name] hothers hmore
    refine ⟨last, ?_⟩
    rw [List.flatMap_cons, List.foldlM_append, statementsOf, List.foldlM_cons, step_header hname]
    show ((pairs.map _).foldlM Progress.step _ >>= _) = _
    rw [foldlM_pairs hname (by simpa using hpairs), List.nil_append]
    show (sections.flatMap statementsOf).foldlM Progress.step _ = _
    rw [hlast, List.append_assoc]
    rfl

end Steps

theorem ofStatements_sections {sections : List Section} (h : IsWritableDocument sections) :
    ofStatements (sections.flatMap statementsOf) =
      some (sections.map fun s => (s.1, .table s.2)) := by
  have hfold : ∃ last, (sections.flatMap statementsOf).foldlM Progress.step ⟨[], []⟩ =
      some ⟨[] ++ ofSections sections, last⟩ :=
    foldlM_sections (by simpa using h.names) fun s hs => (h.tables s hs).keys
  obtain ⟨last, hlast⟩ := hfold
  rw [ofStatements, hlast, Option.map_some, List.nil_append, Draft.finishMembers_ofSections]

/-! ## Whole documents -/

theorem length_statementsOf_le {s : Section} :
    (statementsOf s).length ≤ (writeSection s).length := by
  have hpairs : ∀ pairs : List (String × Toml),
      pairs.length ≤ (pairs.flatMap writePair).length := by
    intro pairs
    induction pairs with
    | nil => exact Nat.le_refl 0
    | cons pair pairs ih =>
      rw [List.flatMap_cons, List.length_append, List.length_cons, writePair, List.length_append]
      simp only [List.length_singleton]
      omega
  have hmore := hpairs s.2
  rw [statementsOf, writeSection, List.length_cons, List.length_map, List.length_append,
    List.length_cons, List.length_cons, List.length_cons]
  omega

theorem length_statements_le (sections : List Section) :
    (sections.flatMap statementsOf).length ≤ (writeDocument sections).length := by
  have hlines : ∀ sections : List Section, (sections.flatMap statementsOf).length ≤
      (sections.flatMap fun s => '\n' :: writeSection s).length := by
    intro sections
    induction sections with
    | nil => exact Nat.le_refl 0
    | cons s sections ih =>
      have hfirst := length_statementsOf_le (s := s)
      rw [List.flatMap_cons, List.flatMap_cons, List.length_append, List.length_append,
        List.length_cons]
      omega
  cases sections with
  | nil => exact Nat.zero_le _
  | cons s sections =>
    have hfirst := length_statementsOf_le (s := s)
    have hmore := hlines sections
    rw [List.flatMap_cons, writeDocument_cons, List.length_append, List.length_append]
    omega

theorem skipMark_writeDocument (sections : List Section) :
    skipMark (writeDocument sections) = writeDocument sections := by
  cases sections with
  | nil => rfl
  | cons s sections =>
    rw [writeDocument_cons, writeSection]
    rfl

/-- **A written document of tables is read back.** -/
theorem ofText_writeDocument {sections : List Section} (h : IsWritableDocument sections) :
    ofText (writeDocument sections) = some (.table (sections.map fun s => (s.1, .table s.2))) := by
  obtain ⟨fuel, hfuel⟩ := Nat.exists_eq_add_of_le' (length_statements_le sections)
  have hread := readStatements_writeDocument h fuel
  rw [Nat.add_right_comm, ← hfuel] at hread
  rw [ofText, skipMark_writeDocument, hread, Option.bind_some, ofStatements_sections h]
  rfl

end ChangeScope.Toml
