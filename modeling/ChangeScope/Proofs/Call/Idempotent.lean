import ChangeScope.Proofs.Call.Reread
import ChangeScope.Proofs.Import

/-!
# Qualifying twice

A body that is qualified is left alone by a second pass, which finds the same known calls, exactly
when the first pass put every id where it is read back (`qualify_qualify_iff`): the id itself can
be read, nothing before it can be taken for its file, and no plain name behind its parenthesis is
in the way.
-/

set_option autoImplicit false

namespace ChangeScope.Call

open ChangeScope.Text

variable {tree : FileTree} {scope : Scope}

/-! ## Ids that were looked up -/

/-- The id of a function in an absolute file begins with a slash. -/
theorem rooted_make {file : Path} (h : file.IsAbsolute) (name : String) :
    Path.Rooted (FunctionId.make file name).toList := by
  rw [FunctionId.toList_make]
  exact Path.rooted_append h _

theorem resolveName?_rooted (hfile : scope.file.IsAbsolute) (hroot : scope.root.IsAbsolute)
    {name id : String} (h : scope.resolveName? tree name = some id) : Path.Rooted id.toList := by
  unfold Scope.resolveName? at h
  split at h
  · rw [← Option.some.inj h]
    exact rooted_make hfile name
  · split at h
    · next file symbol htarget =>
        obtain ⟨table, -, hresolve⟩ := Option.bind_eq_some_iff.mp htarget
        rw [← Option.some.inj h]
        exact rooted_make (Import.Table.resolve?_absolute hfile hroot hresolve) symbol
    · exact absurd h (by simp)

/-- A call without its file in front stands for a function in an absolute file. -/
theorem resolve?_rooted (hfile : scope.file.IsAbsolute) (hroot : scope.root.IsAbsolute)
    {c : Candidate} (hform : ∀ file, c.form ≠ .qualified file) {id : String}
    (h : scope.resolve? tree c = some id) : Path.Rooted id.toList := by
  unfold Scope.resolve? at h
  split at h
  · next file hqualified => exact absurd hqualified (hform file)
  · exact resolveName?_rooted hfile hroot h
  · split at h
    · exact resolveName?_rooted hfile hroot h
    · obtain ⟨file, hreceiver, rfl⟩ := Option.map_eq_some_iff.mp h
      obtain ⟨table, -, hfound⟩ := Option.bind_eq_some_iff.mp hreceiver
      exact rooted_make (Import.Table.resolveReceiver?_absolute hfile hroot hfound) _

/-! ## Calls with their file in front -/

/-- All known candidates are written with their file in front. -/
def AllQualified (cs : List Entry) : Prop :=
  ∀ c id, (c, some id) ∈ cs → ∃ file, c.form = .qualified file

theorem AllQualified.tail {e : Entry} {cs : List Entry} (h : AllQualified (e :: cs)) :
    AllQualified cs :=
  fun c id hc => h c id (List.mem_cons_of_mem _ hc)

theorem allQualified_cons_none {c : Candidate} {cs : List Entry} :
    AllQualified ((c, none) :: cs) ↔ AllQualified cs := by
  constructor
  · exact AllQualified.tail
  · intro h c' id hc
    exact h c' id ((List.mem_cons.mp hc).resolve_left (by simp))

theorem allQualified_cons_some {c : Candidate} {id : String} {cs : List Entry} :
    AllQualified ((c, some id) :: cs) ↔ (∃ file, c.form = .qualified file) ∧ AllQualified cs := by
  constructor
  · intro h
    exact ⟨h c id List.mem_cons_self, h.tail⟩
  · rintro ⟨hform, h⟩ c' id' hc
    rcases List.mem_cons.mp hc with heq | hc
    · rw [(Prod.mk.inj heq).1]
      exact hform
    · exact h c' id' hc

/-- **The text stays exactly when all known calls have their file in front.** -/
theorem Cut.shown_eq_iff (hfile : scope.file.IsAbsolute) (hroot : scope.root.IsAbsolute)
    {before : List Char} {ps : List Piece} {cs : List Entry}
    (h : Cut (scope.resolve? tree) [] before ps cs) (hs : Standing (sourceOf ps) []) :
    shownOf ps = textOf (sourceOf ps) ↔ AllQualified cs := by
  induction h with
  | nil =>
      constructor
      · intro _ c id hc
        exact absurd hc List.not_mem_nil
      · intro _
        rfl
  | @skip _ l ps cs hnone hrest ih =>
      obtain ⟨-, hsource⟩ := hs
      rw [shownOf_plain, sourceOf_plain, textOf_cons, List.append_cancel_left_eq]
      exact ih hsource
  | @unknown _ w ps cs c hfound hid hrest ih =>
      obtain ⟨-, hsource⟩ := hs
      rw [shownOf_plain, sourceOf_plain, textOf_cons, List.append_cancel_left_eq,
        allQualified_cons_none]
      exact ih hsource
  | @known _ w q id ps cs c hq hfound hreads hid hrest ih =>
      rw [sourceOf_call] at hs
      obtain ⟨-, hw, hsource⟩ := standing_append.mp hs
      obtain ⟨-, hname, -⟩ := candidateAt_spec hfound
      rw [shownOf_call, sourceOf_call, textOf_call, allQualified_cons_some]
      by_cases hform : ∃ file, c.form = .qualified file
      · -- the id is the expression itself
        rw [id_of_qualified hform hreads hname hid, List.append_cancel_left_eq, ih hsource]
        exact (and_iff_right hform).symm
      · have hform' : ∀ file, c.form ≠ .qualified file := fun file hf => hform ⟨file, hf⟩
        constructor
        · -- the id begins with a slash and the expression like a word
          intro htext
          exfalso
          obtain ⟨d, more, hd, hstart⟩ := hreads.word_head hform' hw.shaped_fits.1
          have hrooted := Path.rooted_append (resolve?_rooted hfile hroot hform' hid) (shownOf ps)
          rw [htext, hd] at hrooted
          obtain rfl : d = '/' := Option.some.inj hrooted
          exact absurd hstart (by decide)
        · rintro ⟨hqualified, -⟩
          exact absurd hqualified hform

/-- Among characters of a qualifier only a comment holds the mark of one. -/
theorem Lexeme.Shaped.comment_of_mem {l : Lexeme} (h : l.Shaped) (hin : '#' ∈ l.text)
    (hall : ∀ c ∈ l.text, InQualifier c) : ∃ t, l = .comment t := by
  cases l with
  | comment t => exact ⟨t, rfl⟩
  | literal t =>
      obtain ⟨quote, more, rfl, hquote⟩ := h
      have hno := (hall quote List.mem_cons_self).2.1
      rw [hquote] at hno
      exact absurd hno (by decide)
  | number t =>
      obtain ⟨d, more, rfl, hd, hmore⟩ := h
      rcases List.mem_cons.mp hin with rfl | hin
      · exact absurd hd (by decide)
      · exact absurd (hmore '#' hin) (by decide)
  | word t =>
      obtain ⟨d, more, rfl, hd, hmore⟩ := h
      rcases List.mem_cons.mp hin with rfl | hin
      · exact absurd hd (by decide)
      · exact absurd (hmore '#' hin) (by decide)
  | mark c =>
      obtain rfl := List.mem_singleton.mp hin
      exact absurd rfl h.1

/-- A text on one line without quotes, before more text on the line, holds no comment. -/
theorem Standing.no_comment {ls : List Lexeme} {after : List Char} (h : Standing ls after)
    (hafter : ∀ d, after.head? = some d → d ≠ '\n') (hne : after ≠ [])
    (hall : ∀ c ∈ textOf ls, InQualifier c) : '#' ∉ textOf ls := by
  induction ls with
  | nil => exact List.not_mem_nil
  | cons l ls ih =>
      obtain ⟨hl, hls⟩ := h
      have hbehind : ∀ c ∈ textOf ls, InQualifier c :=
        fun c hc => hall c (List.mem_append_right _ hc)
      intro hin
      rcases List.mem_append.mp hin with hin | hin
      · obtain ⟨t, rfl⟩ := hl.shaped_fits.1.comment_of_mem hin
          fun c hc => hall c (List.mem_append_left _ hc)
        -- a comment would go on to the end of the line
        obtain ⟨d, more, hd⟩ := List.exists_cons_of_ne_nil
          (List.append_ne_nil_of_right_ne_nil (textOf ls) hne)
        obtain rfl : d = '\n' := by simpa using hl.shaped_fits.2 d (by rw [hd]; rfl)
        cases htext : textOf ls with
        | nil =>
            rw [htext, List.nil_append] at hd
            exact hafter '\n' (by rw [hd]; rfl) rfl
        | cons e rest =>
            rw [htext] at hd hbehind
            exact (hbehind e List.mem_cons_self).2.2 (List.cons.inj hd).1
      · exact ih hls hbehind hin

/-- The id of a call that is written with its file in front can be read. -/
theorem readable_of_qualified {before w : List Char} {q rest : List Lexeme} {c : Candidate}
    {id : String} (hq : Standing q (textOf (.word w :: rest) ++ []))
    (hw : (Lexeme.word w).Shaped) (hform : ∃ file, c.form = .qualified file)
    (hfound : candidateAt ((textOf q).reverse ++ before) w (rest ++ []) = .ok (some c))
    (hreads : c.form.Reads (textOf q).reverse before) (hid : scope.resolve? tree c = some id) :
    IsReadable id := by
  obtain ⟨hcalled, hname, -, -, qualifier, rest', -, -, hinside, hreads', -⟩ :=
    candidateAt_spec hfound
  rw [← hreads.unique hreads'] at hinside
  have htext := id_of_qualified hform hreads hname hid
  have ⟨d, more, hword, hstart, _⟩ := hw
  have hnext : textOf (.word w :: rest) ++ [] = d :: (more ++ textOf rest) := by
    rw [textOf_cons, List.append_nil]
    show w ++ _ = _
    rw [hword, List.cons_append]
  -- the word goes on behind the file on its line, so no comment can begin there
  have hcomment : '#' ∉ textOf q := by
    apply hq.no_comment
    · intro e he
      rw [hnext] at he
      obtain rfl := Option.some.inj he
      rintro rfl
      exact absurd hstart (by decide)
    · rw [hnext]
      exact List.cons_ne_nil _ _
    · exact fun e he => hinside e (List.mem_reverse.mpr he)
  obtain ⟨file, hform⟩ := hform
  rw [hform] at hreads
  have hq := hreads.qualified_text
  obtain ⟨path, -, hpath, hne, hplain, -⟩ := hreads
  refine ⟨file.toList, w, ?_, ?_, ?_, hw, ?_⟩
  · rw [htext, hq, List.append_assoc]
    rfl
  · rw [hpath, String.toList_ofList]
    exact fun hnil => hne (List.reverse_eq_nil_iff.mp hnil)
  · intro e he
    constructor
    · rw [hpath, String.toList_ofList] at he
      exact hplain e (List.mem_reverse.mp he)
    · rintro rfl
      apply hcomment
      rw [hq]
      exact List.mem_append_left _ he
  · exact (isCalled_iff.mp hcalled).2.1

/-- Where all known calls are written with their file in front, all ids can be read. -/
theorem Cut.readable {before : List Char} {ps : List Piece} {cs : List Entry}
    (h : Cut (scope.resolve? tree) [] before ps cs) (hs : Standing (sourceOf ps) [])
    (hall : AllQualified cs) : AllReadable cs := by
  induction h with
  | nil => exact fun c id hc => absurd hc List.not_mem_nil
  | skip hnone hrest ih => exact ih hs.2 hall
  | unknown hfound hid hrest ih =>
      intro c id hc
      exact ih hs.2 hall.tail c id ((List.mem_cons.mp hc).resolve_left (by simp))
  | @known before w q id ps cs c hq hfound hreads hid hrest ih =>
      rw [sourceOf_call] at hs
      obtain ⟨hqs, hw, hsource⟩ := standing_append.mp hs
      obtain ⟨hform, hall'⟩ := allQualified_cons_some.mp hall
      intro c' id' hc
      rcases List.mem_cons.mp hc with heq | hc
      · obtain ⟨rfl, hids⟩ := Prod.mk.inj heq
        obtain rfl := Option.some.inj hids
        exact readable_of_qualified hqs hw.shaped_fits.1 hform hfound hreads hid
      · exact ih hsource hall' c' id' hc

/-! ## Lines and ids of the known calls -/

/-- The lines of the known calls with their ids, in order. -/
def knownCalls (sites : List Site) : List (Nat × String) :=
  sites.filterMap fun site => site.calleeId.map fun id => (site.line, id)

/-- The candidates of a body with their ids. -/
def entriesOf (tree : FileTree) (scope : Scope) (cands : List Candidate) : List Entry :=
  cands.map fun c => (c, scope.resolve? tree c)

/-- The sites of candidates. -/
def sitesOf (tree : FileTree) (scope : Scope) (startLine : Nat) (cands : List Candidate) :
    List Site :=
  cands.map fun c => c.site startLine (scope.resolve? tree c)

theorem knownCalls_sites (startLine : Nat) (cands : List Candidate) :
    knownCalls (sitesOf tree scope startLine cands) =
      (entriesOf tree scope cands).filterMap fun e =>
        e.2.map fun id => (startLine + e.1.lineOffset, id) := by
  unfold knownCalls sitesOf entriesOf
  rw [List.filterMap_map, List.filterMap_map]
  rfl

theorem mem_knownCalls {startLine : Nat} {cands : List Candidate} {id : String} :
    (∃ line, (line, id) ∈ knownCalls (sitesOf tree scope startLine cands)) ↔
      ∃ c, (c, some id) ∈ entriesOf tree scope cands := by
  rw [knownCalls_sites]
  constructor
  · rintro ⟨line, hmem⟩
    obtain ⟨⟨c, found⟩, he, hid⟩ := List.mem_filterMap.mp hmem
    obtain ⟨id', rfl, heq⟩ := Option.map_eq_some_iff.mp hid
    rw [← (Prod.mk.inj heq).2]
    exact ⟨c, he⟩
  · rintro ⟨c, hc⟩
    exact ⟨startLine + c.lineOffset, List.mem_filterMap.mpr ⟨(c, some id), hc, rfl⟩⟩

/-- What was unknown is unknown again. -/
theorem Again.resolve?_unknown {body : List Char} {c c' : Candidate} (h : Again body (c, none) c')
    (hid : scope.resolve? tree c = none) : scope.resolve? tree c' = none := by
  cases h with
  | unknown hsame => rw [resolve?_congr hsame.form hsame.name, hid]

/-- An id is known on its line again, as the same one if nothing before it is taken for its file. -/
theorem Again.resolve?_known {body : List Char} {c c' : Candidate} {id : String}
    (h : Again body (c, some id) c') :
    ∃ id', scope.resolve? tree c' = some id' ∧ c'.lineOffset = c.lineOffset ∧
      (id' = id ↔ IsBounded body c) := by
  cases h with
  | @known _ _ _ file name extra hreads hline hform hname hextra =>
      refine ⟨_, resolve?_qualified hform, hline, ?_⟩
      rw [← hextra, hname, ← String.toList_inj, FunctionId.toList_make, hreads.text,
        String.toList_ofList, String.toList_ofList, List.append_assoc]
      exact List.append_left_eq_self

theorem again_cons {body : List Char} {c : Candidate} {cands cands' : List Candidate}
    (h : List.Forall₂ (Again body) (entriesOf tree scope (c :: cands)) cands') :
    ∃ c' others, Again body (c, scope.resolve? tree c) c' ∧
      List.Forall₂ (Again body) (entriesOf tree scope cands) others ∧ cands' = c' :: others :=
  List.forall₂_cons_left_iff.mp h

/-- The known calls are the same when no id has taken more of the text before it. -/
theorem knownCalls_again {startLine : Nat} {body : List Char} {cands cands' : List Candidate}
    (h : List.Forall₂ (Again body) (entriesOf tree scope cands) cands') :
    knownCalls (sitesOf tree scope startLine cands') =
        knownCalls (sitesOf tree scope startLine cands) ↔
      ∀ c id, (c, some id) ∈ entriesOf tree scope cands → IsBounded body c := by
  rw [knownCalls_sites, knownCalls_sites]
  induction cands generalizing cands' with
  | nil =>
      cases h
      constructor
      · intro _ c id hc
        exact absurd hc List.not_mem_nil
      · intro _
        rfl
  | cons c cands ih =>
      obtain ⟨c', others, hhead, htail, rfl⟩ := again_cons h
      have ih := ih htail
      show List.filterMap _ ((c', scope.resolve? tree c') :: entriesOf tree scope others) =
          List.filterMap _ ((c, scope.resolve? tree c) :: entriesOf tree scope cands) ↔
        ∀ c' id, (c', some id) ∈ (c, scope.resolve? tree c) :: entriesOf tree scope cands → _
      cases hid : scope.resolve? tree c with
      | none =>
          rw [hid] at hhead
          rw [hhead.resolve?_unknown hid]
          refine ih.trans ⟨fun hall c id hc => ?_, fun hall c id hc => ?_⟩
          · exact hall c id ((List.mem_cons.mp hc).resolve_left (by simp))
          · exact hall c id (List.mem_cons_of_mem _ hc)
      | some id =>
          rw [hid] at hhead
          have hknown : ∃ id', scope.resolve? tree c' = some id' ∧ c'.lineOffset = c.lineOffset ∧
              (id' = id ↔ IsBounded body c) := hhead.resolve?_known
          obtain ⟨id', hid', hline, hsame⟩ := hknown
          rw [hid']
          show (startLine + c'.lineOffset, _) :: List.filterMap _ _ =
            (startLine + c.lineOffset, id) :: List.filterMap _ _ ↔ _
          -- the first known calls agree just when nothing before the id was taken for its file
          rw [hline, List.cons.injEq, Prod.mk.injEq, hsame, ih]
          constructor
          · rintro ⟨⟨-, hbounded⟩, hall⟩ c₁ id₁ hc
            rcases List.mem_cons.mp hc with heq | hc
            · rw [(Prod.mk.inj heq).1]
              exact hbounded
            · exact hall c₁ id₁ hc
          · intro hall
            exact ⟨⟨rfl, hall c id List.mem_cons_self⟩,
              fun c₁ id₁ hc => hall c₁ id₁ (List.mem_cons_of_mem _ hc)⟩

/-- What the second pass knows is an id of the first one. -/
theorem allQualified_again {body : List Char} {cands cands' : List Candidate}
    (h : List.Forall₂ (Again body) (entriesOf tree scope cands) cands') :
    AllQualified (entriesOf tree scope cands') := by
  induction cands generalizing cands' with
  | nil =>
      cases h
      exact fun c id hc => absurd hc List.not_mem_nil
  | cons c cands ih =>
      obtain ⟨c', others, hhead, htail, rfl⟩ := again_cons h
      intro c₁ id hc
      rcases List.mem_cons.mp hc with heq | hc
      · obtain ⟨rfl, hid⟩ := Prod.mk.inj heq
        generalize hfound : scope.resolve? tree c = found at hhead
        cases hhead with
        | unknown hsame =>
            rw [resolve?_congr hsame.form hsame.name, hfound] at hid
            exact absurd hid (by simp)
        | known hreads hline hform hname hextra => exact ⟨_, hform⟩
      · exact ih htail c₁ id hc

/-! ## The second pass -/

/-- The ids of a body are read back in its qualified form. -/
structure IsSettled (body : List Char) (cs : List Entry) : Prop where
  readable : AllReadable cs
  /-- Nothing before a call is taken for its file. -/
  bounded : ∀ c id, (c, some id) ∈ cs → IsBounded body c
  /-- No plain name is in the way behind its parenthesis. -/
  clear : cs.IsChain Clear

/-- Where the ids can be read, the second scan is that of the lexemes around them. -/
theorem scan_shown {ps : List Piece} {cs : List Entry}
    (h : Cut (scope.resolve? tree) [] [] ps cs) (hids : AllReadable cs)
    (hs : Standing (sourceOf ps) []) :
    scan (String.ofList (shownOf ps)) = scanFrom [] (targetOf ps) := by
  have hlexemes := lexemes_of_standing (h.standing_target hids hs)
  rw [text_target] at hlexemes
  unfold scan
  rw [String.toList_ofList, hlexemes]

/-- **A pass leaves a text alone exactly when all known calls have their file in front**, and then
their ids can be read. -/
theorem qualify_eq_self_iff (startLine : Nat) (hfile : scope.file.IsAbsolute)
    (hroot : scope.root.IsAbsolute) {text : String} {cands : List Candidate}
    (hscan : scan text = .ok cands) :
    ∃ shown, qualify tree scope startLine text = .ok (sitesOf tree scope startLine cands, shown) ∧
      (AllQualified (entriesOf tree scope cands) → AllReadable (entriesOf tree scope cands)) ∧
      (shown = text ↔ AllQualified (entriesOf tree scope cands)) := by
  obtain ⟨ps, hsource, hcut, hqualify⟩ := qualify_cut tree scope startLine hscan
  have hs : Standing (sourceOf ps) [] := by
    rw [hsource]
    exact standing_lexemes _
  have hshown := hcut.shown_eq_iff hfile hroot hs
  rw [hsource, text_lexemes] at hshown
  refine ⟨_, hqualify, hcut.readable hs, ?_⟩
  rw [← String.toList_inj, String.toList_ofList]
  exact hshown

/-- **A second pass leaves a qualified body and its known calls alone exactly when its ids are read
back.** -/
theorem qualify_qualify_iff (startLine : Nat) {body : String} {cands : List Candidate}
    (hfile : scope.file.IsAbsolute) (hroot : scope.root.IsAbsolute)
    (hscan : scan body = .ok cands) :
    ∃ sites text, qualify tree scope startLine body = .ok (sites, text) ∧
      ((∃ sites', qualify tree scope startLine text = .ok (sites', text) ∧
          knownCalls sites' = knownCalls sites) ↔
        IsSettled body.toList (entriesOf tree scope cands)) := by
  obtain ⟨ps, hsource, hcut, hqualify⟩ := qualify_cut tree scope startLine hscan
  refine ⟨sitesOf tree scope startLine cands, String.ofList (shownOf ps), hqualify, ?_⟩
  have hcut : Cut (scope.resolve? tree) [] [] ps (entriesOf tree scope cands) := hcut
  have hs : Standing (sourceOf ps) [] := by
    rw [hsource]
    exact standing_lexemes _
  have hbody : body.toList = [].reverse ++ textOf (sourceOf ps) := by
    rw [hsource, text_lexemes]
    rfl
  have halike : Alike none (sourceOf ps) [] [] :=
    ⟨.same fun c id hnone => absurd hnone (by simp), Or.inl rfl, rfl⟩
  constructor
  · rintro ⟨sites', hqualify', hknown⟩
    obtain ⟨cands', hscan', -⟩ := ok_of_bind hqualify'
    obtain ⟨text', hagain, hreadable, htext⟩ := qualify_eq_self_iff startLine hfile hroot hscan'
    rw [hqualify'] at hagain
    obtain ⟨rfl, rfl⟩ := Prod.mk.inj (Except.ok.inj hagain)
    have hqualified := htext.mp rfl
    -- all ids are found by the second pass, so they can be read
    have hids : AllReadable (entriesOf tree scope cands) := by
      intro c id hc
      obtain ⟨line, hmem⟩ := mem_knownCalls.mpr ⟨c, hc⟩
      rw [← hknown] at hmem
      obtain ⟨c', hc'⟩ := mem_knownCalls.mp ⟨line, hmem⟩
      exact hreadable hqualified c' id hc'
    rw [scan_shown hcut hids hs] at hscan'
    obtain ⟨hok, hchain⟩ := hcut.reread hbody hids hs halike
    have hclear := hchain cands' hscan'
    obtain ⟨found, hfound, hall⟩ := hok hclear
    rw [hscan'] at hfound
    obtain rfl := Except.ok.inj hfound
    exact ⟨hids, (knownCalls_again hall).mp hknown, hclear⟩
  · rintro ⟨hids, hbounded, hclear⟩
    obtain ⟨hok, -⟩ := hcut.reread hbody hids hs halike
    obtain ⟨cands', hscan', hall⟩ := hok hclear
    rw [← scan_shown hcut hids hs] at hscan'
    obtain ⟨text', hagain, -, htext⟩ := qualify_eq_self_iff startLine hfile hroot hscan'
    refine ⟨sitesOf tree scope startLine cands', ?_, (knownCalls_again hall).mpr hbounded⟩
    rw [hagain, htext.mpr (allQualified_again hall)]

/-- A file that defines `helper`. -/
def helperScope : Scope :=
  { file := ⟨"/repo/m.py"⟩, root := ⟨"/repo"⟩, locals := ["helper"], imports := none }

/-- A known call and an unknown one in its argument. -/
theorem scan_nested : scan "x = helper(n(2))" =
    .ok [⟨0, 5, "helper", .bare, 4, 10, "n(2)"⟩, ⟨0, 12, "n", .bare, 11, 12, "2"⟩] := by
  have hlexemes : lexemes "x = helper(n(2))".toList =
      [.word ['x'], .mark ' ', .mark '=', .mark ' ', .word "helper".toList, .mark '(', .word ['n'],
        .mark '(', .number ['2'], .mark ')', .mark ')'] := by
    cbv
  unfold scan
  rw [hlexemes]
  rfl

theorem qualify_qualify_iff_nested :
    helperScope.file.IsAbsolute ∧ helperScope.root.IsAbsolute ∧
      scan "x = helper(n(2))" =
        .ok [⟨0, 5, "helper", .bare, 4, 10, "n(2)"⟩, ⟨0, 12, "n", .bare, 11, 12, "2"⟩] ∧
      ∃ sites text,
        qualify FileTree.empty helperScope 1 "x = helper(n(2))" = .ok (sites, text) ∧
          ((∃ sites', qualify FileTree.empty helperScope 1 text = .ok (sites', text) ∧
              knownCalls sites' = knownCalls sites) ↔
            IsSettled "x = helper(n(2))".toList
              (entriesOf FileTree.empty helperScope
                [⟨0, 5, "helper", .bare, 4, 10, "n(2)"⟩, ⟨0, 12, "n", .bare, 11, 12, "2"⟩])) :=
  ⟨rfl, rfl, scan_nested, qualify_qualify_iff 1 rfl rfl scan_nested⟩

/-- A minus sign before a call is taken for a part of its file by the second pass. -/
theorem requalified_call_differs :
    qualify FileTree.empty helperScope 1 "def f(n):\n    return n-helper(1)" =
        .ok ([⟨2, 14, "helper", none, some "/repo/m.py::helper", "1"⟩],
          "def f(n):\n    return n-/repo/m.py::helper(1)") ∧
      qualify FileTree.empty helperScope 1 "def f(n):\n    return n-/repo/m.py::helper(1)" =
        .ok ([⟨2, 26, "helper", none, some "n-/repo/m.py::helper", "1"⟩],
          "def f(n):\n    return n-/repo/m.py::helper(1)") ∧
      knownCalls [⟨2, 26, "helper", none, some "n-/repo/m.py::helper", "1"⟩] ≠
        knownCalls [⟨2, 14, "helper", none, some "/repo/m.py::helper", "1"⟩] := by
  have hfirst : lexemes "def f(n):\n    return n-helper(1)".toList =
      [.word "def".toList, .mark ' ', .word ['f'], .mark '(', .word ['n'], .mark ')', .mark ':',
        .mark '\n', .mark ' ', .mark ' ', .mark ' ', .mark ' ', .word "return".toList, .mark ' ',
        .word ['n'], .mark '-', .word "helper".toList, .mark '(', .number ['1'], .mark ')'] := by
    cbv
  have hsecond : lexemes "def f(n):\n    return n-/repo/m.py::helper(1)".toList =
      [.word "def".toList, .mark ' ', .word ['f'], .mark '(', .word ['n'], .mark ')', .mark ':',
        .mark '\n', .mark ' ', .mark ' ', .mark ' ', .mark ' ', .word "return".toList, .mark ' ',
        .word ['n'], .mark '-', .mark '/', .word "repo".toList, .mark '/', .word ['m'], .mark '.',
        .word "py".toList, .mark ':', .mark ':', .word "helper".toList, .mark '(', .number ['1'],
        .mark ')'] := by
    cbv
  refine ⟨?_, ?_, ?_⟩
  · unfold qualify scan
    rw [hfirst]
    rfl
  · unfold qualify scan
    rw [hsecond]
    rfl
  · decide

end ChangeScope.Call
