import ChangeScope.Proofs.Call.Definition
import ChangeScope.Proofs.Call.Target

/-!
# A body and its qualified form

Two texts are read side by side: a body, and its qualified form with the ids in place of the known
calls. Behind the parenthesis of such a call both look alike (`Alike`), and so does every line to
the search for definitions (`Cut.isDefLine_shown`); a word that is no known call is called in both
or in neither (`Alike.isCalled_eq`).
-/

set_option autoImplicit false

namespace ChangeScope.Call

open ChangeScope.Text

variable {tree : FileTree} {scope : Scope}

/-! ## Texts that look alike from behind -/

/-- The reversed text of a body and that of the qualified body: how they end, with the last entry
before them and the lexemes of the body after them. -/
inductive Beside : Option Entry → List Lexeme → List Char → List Char → Prop
  /-- No call has been known. -/
  | same {last : Option Entry} {rest : List Lexeme} {before : List Char}
      (hlast : ∀ c id, last ≠ some (c, some id)) : Beside last rest before before
  /-- The parenthesis of a known call is further back. -/
  | apart {last : Option Entry} {rest : List Lexeme} {u x y : List Char} (hparen : '(' ∈ u)
      (hlong : 2 ≤ u.length) (hlast : ∀ c id, last = some (c, some id) → c.stop ≤ byteLength x) :
      Beside last rest (u ++ x) (u ++ y)
  /-- The parenthesis of a known call is the last character. -/
  | fresh {rest : List Lexeme} {c : Candidate} {id : String} {x y : List Char}
      (hid : id.toList ≠ []) (hstop : byteLength x = c.stop) :
      Beside (some (c, some id)) rest ('(' :: x) ('(' :: (id.toList.reverse ++ y))
  /-- The parenthesis of a known call is still to come. -/
  | gap {rest : List Lexeme} {c : Candidate} {id : String} {g x y : List Char}
      (hparen : (afterParen? rest).isSome = true) (hid : id.toList ≠ [])
      (hstop : byteLength x = c.stop) :
      Beside (some (c, some id)) rest (g ++ x) (g ++ (id.toList.reverse ++ y))

/-- Reading one more lexeme that is no known call. -/
theorem Beside.step {last last' : Option Entry} {l : Lexeme} {rest : List Lexeme}
    {before before' : List Char} (h : Beside last (l :: rest) before before') (hl : l.text ≠ [])
    (hlast : last' = last ∨ (∃ w, l = .word w) ∧ ∀ c id, last' ≠ some (c, some id)) :
    Beside last' rest (l.text.reverse ++ before) (l.text.reverse ++ before') := by
  have hlength : 0 < l.text.reverse.length := by
    rw [List.length_reverse]
    exact List.length_pos_of_ne_nil hl
  -- a known call may be left behind, but none is met
  have hkept : ∀ c id, last' = some (c, some id) → last = some (c, some id) := by
    intro c id hc
    rcases hlast with rfl | ⟨-, hnone⟩
    · exact hc
    · exact absurd hc (hnone c id)
  cases h with
  | same hnone => exact .same fun c id hc => hnone c id (hkept c id hc)
  | @apart _ _ u x y hparen hlong hstop =>
      rw [← List.append_assoc, ← List.append_assoc]
      refine .apart (List.mem_append_right _ hparen) ?_ fun c id hc => hstop c id (hkept c id hc)
      rw [List.length_append]
      omega
  | @fresh _ c id x y hid hstop =>
      have hcons : ∀ z : List Char,
          l.text.reverse ++ '(' :: z = (l.text.reverse ++ ['(']) ++ z := by
        intro z
        rw [List.append_assoc]
        rfl
      rw [hcons x, hcons (id.toList.reverse ++ y)]
      refine .apart (by simp) ?_ fun c' id' hc => ?_
      · rw [List.length_append, List.length_singleton]
        omega
      · obtain ⟨rfl, -⟩ := Prod.mk.inj (Option.some.inj (hkept c' id' hc))
        exact hstop.ge
  | @gap _ c id g x y hparen hid hstop =>
      obtain ⟨d, more, hcons, hbreak⟩ := afterParen?_isSome hparen
      obtain ⟨rfl, rfl⟩ := List.cons.inj hcons
      obtain rfl : last' = some (c, some id) := by
        rcases hlast with h | ⟨⟨w, hw⟩, -⟩
        · exact h
        · exact absurd hw (by simp)
      by_cases hd : d = '('
      · subst hd
        show Beside _ _ ('(' :: (g ++ x)) ('(' :: (g ++ _))
        cases g with
        | nil => exact .fresh hid hstop
        | cons e g =>
            rw [← List.cons_append, ← List.cons_append]
            refine .apart List.mem_cons_self ?_ fun c' id' hc => ?_
            · rw [List.length_cons, List.length_cons]
              omega
            · obtain ⟨rfl, -⟩ := Prod.mk.inj (Option.some.inj hc)
              exact hstop.ge
      · show Beside _ _ ((d :: g) ++ x) ((d :: g) ++ _)
        refine .gap ?_ hid hstop
        -- another blank, so the parenthesis is behind it
        rw [afterParen?, if_neg hd] at hparen
        split at hparen
        · exact hparen
        · exact absurd hparen (by decide)

/-- What the form of a call is read from looks alike, and a known call does not end right before
it; or its parenthesis does. -/
theorem Beside.form {last : Option Entry} {w : List Char} {rest : List Lexeme}
    {before before' : List Char} (h : Beside last (.word w :: rest) before before') :
    (formBefore before' = formBefore before ∧
        ∀ c id, last = some (c, some id) → c.stop + 1 < byteLength before) ∨
      ∃ c id x y, last = some (c, some id) ∧ id.toList ≠ [] ∧ before = '(' :: x ∧
        byteLength x = c.stop ∧ before' = '(' :: (id.toList.reverse ++ y) := by
  cases h with
  | same hnone => exact Or.inl ⟨rfl, fun c id hlast => absurd hlast (hnone c id)⟩
  | @apart _ _ u x y hparen hlong hstop =>
      refine Or.inl ⟨formBefore_congr rfl _ _ hparen hlong, fun c id hlast => ?_⟩
      have hbytes := length_le_byteLength u
      have hback := hstop c id hlast
      rw [byteLength_append]
      omega
  | @fresh _ c id x y hid hstop => exact Or.inr ⟨c, id, x, y, rfl, hid, rfl, hstop, rfl⟩
  | gap hparen hid hstop => exact absurd hparen Bool.false_ne_true

theorem Beside.followsClass_eq {last : Option Entry} {w : List Char} {rest : List Lexeme}
    {before before' : List Char} (h : Beside last (.word w :: rest) before before') :
    followsClass before' = followsClass before := by
  cases h with
  | same hnone => rfl
  | apart hparen hlong hstop => exact followsClass_congr rfl rfl _ _ hparen
  | fresh hid hstop =>
      exact followsClass_congr (d := '(') rfl rfl _ _ (u := ['(']) List.mem_cons_self
  | gap hparen hid hstop => exact absurd hparen Bool.false_ne_true

/-- Before a known call both texts end in the same character. -/
theorem Beside.head {last : Option Entry} {rest : List Lexeme} {before before' : List Char}
    (h : Beside last rest before before') (hrest : afterParen? rest = none) :
    before'.head? = before.head? := by
  cases h with
  | same hnone => rfl
  | @apart _ _ u x y hparen hlong hstop =>
      obtain ⟨d, more, rfl⟩ := List.exists_cons_of_ne_nil (List.ne_nil_of_mem hparen)
      rfl
  | fresh hid hstop => rfl
  | gap hparen hid hstop =>
      rw [hrest] at hparen
      exact absurd hparen (by decide)

/-- Two reversed texts, a body and its qualified form, that look alike to the calls after them. -/
structure Alike (last : Option Entry) (rest : List Lexeme) (before before' : List Char) : Prop where
  beside : Beside last rest before before'
  /-- The lines begin alike, or neither is that of a definition, whatever follows. -/
  line : before'.takeWhile (· != '\n') = before.takeWhile (· != '\n') ∨
    isDefLine (lineAround before (textOf rest)) = false ∧
      ∀ t, isDefLine (lineAround before' t) = false
  lines : before'.count '\n' = before.count '\n'

theorem Alike.step {last last' : Option Entry} {l : Lexeme} {rest : List Lexeme}
    {before before' : List Char} (h : Alike last (l :: rest) before before') (hl : l.text ≠ [])
    (hlast : last' = last ∨ (∃ w, l = .word w) ∧ ∀ c id, last' ≠ some (c, some id)) :
    Alike last' rest (l.text.reverse ++ before) (l.text.reverse ++ before') := by
  refine ⟨h.beside.step hl hlast, ?_, ?_⟩
  · by_cases hline : '\n' ∈ l.text
    · -- a new line, so both begin alike
      left
      have hmem : '\n' ∈ l.text.reverse := List.mem_reverse.mpr hline
      rw [(takeWhile_within hmem rfl before').1, (takeWhile_within hmem rfl before).1]
    · rcases h.line with hsame | ⟨hsource, htarget⟩
      · left
        have hall : ∀ c ∈ l.text.reverse, (c != '\n') = true := by
          intro c hc
          rw [bne_iff_ne]
          rintro rfl
          exact hline (List.mem_reverse.mp hc)
        rw [List.takeWhile_append_of_pos hall, List.takeWhile_append_of_pos hall, hsame]
      · right
        constructor
        · rw [lineAround_append hline]
          exact hsource
        · intro t
          rw [lineAround_append hline]
          exact htarget _
  · rw [List.count_append, List.count_append, h.lines]

/-! ## Lines of the qualified body -/

/-- The characters of an id stand on one line, without blanks before the colon. -/
theorem ReadsAs.inLine {id : String} {file name : List Char} (h : ReadsAs id file name) :
    ' ' ∉ file ∧ '\n' ∉ id.toList := by
  have hfile : ∀ c ∈ file, InQualifier c := fun c hc =>
    inQualifier_of_not_boundary (h.file_plain c hc).1
  refine ⟨?_, ?_⟩
  · intro hblank
    exact absurd (hfile ' ' hblank).1 (by decide)
  · rw [h.text]
    intro hline
    obtain ⟨c, more, hname, hstart, hall⟩ := h.name_word
    have hname' : '\n' ∉ name := by
      rw [hname]
      intro hin
      rcases List.mem_cons.mp hin with rfl | hin
      · exact absurd hstart (by decide)
      · exact absurd (hall '\n' hin) (by decide)
    simp only [List.mem_append, List.mem_cons] at hline
    rcases hline with hin | hin | hin | hin
    · exact (hfile '\n' hin).2.2 rfl
    · exact absurd hin (by decide)
    · exact absurd hin (by decide)
    · exact hname' hin

/-- A called word is not on the line of a definition. -/
theorem isDefLine_of_candidate {before w : List Char} {rest : List Lexeme} {c : Candidate}
    (h : candidateAt before w rest = .ok (some c)) :
    isDefLine (lineAround before (w ++ textOf rest)) = false := by
  obtain ⟨hcalled, -⟩ := candidateAt_spec h
  exact (isCalled_iff.mp hcalled).2.2.1

/-- A called expression is not on the line of a definition. -/
theorem isDefLine_call {q rest : List Lexeme} {w before : List Char} {c : Candidate}
    (h : candidateAt ((textOf q).reverse ++ before) w rest = .ok (some c))
    (hreads : c.form.Reads (textOf q).reverse before) (hw : (Lexeme.word w).Shaped) :
    isDefLine (lineAround before (textOf (q ++ .word w :: rest))) = false := by
  have hline := call_inLine h hreads hw
  have hq : '\n' ∉ textOf q := fun hin => hline (List.mem_append_left _ hin)
  have hdef := isDefLine_of_candidate h
  rw [lineAround_append hq] at hdef
  rw [textOf_append, textOf_cons]
  exact hdef

/-- What begins no definition is followed by an id on no line of a definition. -/
theorem ReadsAs.isDefLine_eq {id : String} {file name before : List Char} (h : ReadsAs id file name)
    (hbefore : isDefLine (before.takeWhile (· != '\n')).reverse = false) (t : List Char) :
    isDefLine (lineAround before (id.toList ++ t)) = false := by
  obtain ⟨hblank, hline⟩ := h.inLine
  have hall : ∀ c ∈ id.toList, (c != '\n') = true := by
    intro c hc
    rw [bne_iff_ne]
    rintro rfl
    exact hline hc
  unfold lineAround
  rw [List.takeWhile_append_of_pos hall, h.text]
  by_contra hdef
  rw [Bool.not_eq_false, List.append_assoc, List.cons_append] at hdef
  rw [isDefLine_insert hblank hdef] at hbefore
  exact absurd hbefore (by decide)

/-- A line that does not define a function does not begin so. -/
theorem isDefLine_start {before after : List Char}
    (h : isDefLine (lineAround before after) = false) :
    isDefLine (before.takeWhile (· != '\n')).reverse = false := by
  by_contra hdef
  rw [Bool.not_eq_false] at hdef
  unfold lineAround at h
  rw [isDefLine_append hdef] at h
  exact absurd h (by decide)

/-- **A line defines a function in the qualified body when it does in the body.** -/
theorem Cut.isDefLine_shown {before : List Char} {ps : List Piece} {cs : List Entry}
    (h : Cut (scope.resolve? tree) [] before ps cs) (hids : AllReadable cs)
    (hs : Standing (sourceOf ps) []) :
    isDefLine (lineAround before (shownOf ps)) =
      isDefLine (lineAround before (textOf (sourceOf ps))) := by
  -- a lexeme that stands in both texts ends the line in both or belongs to it in both
  have hplain : ∀ {before : List Char} (l : Lexeme) (a b : List Char),
      isDefLine (lineAround (l.text.reverse ++ before) a) =
        isDefLine (lineAround (l.text.reverse ++ before) b) →
      isDefLine (lineAround before (l.text ++ a)) =
        isDefLine (lineAround before (l.text ++ b)) := by
    intro before l a b hab
    by_cases hline : '\n' ∈ l.text
    · rw [lineAround_within hline before a b]
    · rw [lineAround_append hline, lineAround_append hline] at hab
      exact hab
  induction h with
  | nil => rfl
  | @skip _ l ps cs hnone hrest ih =>
      obtain ⟨-, hsource⟩ := hs
      exact hplain l _ _ (ih hids hsource)
  | @unknown _ w ps cs c hfound hid hrest ih =>
      obtain ⟨-, hsource⟩ := hs
      exact hplain (.word w) _ _ (ih hids.tail hsource)
  | @known before w q id ps cs c hq hfound hreads hid hrest ih =>
      rw [sourceOf_call] at hs ⊢
      obtain ⟨-, hw, -⟩ := standing_append.mp hs
      rw [List.append_nil] at hfound
      have hsource := isDefLine_call hfound hreads hw.shaped_fits.1
      obtain ⟨file, name, hid'⟩ := hids c id List.mem_cons_self
      rw [hsource, shownOf_call]
      exact hid'.isDefLine_eq (isDefLine_start hsource) _

/-- Where the body defines no function on a line, the qualified body begins no definition there. -/
theorem Alike.isDefLine_before {last : Option Entry} {rest : List Lexeme}
    {before before' : List Char} (h : Alike last rest before before')
    (hline : isDefLine (lineAround before (textOf rest)) = false) :
    isDefLine (before'.takeWhile (· != '\n')).reverse = false := by
  rcases h.line with hsame | ⟨-, htarget⟩
  · rw [hsame]
    exact isDefLine_start hline
  · exact isDefLine_start (htarget [])

/-- Behind a known call, read as its id. -/
theorem Alike.call {last : Option Entry} {q rest : List Lexeme} {w before before' : List Char}
    {c : Candidate} {id : String} {file name : List Char}
    (h : Alike last (q ++ .word w :: rest) before before') (hid : ReadsAs id file name)
    (hfound : candidateAt ((textOf q).reverse ++ before) w rest = .ok (some c))
    (hreads : c.form.Reads (textOf q).reverse before) (hw : (Lexeme.word w).Shaped) :
    Alike (some (c, some id)) rest (w.reverse ++ ((textOf q).reverse ++ before))
      (id.toList.reverse ++ before') := by
  obtain ⟨hcalled, -, -, hstop, -⟩ := candidateAt_spec hfound
  obtain ⟨-, hidline⟩ := hid.inLine
  have hline := call_inLine hfound hreads hw
  have hqline : '\n' ∉ textOf q := fun hin => hline (List.mem_append_left _ hin)
  have hwline : '\n' ∉ w := fun hin => hline (List.mem_append_right _ hin)
  refine ⟨?_, Or.inr ⟨?_, fun t => ?_⟩, ?_⟩
  · apply Beside.gap (g := []) (isCalled_paren hcalled)
    · rw [hid.text]
      simp
    · show byteLength (w.reverse ++ ((textOf q).reverse ++ before)) = c.stop
      rw [hstop, byteLength_append w.reverse, byteLength_reverse w, Nat.add_comm]
  · rw [lineAround_append hwline]
    exact isDefLine_of_candidate hfound
  · rw [lineAround_append hidline]
    exact hid.isDefLine_eq (h.isDefLine_before (isDefLine_call hfound hreads hw)) t
  · have hzero : ∀ {t : List Char}, '\n' ∉ t → t.reverse.count '\n' = 0 := by
      intro t ht
      exact List.count_eq_zero.mpr fun hin => ht (List.mem_reverse.mp hin)
    rw [List.count_append, List.count_append, List.count_append, hzero hidline, hzero hqline,
      hzero hwline, h.lines]
    omega

/-! ## Candidates of the qualified body -/

/-- A parenthesis follows in the qualified body when it does in the body. -/
theorem Cut.afterParen?_target {before : List Char} {ps : List Piece} {cs : List Entry}
    (h : Cut (scope.resolve? tree) [] before ps cs) (hids : AllReadable cs) :
    (afterParen? (targetOf ps)).isSome = (afterParen? (sourceOf ps)).isSome := by
  induction h with
  | nil => rfl
  | @skip _ l ps cs hnone hrest ih =>
      rw [targetOf_plain, sourceOf_plain]
      cases l with
      | mark d =>
          rw [afterParen?, afterParen?]
          split
          · rfl
          · split
            · exact ih hids
            · rfl
      | comment t => rfl
      | literal t => rfl
      | number t => rfl
      | word t => rfl
  | unknown hfound hid hrest ih => rfl
  | @known _ w q id ps cs c hq hfound hreads hid hrest ih =>
      obtain ⟨file, name, hid'⟩ := hids c id List.mem_cons_self
      have hfile : Quiet (lexemes file) := by
        apply quiet_of_text
        rw [text_lexemes]
        exact fun d hd => (inQualifier_of_not_boundary (hid'.file_plain d hd).1).1
      rw [targetOf_call, sourceOf_call, hid'.lexemes_eq, List.append_assoc,
        afterParen?_quiet hq rfl, afterParen?_quiet hfile rfl]

/-- A word that is no known call is called in the qualified body when it is in the body. -/
theorem Alike.isCalled_eq {last : Option Entry} {w before before' : List Char} {ps : List Piece}
    {cs : List Entry} (h : Alike last (.word w :: sourceOf ps) before before')
    (hcut : Cut (scope.resolve? tree) [] before (.plain (.word w) :: ps) cs)
    (hids : AllReadable cs) (hs : Standing (.word w :: sourceOf ps) []) :
    isCalled before' w (targetOf ps) = isCalled before w (sourceOf ps) := by
  have hparen : (afterParen? (targetOf ps)).isSome = (afterParen? (sourceOf ps)).isSome := by
    cases hcut with
    | skip hnone hrest => exact hrest.afterParen?_target hids
    | unknown hfound hid hrest => exact hrest.afterParen?_target hids.tail
  have hline : isDefLine (lineAround before' (w ++ textOf (targetOf ps))) =
      isDefLine (lineAround before (w ++ textOf (sourceOf ps))) := by
    rw [text_target]
    rcases h.line with hsame | ⟨hsource, htarget⟩
    · have hshown : isDefLine (lineAround before (w ++ shownOf ps)) =
          isDefLine (lineAround before (w ++ textOf (sourceOf ps))) := hcut.isDefLine_shown hids hs
      rw [← hshown]
      unfold lineAround
      rw [hsame]
    · rw [htarget]
      exact hsource.symm
  unfold isCalled
  rw [hparen, hline, h.beside.followsClass_eq]

end ChangeScope.Call
