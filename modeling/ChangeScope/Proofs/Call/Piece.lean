import ChangeScope.Proofs.Call.Geometry

/-!
# A body cut at its known calls

The lexemes of a body fall apart into the called expressions that are known and the lexemes
between them (`exists_cut`), and the qualified body has the ids in their places (`render_cut`).
-/

set_option autoImplicit false

namespace ChangeScope.Call

open ChangeScope.Text

/-- A lexeme, or a called expression with its id. -/
inductive Piece where
  | plain (l : Lexeme)
  | call (qualifier : List Lexeme) (name : List Char) (id : String)

/-- The lexemes of a piece in the body. -/
def Piece.source : Piece → List Lexeme
  | .plain l => [l]
  | .call qualifier name _ => qualifier ++ [.word name]

/-- The text of a piece in the qualified body. -/
def Piece.shown : Piece → List Char
  | .plain l => l.text
  | .call _ _ id => id.toList

/-- The lexemes of pieces in the body. -/
def sourceOf (ps : List Piece) : List Lexeme := ps.flatMap Piece.source

/-- The text of pieces in the qualified body. -/
def shownOf (ps : List Piece) : List Char := ps.flatMap Piece.shown

@[simp] theorem sourceOf_nil : sourceOf [] = [] := rfl

@[simp] theorem sourceOf_plain (l : Lexeme) (ps : List Piece) :
    sourceOf (.plain l :: ps) = l :: sourceOf ps := rfl

@[simp] theorem sourceOf_call (q : List Lexeme) (w : List Char) (id : String) (ps : List Piece) :
    sourceOf (.call q w id :: ps) = q ++ .word w :: sourceOf ps := by
  show (q ++ [.word w]) ++ sourceOf ps = _
  rw [List.append_assoc, List.singleton_append]

@[simp] theorem sourceOf_append (a b : List Piece) :
    sourceOf (a ++ b) = sourceOf a ++ sourceOf b := List.flatMap_append

@[simp] theorem shownOf_nil : shownOf [] = [] := rfl

@[simp] theorem shownOf_plain (l : Lexeme) (ps : List Piece) :
    shownOf (.plain l :: ps) = l.text ++ shownOf ps := rfl

@[simp] theorem shownOf_call (q : List Lexeme) (w : List Char) (id : String) (ps : List Piece) :
    shownOf (.call q w id :: ps) = id.toList ++ shownOf ps := rfl

/-- A candidate with the id of the function that it calls, if that is known. -/
abbrev Entry := Candidate × Option String

/-- The pieces, read after a reversed text and before other lexemes, are cut at the candidates that
are known. -/
inductive Cut (resolve : Candidate → Option String) (after : List Lexeme) :
    List Char → List Piece → List Entry → Prop
  | nil {before : List Char} : Cut resolve after before [] []
  | skip {before : List Char} {l : Lexeme} {ps : List Piece} {cs : List Entry}
      (hnone : ∀ w, l = .word w → candidateAt before w (sourceOf ps ++ after) = .ok none)
      (hrest : Cut resolve after (l.text.reverse ++ before) ps cs) :
      Cut resolve after before (.plain l :: ps) cs
  | unknown {before w : List Char} {ps : List Piece} {cs : List Entry} {c : Candidate}
      (hfound : candidateAt before w (sourceOf ps ++ after) = .ok (some c))
      (hid : resolve c = none)
      (hrest : Cut resolve after (w.reverse ++ before) ps cs) :
      Cut resolve after before (.plain (.word w) :: ps) ((c, none) :: cs)
  | known {before w : List Char} {q : List Lexeme} {id : String} {ps : List Piece}
      {cs : List Entry} {c : Candidate} (hq : Quiet q)
      (hfound : candidateAt ((textOf q).reverse ++ before) w (sourceOf ps ++ after) = .ok (some c))
      (hreads : c.form.Reads (textOf q).reverse before)
      (hid : resolve c = some id)
      (hrest : Cut resolve after (w.reverse ++ ((textOf q).reverse ++ before)) ps cs) :
      Cut resolve after before (.call q w id :: ps) ((c, some id) :: cs)

variable {resolve : Candidate → Option String} {after : List Lexeme}

theorem Cut.append {before : List Char} {a b : List Piece} {as bs : List Entry}
    (ha : Cut resolve (sourceOf b ++ after) before a as)
    (hb : Cut resolve after ((textOf (sourceOf a)).reverse ++ before) b bs) :
    Cut resolve after before (a ++ b) (as ++ bs) := by
  induction ha with
  | nil => exact hb
  | skip hnone hrest ih =>
      rw [List.cons_append]
      refine .skip ?_ (ih ?_)
      · intro w hw
        rw [sourceOf_append, List.append_assoc]
        exact hnone w hw
      · rw [sourceOf_plain, textOf_cons, List.reverse_append, List.append_assoc] at hb
        exact hb
  | unknown hfound hid hrest ih =>
      rw [List.cons_append, List.cons_append]
      refine .unknown ?_ hid (ih ?_)
      · rw [sourceOf_append, List.append_assoc]
        exact hfound
      · rw [sourceOf_plain, textOf_cons, List.reverse_append, List.append_assoc] at hb
        exact hb
  | known hq hfound hreads hid hrest ih =>
      rw [List.cons_append, List.cons_append]
      refine .known hq ?_ hreads hid (ih ?_)
      · rw [sourceOf_append, List.append_assoc]
        exact hfound
      · rw [sourceOf_call, textOf_append, textOf_cons, List.reverse_append, List.reverse_append,
          List.append_assoc, List.append_assoc] at hb
        exact hb

/-- Text without blanks and parentheses has quiet lexemes. -/
theorem quiet_of_text {ls : List Lexeme} (h : ∀ c ∈ textOf ls, isBreak c = false) : Quiet ls := by
  intro c hc
  refine h c (List.mem_flatMap.mpr ⟨.mark c, hc, List.mem_singleton.mpr rfl⟩)

/-- The qualifier of a word is made of whole lexemes. -/
theorem exists_qualifier {ls : List Lexeme} {w : List Char} {rest : List Char}
    (h : Standing ls (w ++ rest)) (hw : (Lexeme.word w).Stands rest) {qualifier before : List Char}
    (htext : (textOf ls).reverse = qualifier ++ before) {form : Form}
    (hreads : form.Reads qualifier before) (hall : ∀ d ∈ qualifier, InQualifier d) :
    ∃ ds q, ls = ds ++ q ∧ textOf ds = before.reverse ∧ (textOf q).reverse = qualifier ∧
      Quiet q := by
  have hsplit : textOf ls = before.reverse ++ qualifier.reverse := by
    rw [← List.reverse_append, ← htext, List.reverse_reverse]
  by_cases hempty : qualifier = []
  · subst hempty
    rw [List.reverse_nil, List.append_nil] at hsplit
    exact ⟨ls, [], (List.append_nil ls).symm, hsplit, rfl, fun c hc => absurd hc List.not_mem_nil⟩
  · obtain ⟨⟨d, more, rfl, hstart, -⟩, -⟩ := hw.shaped_fits
    have hpart : isWordPart d = true := by rw [isWordPart, hstart, Bool.true_or]
    have hbefore : ∀ c, before.reverse.getLast? = some c → isNumberPart c = false := by
      intro c hc
      rw [List.getLast?_reverse] at hc
      exact hreads.next hempty hc
    have hinner : ∀ c ∈ qualifier.reverse, isQuote c = false ∧ c ≠ '\n' := by
      intro c hc
      obtain ⟨-, hquote, hline⟩ := hall c (List.mem_reverse.mp hc)
      exact ⟨hquote, hline⟩
    obtain ⟨ds, q, rfl, hds, hq⟩ := standing_cut h (d := d) rfl hpart hsplit hbefore hinner
    refine ⟨ds, q, rfl, hds, by rw [hq, List.reverse_reverse], quiet_of_text fun c hc => ?_⟩
    rw [hq] at hc
    exact (hall c (List.mem_reverse.mp hc)).1

theorem scanPart_concat_word (after front : List Lexeme) (w : List Char) :
    scanPart after [] (front ++ [.word w]) =
      (scanPart (.word w :: after) [] front).bind fun found =>
        (candidateAt (textOf front).reverse w after).map (found ++ ·.toList) := by
  rw [scanPart_append, List.append_nil, List.singleton_append]
  congr 1
  funext found
  rw [scanPart, List.nil_append]
  cases candidateAt (textOf front).reverse w after with
  | error e => rfl
  | ok here =>
      show Except.ok (found ++ (here.toList ++ [])) = _
      rw [List.append_nil]
      rfl

theorem scanPart_concat_other (after front : List Lexeme) {l : Lexeme} (hl : ∀ w, l ≠ .word w) :
    scanPart after [] (front ++ [l]) = scanPart (l :: after) [] front := by
  rw [scanPart_append, List.singleton_append]
  cases scanPart (l :: after) [] front with
  | error e => rfl
  | ok found =>
      show (scanPart after _ [l]).map (found ++ ·) = _
      rw [scanPart_other after _ hl]
      show Except.ok (found ++ []) = _
      rw [List.append_nil]

/-- The qualifier of a called word is made of the last lexemes before it, which are no calls. -/
theorem exists_call_qualifier {after front : List Lexeme} {w : List Char} {c : Candidate}
    {found : List Candidate} (hstanding : Standing (front ++ .word w :: after) [])
    (hscan : scanPart (.word w :: after) [] front = .ok found)
    (hat : candidateAt (textOf front).reverse w after = .ok (some c)) :
    ∃ ds q, front = ds ++ q ∧ Quiet q ∧ c.form.Reads (textOf q).reverse (textOf ds).reverse ∧
      scanPart (q ++ .word w :: after) [] ds = .ok found := by
  obtain ⟨-, -, -, -, qualifier, rest', htext, -, hall, hreads, -⟩ := candidateAt_spec hat
  obtain ⟨hfront, hword, -⟩ := standing_append.mp hstanding
  rw [List.append_nil] at hfront hword
  obtain ⟨ds, q, rfl, hds, hq, hquiet⟩ := exists_qualifier hfront hword htext hreads hall
  rw [scanPart_append, scanPart_quiet rfl hquiet] at hscan
  obtain ⟨found', hfound, hsame⟩ := ok_of_bind hscan
  have hsame : found' ++ [] = found := Except.ok.inj hsame
  rw [List.append_nil] at hsame
  refine ⟨ds, q, rfl, hquiet, ?_, by rw [hfound, hsame]⟩
  rw [hq, hds, List.reverse_reverse]
  exact hreads

/-- A word that is no known call is a piece of its own. -/
theorem Cut.of_word {before w : List Char} {here : Option Candidate}
    (hat : candidateAt before w after = .ok here)
    (hid : ∀ c id, here = some c → resolve c ≠ some id) :
    Cut resolve after before [.plain (.word w)] (here.toList.map fun c => (c, resolve c)) := by
  cases here with
  | none =>
      refine .skip ?_ .nil
      rintro w' hw'
      cases hw'
      exact hat
  | some c =>
      have hnone : resolve c = none := by
        cases hresolve : resolve c with
        | none => rfl
        | some id => exact absurd hresolve (hid c id rfl)
      show Cut resolve after before _ [(c, resolve c)]
      rw [hnone]
      exact .unknown hat hnone .nil

/-- **The lexemes of a body fall apart into pieces.** -/
theorem exists_cut (resolve : Candidate → Option String) (ls : List Lexeme) :
    ∀ {after : List Lexeme} {cands : List Candidate}, Standing (ls ++ after) [] →
      scanPart after [] ls = .ok cands →
        ∃ ps, sourceOf ps = ls ∧ Cut resolve after [] ps (cands.map fun c => (c, resolve c)) := by
  -- from the end, as a known call takes the lexemes of its qualifier along
  induction hn : ls.length using Nat.strong_induction_on generalizing ls with
  | _ n ih =>
      intro after cands hstanding hscan
      rcases List.eq_nil_or_concat' ls with rfl | ⟨front, l, rfl⟩
      · cases hscan
        exact ⟨[], rfl, .nil⟩
      · rw [List.length_append, List.length_singleton] at hn
        rw [List.append_assoc, List.singleton_append] at hstanding
        by_cases hl : ∃ w, l = .word w
        · obtain ⟨w, rfl⟩ := hl
          rw [scanPart_concat_word] at hscan
          obtain ⟨found, hx, hscan⟩ := ok_of_bind hscan
          obtain ⟨here, hat, rfl⟩ := ok_of_map hscan
          rw [List.map_append]
          by_cases hid : ∃ c id, here = some c ∧ resolve c = some id
          · obtain ⟨c, id, rfl, hid⟩ := hid
            obtain ⟨ds, q, rfl, hquiet, hreads, hfound⟩ := exists_call_qualifier hstanding hx hat
            rw [List.append_assoc] at hstanding
            rw [List.length_append] at hn
            obtain ⟨ps, rfl, hcut⟩ := ih _ (by omega) ds rfl hstanding hfound
            refine ⟨ps ++ [.call q w id], by simp, ?_⟩
            show Cut resolve after [] _ (_ ++ [(c, resolve c)])
            rw [hid]
            refine Cut.append ?_ (.known hquiet ?_ ?_ hid .nil)
            · rw [sourceOf_call, sourceOf_nil, List.append_assoc]
              exact hcut
            · rw [textOf_append, List.reverse_append] at hat
              rw [List.append_nil]
              exact hat
            · rw [List.append_nil]
              exact hreads
          · obtain ⟨ps, rfl, hcut⟩ := ih _ (by omega) front rfl hstanding hx
            refine ⟨ps ++ [.plain (.word w)], by simp, hcut.append ?_⟩
            rw [List.append_nil]
            exact Cut.of_word hat fun c id hc hresolve => hid ⟨c, id, hc, hresolve⟩
        · have hl : ∀ w, l ≠ .word w := fun w hw => hl ⟨w, hw⟩
          rw [scanPart_concat_other after front hl] at hscan
          obtain ⟨ps, rfl, hcut⟩ := ih _ (by omega) front rfl hstanding hscan
          refine ⟨ps ++ [.plain l], by simp, ?_⟩
          rw [← List.append_nil (List.map _ cands)]
          exact hcut.append (.skip (fun w hw => absurd hw (hl w)) .nil)

/-! ## Rendering -/

/-- A known candidate of pieces begins where they do, or later. -/
theorem Cut.start_ge {before : List Char} {ps : List Piece} {cs : List Entry}
    (h : Cut resolve after before ps cs) {c : Candidate} {id : String}
    (hc : (c, some id) ∈ cs) : byteLength before ≤ c.start := by
  induction h with
  | nil => exact absurd hc List.not_mem_nil
  | skip hnone hrest ih =>
      have hlater := ih hc
      rw [byteLength_append] at hlater
      omega
  | unknown hfound hid hrest ih =>
      have hlater := ih ((List.mem_cons.mp hc).resolve_left (by simp))
      rw [byteLength_append] at hlater
      omega
  | known hq hfound hreads hid hrest ih =>
      rcases List.mem_cons.mp hc with heq | hc
      · obtain ⟨rfl, -⟩ := Prod.mk.inj heq
        exact (candidateAt_start hfound hreads).ge
      · have hlater := ih hc
        rw [byteLength_append, byteLength_append] at hlater
        omega

/-- Text before all known candidates is left as it is. -/
theorem render_skip (offset : Nat) (skipped rest : List Char) {cs : List Entry}
    (h : ∀ c id, (c, some id) ∈ cs → offset + byteLength skipped ≤ c.start) :
    render offset (skipped ++ rest) cs =
      skipped ++ render (offset + byteLength skipped) rest cs := by
  induction cs with
  | nil => rfl
  | cons entry cs ih =>
      obtain ⟨c, found⟩ := entry
      cases found with
      | none =>
          rw [render, render]
          exact ih fun c id hc => h c id (List.mem_cons_of_mem _ hc)
      | some id =>
          have hstart := h c id List.mem_cons_self
          have hsplit : c.start - offset =
              byteLength skipped + (c.start - (offset + byteLength skipped)) := by omega
          rw [render, render, if_pos (by omega), if_pos hstart, hsplit, splitAtByte?_add]
          cases splitAtByte? (c.start - (offset + byteLength skipped)) rest with
          | none => rfl
          | some parts =>
              obtain ⟨front, back⟩ := parts
              simp only [Option.map_some]
              cases splitAtByte? (c.stop - c.start) back with
              | none => rfl
              | some parts => simp only [List.append_assoc]

/-- **The qualified body has the ids in the places of the calls.** -/
theorem render_cut {before : List Char} {ps : List Piece} {cs : List Entry}
    (h : Cut resolve after before ps cs) (tail : List Char) :
    render (byteLength before) (textOf (sourceOf ps) ++ tail) cs = shownOf ps ++ tail := by
  -- the offset at which rendering goes on is the width of the text before the cut
  induction h with
  | nil => rfl
  | @skip before l ps cs hnone hrest ih =>
      have hlength : byteLength (l.text.reverse ++ before) =
          byteLength before + byteLength l.text := by
        rw [byteLength_append, byteLength_reverse, Nat.add_comm]
      rw [hlength] at ih
      rw [sourceOf_plain, textOf_cons, shownOf_plain, List.append_assoc, List.append_assoc,
        render_skip _ l.text, ih]
      intro c id hc
      rw [← hlength]
      exact hrest.start_ge hc
  | @unknown before w ps cs c hfound hid hrest ih =>
      have hlength : byteLength (w.reverse ++ before) = byteLength before + byteLength w := by
        rw [byteLength_append, byteLength_reverse, Nat.add_comm]
      rw [hlength] at ih
      rw [render, sourceOf_plain, textOf_cons, shownOf_plain, List.append_assoc, List.append_assoc]
      show render _ (w ++ _) cs = w ++ _
      rw [render_skip _ w, ih]
      intro c id hc
      rw [← hlength]
      exact hrest.start_ge hc
  | @known before w q id ps cs c hq hfound hreads hid hrest ih =>
      obtain ⟨-, -, -, hstop, -⟩ := candidateAt_spec hfound
      have hstart := candidateAt_start hfound hreads
      have hwidth : c.stop - c.start = byteLength (textOf q ++ w) := by
        rw [hstop, hstart, byteLength_append, byteLength_reverse, byteLength_append]
        omega
      have hnext : c.stop = byteLength (w.reverse ++ ((textOf q).reverse ++ before)) := by
        rw [hstop, byteLength_append, byteLength_append, byteLength_append, byteLength_reverse,
          byteLength_reverse]
        omega
      have htext : textOf (sourceOf (.call q w id :: ps)) ++ tail =
          (textOf q ++ w) ++ (textOf (sourceOf ps) ++ tail) := by
        rw [sourceOf_call, textOf_call, List.append_assoc]
      rw [htext, render, if_pos hstart.ge, hstart, Nat.sub_self, splitAtByte?]
      simp only
      rw [← hstart, hwidth, splitAtByte?_append]
      simp only
      rw [hnext, ih, shownOf_call, List.nil_append, List.append_assoc]

/-- Behind a called word the pieces go on with a blank or the parenthesis. -/
theorem Cut.after_call {before : List Char} {ps : List Piece} {cs : List Entry}
    (h : Cut resolve after before ps cs)
    (hparen : (afterParen? (sourceOf ps ++ after)).isSome = true) :
    (ps = [] ∧ cs = []) ∨ ∃ d ps', ps = .plain (.mark d) :: ps' ∧ isBreak d = true ∧
      Cut resolve after (d :: before) ps' cs := by
  obtain ⟨d, more, hcons, hd⟩ := afterParen?_isSome hparen
  cases h with
  | nil => exact Or.inl ⟨rfl, rfl⟩
  | skip hnone hrest =>
      obtain ⟨rfl, -⟩ := List.cons.inj hcons
      exact Or.inr ⟨d, _, rfl, hd, hrest⟩
  | unknown hfound hid hrest =>
      obtain ⟨hword, -⟩ := List.cons.inj hcons
      exact absurd hword (by simp)
  | @known _ w q id ps cs c hq hfound hreads hid hrest =>
      rw [sourceOf_call, List.append_assoc] at hcons
      cases q with
      | nil =>
          obtain ⟨hword, -⟩ := List.cons.inj hcons
          exact absurd hword (by simp)
      | cons l q =>
          obtain ⟨rfl, -⟩ := List.cons.inj hcons
          rw [hq d List.mem_cons_self] at hd
          exact absurd hd (by decide)

/-! ## Qualification -/

/-- **Qualification succeeds when the scan does, and cuts the body at its known calls.** -/
theorem qualify_cut (tree : FileTree) (scope : Scope) (startLine : Nat) {body : String}
    {cands : List Candidate} (hscan : scan body = .ok cands) :
    ∃ ps, sourceOf ps = lexemes body.toList ∧
      Cut (scope.resolve? tree) [] [] ps (cands.map fun c => (c, scope.resolve? tree c)) ∧
      qualify tree scope startLine body =
        .ok (cands.map fun c => c.site startLine (scope.resolve? tree c),
          String.ofList (shownOf ps)) := by
  have hpart : scanPart [] [] (lexemes body.toList) = .ok cands := by
    rw [scanPart_nil]
    exact hscan
  have hstanding : Standing (lexemes body.toList ++ []) [] := by
    rw [List.append_nil]
    exact standing_lexemes _
  obtain ⟨ps, hsource, hcut⟩ := exists_cut (scope.resolve? tree) _ hstanding hpart
  refine ⟨ps, hsource, hcut, ?_⟩
  have hrender := render_cut hcut []
  rw [hsource, text_lexemes, List.append_nil, List.append_nil] at hrender
  unfold qualify
  rw [hscan]
  show Except.ok (_, String.ofList (render 0 body.toList _)) = _
  rw [longestMatches_scan hscan, List.map_map]
  exact congrArg (fun text => Except.ok (_, String.ofList text)) hrender

end ChangeScope.Call
