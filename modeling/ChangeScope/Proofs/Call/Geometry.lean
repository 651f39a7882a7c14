import ChangeScope.Call.Site
import ChangeScope.Proofs.Call.Qualifier

/-!
# Where candidates stand

A candidate spans the called expression as its form has it, and its line and column are those of the
name (`spans_of_scan`). Between two candidates stands the parenthesis of the first
(`apart_of_scan`), so no candidate covers another (`longestMatches_scan`).
-/

set_option autoImplicit false

namespace ChangeScope.Call

open ChangeScope.Text

/-! ## Spans -/

/-- What stands in front of a name that is called. -/
def Form.qualifier : Form → List Char
  | .bare => []
  | .attribute receiver => receiver.toList ++ ['.']
  | .qualified file => file.toList ++ [':', ':']

/-- The called expression of a candidate. -/
def Candidate.text (c : Candidate) : List Char := c.form.qualifier ++ c.name.toList

/-- A candidate behind a text in a body: it spans its called expression, and its line and column are
those of the name. -/
structure Candidate.Spans (c : Candidate) (body front : List Char) : Prop where
  text : front ++ c.text <+: body
  start_eq : c.start = byteLength front
  stop_eq : c.stop = byteLength (front ++ c.text)
  line : c.lineOffset = (front ++ c.form.qualifier).count '\n'
  column : c.column =
    byteLength ((front ++ c.form.qualifier).reverse.takeWhile (· != '\n')) + 1
  name_ne_nil : c.name.toList ≠ []
  inLine : '\n' ∉ c.text

theorem byteLength_pos {cs : List Char} (h : cs ≠ []) : 0 < byteLength cs :=
  (List.length_pos_iff.mpr h).trans_le (length_le_byteLength cs)

theorem Candidate.Spans.start_lt_stop {c : Candidate} {body front : List Char}
    (h : c.Spans body front) : c.start < c.stop := by
  have hname := byteLength_pos h.name_ne_nil
  rw [h.start_eq, h.stop_eq, Candidate.text, byteLength_append, byteLength_append]
  omega

theorem Form.Reads.qualifier_eq {form : Form} {qualifier rest : List Char}
    (h : form.Reads qualifier rest) : form.qualifier = qualifier.reverse := by
  match form, h with
  | .bare, h => rw [show qualifier = [] from h, List.reverse_nil, Form.qualifier]
  | .attribute _, ⟨chain, _, hqualifier, hreceiver, _⟩ =>
      rw [hqualifier, hreceiver, Form.qualifier, String.toList_ofList, List.reverse_cons]
  | .qualified _, ⟨path, hqualifier, hfile, _⟩ =>
      rw [hqualifier, hfile, Form.qualifier, String.toList_ofList, List.reverse_cons,
        List.reverse_cons, List.append_assoc]
      rfl

/-- **A candidate spans its called expression.** -/
theorem spans_of_scan {body : String} {cands : List Candidate} (hscan : scan body = .ok cands)
    {c : Candidate} (hc : c ∈ cands) : ∃ front, c.Spans body.toList front := by
  obtain ⟨front, w, rest, hlexemes, hfound⟩ := mem_scanFrom hscan hc
  rw [List.append_nil] at hfound
  obtain ⟨-, hname, hline, hstop, qualifier, before, htext, hstart, -, hreads, -⟩ :=
    candidateAt_spec hfound
  have hcolumn := candidateAt_column hfound
  -- the word of the name is one of the lexemes
  have hshaped : (Lexeme.word w).Shaped := by
    have hstanding := standing_lexemes body.toList
    rw [hlexemes] at hstanding
    exact (standing_append.mp hstanding).2.1.shaped_fits.1
  have hw : w ≠ [] := by
    obtain ⟨d, more, rfl, -⟩ := hshaped
    exact List.cons_ne_nil d more
  have hqualifier := hreads.qualifier_eq
  have hcall : c.text = qualifier.reverse ++ w := by
    rw [Candidate.text, hqualifier, hname, String.toList_ofList]
  have hinLine : '\n' ∉ c.text := by
    rw [hcall]
    rw [htext, ← List.reverse_reverse qualifier] at hfound
    exact call_inLine hfound ((List.reverse_reverse qualifier).symm ▸ hreads) hshaped
  have hbefore : before.reverse ++ c.form.qualifier = textOf front := by
    rw [hqualifier, ← List.reverse_append, ← htext, List.reverse_reverse]
  have hbody : body.toList = (before.reverse ++ c.text) ++ textOf rest := by
    rw [← text_lexemes body.toList, hlexemes, textOf_append, textOf_cons, ← hbefore, hcall,
      hqualifier]
    simp [Lexeme.text]
  refine ⟨before.reverse, ?_, ?_, ?_, ?_, ?_, ?_, hinLine⟩
  · rw [hbody]
    exact List.prefix_append _ _
  · rw [hstart, byteLength_reverse]
  · rw [hstop, hcall, ← List.append_assoc, ← List.reverse_append, ← htext, List.reverse_reverse,
      byteLength_append, byteLength_reverse]
  · rw [hbefore, hline, List.count_reverse]
  · rw [hbefore, hcolumn]
  · rw [hname, String.toList_ofList]
    exact hw

/-! ## Gaps -/

/-- Behind the name of one candidate stand blanks and its parenthesis, and somewhere behind that the
other candidate begins. -/
def Candidate.Before (a b : Candidate) (body : List Char) : Prop :=
  ∃ front gap inside, front ++ gap ++ '(' :: inside <+: body ∧ (∀ c ∈ gap, isGap c = true) ∧
    a.stop = byteLength front ∧ b.start = byteLength (front ++ gap ++ '(' :: inside)

theorem Candidate.Before.stop_lt_start {a b : Candidate} {body : List Char}
    (h : a.Before b body) : a.stop < b.start := by
  obtain ⟨front, gap, inside, -, -, hstop, hstart⟩ := h
  have hparen := byteLength_pos (List.cons_ne_nil '(' inside)
  rw [hstop, hstart, byteLength_append, byteLength_append]
  omega

/-- Before the parenthesis of a call stand only blanks. -/
theorem afterParen?_split {rest inside : List Lexeme} (h : afterParen? rest = some inside) :
    ∃ gap : List Char, rest = gap.map .mark ++ .mark '(' :: inside ∧ ∀ c ∈ gap, isGap c = true := by
  induction rest with
  | nil => exact absurd h (by simp [afterParen?])
  | cons l rest ih =>
      cases l with
      | mark c =>
          rw [afterParen?] at h
          by_cases hparen : c = '('
          · rw [if_pos hparen, Option.some.injEq] at h
            exact ⟨[], by rw [hparen, h]; rfl, fun d hd => absurd hd List.not_mem_nil⟩
          · rw [if_neg hparen] at h
            by_cases hgap : isGap c = true
            · rw [if_pos hgap] at h
              obtain ⟨gap, rfl, hall⟩ := ih h
              refine ⟨c :: gap, rfl, fun d hd => ?_⟩
              rcases List.mem_cons.mp hd with rfl | hd
              · exact hgap
              · exact hall d hd
            · exact absurd h (by simp [hgap])
      | comment t => exact absurd h (by simp [afterParen?])
      | literal t => exact absurd h (by simp [afterParen?])
      | number t => exact absurd h (by simp [afterParen?])
      | word t => exact absurd h (by simp [afterParen?])

theorem textOf_marks (cs : List Char) : textOf (cs.map .mark) = cs := by
  induction cs with
  | nil => rfl
  | cons c cs ih =>
      rw [List.map_cons, textOf_cons, ih]
      rfl

/-- Among lexemes that open with a parenthesis behind blanks, a word stands behind it. -/
theorem split_behind_paren {front rest inside : List Lexeme} {w gap : List Char}
    (h : front ++ .word w :: rest = gap.map .mark ++ .mark '(' :: inside) :
    ∃ skipped, front = gap.map .mark ++ .mark '(' :: skipped ∧
      inside = skipped ++ .word w :: rest := by
  rcases List.append_eq_append_iff.mp h with ⟨middle, hmarks, hword⟩ | ⟨middle, rfl, hparen⟩
  · cases middle with
    | nil => exact absurd (List.cons.inj hword).1 (by simp)
    | cons l middle =>
        obtain ⟨rfl, -⟩ := List.cons.inj hword
        have hmark : Lexeme.word w ∈ gap.map Lexeme.mark := by
          rw [hmarks]
          exact List.mem_append_right front List.mem_cons_self
        obtain ⟨c, -, hc⟩ := List.mem_map.mp hmark
        cases hc
  · cases middle with
    | nil => exact absurd (List.cons.inj hparen).1 (by simp)
    | cons l middle =>
        obtain ⟨rfl, hinside⟩ := List.cons.inj hparen
        exact ⟨middle, rfl, hinside⟩

/-- A parenthesis behind a word comes before the words that follow. -/
theorem afterParen?_front {front rest : List Lexeme} {w : List Char}
    (h : (afterParen? (front ++ .word w :: rest)).isSome = true) :
    ∃ gap inside, textOf front = gap ++ '(' :: textOf inside ∧ ∀ c ∈ gap, isGap c = true := by
  obtain ⟨behind, hbehind⟩ := Option.isSome_iff_exists.mp h
  obtain ⟨gap, hsplit, hgap⟩ := afterParen?_split hbehind
  obtain ⟨skipped, rfl, -⟩ := split_behind_paren hsplit
  refine ⟨gap, skipped, ?_, hgap⟩
  rw [textOf_append, textOf_marks, textOf_cons]
  rfl

/-- A candidate found in the rest of a text begins behind the parenthesis of the one before. -/
theorem before_of_mem_scanFrom {before w : List Char} {ls : List Lexeme} {a b : Candidate}
    {others : List Candidate} (hhere : candidateAt before w ls = .ok (some a))
    (hothers : scanFrom (w.reverse ++ before) ls = .ok others) (hb : b ∈ others) :
    a.Before b (before.reverse ++ (w ++ textOf ls)) := by
  obtain ⟨hcalled, -, -, hstop, -⟩ := candidateAt_spec hhere
  obtain ⟨front, w', rest, rfl, hfound⟩ := mem_scanFrom hothers hb
  obtain ⟨gap, inside, hfront, hgap⟩ := afterParen?_front (isCalled_paren hcalled)
  -- the other name is read back to the parenthesis at most
  rw [hfront, List.reverse_append, List.reverse_cons, List.append_assoc, List.append_assoc,
    List.singleton_append] at hfound
  obtain ⟨back, ⟨chain, hchain⟩, hstart⟩ := candidateAt_start_behind hfound rfl
  have hinside : textOf inside = back.reverse ++ chain.reverse := by
    rw [← List.reverse_append, hchain, List.reverse_reverse]
  refine ⟨before.reverse ++ w, gap, back.reverse, ?_, hgap, ?_, ?_⟩
  · refine ⟨chain.reverse ++ (w' ++ textOf rest), ?_⟩
    rw [textOf_append, hfront, hinside, textOf_cons]
    simp [Lexeme.text]
  · rw [hstop, byteLength_append, byteLength_reverse]
  · rw [hstart]
    simp only [byteLength_append, byteLength_cons, byteLength_reverse]
    omega

/-- What holds of a candidate and each one that is found behind it holds of the candidates in
order. -/
theorem pairwise_of_scanFrom {R : Candidate → Candidate → Prop} (ls : List Lexeme) :
    ∀ {before : List Char} {cands : List Candidate},
      (∀ front w rest a others b, ls = front ++ .word w :: rest →
        candidateAt ((textOf front).reverse ++ before) w rest = .ok (some a) →
        scanFrom (w.reverse ++ ((textOf front).reverse ++ before)) rest = .ok others →
        b ∈ others → R a b) →
      scanFrom before ls = .ok cands → cands.Pairwise R := by
  induction ls with
  | nil =>
      intro before cands _ hscan
      obtain rfl := Except.ok.inj hscan
      exact List.Pairwise.nil
  | cons l ls ih =>
      intro before cands hR hscan
      -- a pair of later candidates is one behind a longer front
      have hlater : ∀ {cands' : List Candidate},
          scanFrom (l.text.reverse ++ before) ls = .ok cands' → cands'.Pairwise R := by
        refine ih fun front w rest a others b hls hhere hothers hb => ?_
        refine hR (l :: front) w rest a others b (by rw [hls, List.cons_append]) ?_ ?_ hb
        · rwa [textOf_cons, List.reverse_append, List.append_assoc]
        · rwa [textOf_cons, List.reverse_append, List.append_assoc]
      by_cases hl : ∃ w, l = .word w
      · obtain ⟨w, rfl⟩ := hl
        rw [scanFrom_word] at hscan
        obtain ⟨here, hhere, hscan⟩ := ok_of_bind hscan
        obtain ⟨others, hothers, rfl⟩ := ok_of_map hscan
        refine List.pairwise_append.mpr ⟨?_, hlater hothers, ?_⟩
        · cases here with
          | none => exact List.Pairwise.nil
          | some a => exact List.pairwise_singleton _ a
        · intro a ha b hb
          rw [Option.mem_toList] at ha
          rw [Option.mem_def.mp ha] at hhere
          exact hR [] w ls a others b rfl hhere hothers hb
      · rw [scanFrom_other before fun w hw => hl ⟨w, hw⟩] at hscan
        exact hlater hscan

/-- **Candidates follow one another, each behind the parenthesis of the one before.** -/
theorem apart_of_scanFrom {body : List Char} (ls : List Lexeme) {before : List Char}
    {cands : List Candidate} (hbody : before.reverse ++ textOf ls = body)
    (hscan : scanFrom before ls = .ok cands) : cands.Pairwise fun a b => a.Before b body := by
  refine pairwise_of_scanFrom ls (fun front w rest a others b hls hhere hothers hb => ?_) hscan
  have hbefore := before_of_mem_scanFrom hhere hothers hb
  rw [List.reverse_append, List.reverse_reverse, List.append_assoc] at hbefore
  rwa [← hbody, hls, textOf_append, textOf_cons]

theorem apart_of_scan {body : String} {cands : List Candidate} (hscan : scan body = .ok cands) :
    cands.Pairwise fun a b => a.Before b body.toList := by
  refine apart_of_scanFrom (lexemes body.toList) ?_ hscan
  exact text_lexemes body.toList

/-! ## No candidate covers another -/

/-- Candidates that lie apart do not cover each other. -/
theorem longestMatches_ordered {cands : List Candidate}
    (hapart : cands.Pairwise fun a b => a.stop < b.start)
    (hforward : ∀ c ∈ cands, c.start ≤ c.stop) : longestMatches cands = cands := by
  have hpairs : ∀ a ∈ cands, ∀ b ∈ cands, a ≠ b → a.stop < b.start ∨ b.stop < a.start := by
    have hsymm : cands.Pairwise fun a b : Candidate => a.stop < b.start ∨ b.stop < a.start :=
      hapart.imp fun hab => Or.inl hab
    have : Std.Symm fun a b : Candidate => a.stop < b.start ∨ b.stop < a.start :=
      ⟨fun _ _ hab => hab.symm⟩
    intro a ha b hb hab
    exact hsymm.forall ha hb hab
  refine List.filter_eq_self.mpr fun c hc => ?_
  rw [Bool.not_eq_true', List.any_eq_false]
  intro other hother hcovered
  simp only [Candidate.isCoveredBy, Bool.and_eq_true, decide_eq_true_eq] at hcovered
  obtain ⟨⟨⟨-, hstart⟩, hstop⟩, hshort⟩ := hcovered
  have hcs := hforward c hc
  have hos := hforward other hother
  by_cases hsame : c = other
  · subst hsame
    omega
  · rcases hpairs c hc other hother hsame with hbefore | hbefore <;> omega

theorem longestMatches_scan {body : String} {cands : List Candidate}
    (hscan : scan body = .ok cands) : longestMatches cands = cands := by
  refine longestMatches_ordered ((apart_of_scan hscan).imp fun h => h.stop_lt_start) ?_
  intro c hc
  obtain ⟨front, hspan⟩ := spans_of_scan hscan hc
  exact hspan.start_lt_stop.le

end ChangeScope.Call
