import ChangeScope.Proofs.Call.Splitting

/-!
# Arguments of closed calls

The arguments of a closed call consist of lexemes of the body, so the commas between them are told
by the lexemes of the whole body. The cut at commas passes over each lexeme to where the lexeme
tells, unless it is a comment, a literal that is not closed, or one that holds its own quote
(`cutAtCommas_tame`). Main statement: `arguments_of_closed_call`.
-/

set_option autoImplicit false

namespace ChangeScope.Call

open ChangeScope.Text

/-! ## Texts that are passed over -/

/-- The cut passes over a text, from one position to another, and is nowhere in it. -/
def Passes (position : Position) (text : List Char) (next : Position) : Prop :=
  ∀ after, cutAtCommas position (text ++ after) =
    (cutAtCommas next after).modifyHead (text ++ ·)

theorem Passes.nil (position : Position) : Passes position [] position := by
  intro after
  rw [List.nil_append]
  cases cutAtCommas position after <;> rfl

theorem Passes.append {p q r : Position} {a b : List Char} (ha : Passes p a q) (hb : Passes q b r) :
    Passes p (a ++ b) r := by
  intro after
  rw [List.append_assoc, ha, hb, List.modifyHead_modifyHead]
  congr 1
  funext piece
  rw [Function.comp_apply, List.append_assoc]

theorem Passes.char {position : Position} {c : Char}
    (h : ¬ (c = ',' ∧ position = .outside 0)) : Passes position [c] (position.next c) := by
  intro after
  rw [List.singleton_append, cutAtCommas_cons, if_neg h]

theorem Passes.cons {position next : Position} {c : Char} {text : List Char}
    (h : ¬ (c = ',' ∧ position = .outside 0)) (htext : Passes (position.next c) text next) :
    Passes position (c :: text) next :=
  (Passes.char h).append htext

/-- Outside literals a character that is no quote turns the depth. -/
theorem next_outside {c : Char} (hc : isQuote c = false) (depth : Int) :
    (Position.outside depth).next c = .outside (depth + turn (.code, c)) := by
  have hquote : (c == '"' || c == '\'') = false := hc
  show (if (c == '"' || c == '\'') = true then _ else if opens c = true then _ else
    if closes c = true then _ else _) = _
  rw [hquote, if_neg Bool.false_ne_true, turn]
  split
  · rfl
  · split
    · rfl
    · rw [Int.add_zero]

theorem next_quote {quote : Char} (hquote : isQuote quote = true) (depth : Int) :
    (Position.outside depth).next quote = .inside depth quote false := by
  show (if isQuote quote = true then _ else _) = _
  rw [if_pos hquote]

theorem next_inside_quote {quote : Char} (hquote : isQuote quote = true) (depth : Int) :
    (Position.inside depth quote false).next quote = .outside depth := by
  have hslash : quote ≠ '\\' := ne_of_kind hquote rfl
  rw [Position.next, if_neg hslash, if_pos rfl]

/-- Numbers and words are passed over. -/
theorem Passes.plain {text : List Char} (htext : ∀ c ∈ text, isNumberPart c = true) (depth : Int) :
    Passes (.outside depth) text (.outside depth) := by
  induction text with
  | nil => exact .nil _
  | cons c text ih =>
      have hc := htext c List.mem_cons_self
      refine .cons (fun h => ne_of_kind hc rfl h.1) ?_
      rw [next_outside (isNumberPart_plain hc).2, turn_of_numberPart hc, Int.add_zero]
      exact ih fun d hd => htext d (List.mem_cons_of_mem c hd)

/-! ## Literals that are passed over -/

/-- A quote opens a literal. -/
theorem Passes.opening {quote : Char} (hquote : isQuote quote = true) (depth : Int) :
    Passes (.outside depth) [quote] (.inside depth quote false) := by
  have hcomma : quote ≠ ',' := ne_of_kind hquote rfl
  rw [← next_quote hquote depth]
  exact .char fun h => hcomma h.1

/-- The quote that opened a literal closes it. -/
theorem Passes.closing {quote : Char} (hquote : isQuote quote = true) (depth : Int) :
    Passes (.inside depth quote false) [quote] (.outside depth) := by
  rw [← next_inside_quote hquote depth]
  exact .char fun h => Position.noConfusion h.2

/-- Up to the quote that closes it a literal is passed over. -/
theorem Passes.content {quote : Char} (depth : Int) {cs : List Char}
    (hclosed : (splitAtMarks [quote] cs).2 ≠ []) :
    Passes (.inside depth quote false) (splitAtMarks [quote] cs).1 (.inside depth quote false) := by
  fun_induction splitAtMarks [quote] cs with
  | case1 => exact .nil _
  | case2 => exact absurd rfl hclosed
  | case3 c rest inner closing hinner ih =>
      rw [hinner] at ih
      refine .cons (fun h => Position.noConfusion h.2) ?_
      rw [Position.next, if_pos rfl]
      exact .cons (fun h => Position.noConfusion h.2) (ih hclosed)
  | case4 => exact .nil _
  | case5 c rest hesc hesc' hmarks inner closing hinner ih =>
      rw [hinner] at ih
      have hne : c ≠ quote := by
        rintro rfl
        exact hmarks (by simp)
      refine .cons (fun h => Position.noConfusion h.2) ?_
      rw [Position.next, if_neg (ne_backslash hesc hesc'), if_neg hne]
      exact ih hclosed

/-! ## Tame lexemes -/

/-- No comment, and if it is a literal, it is closed and its first quote that no backslash stands
before is the one that closes it. -/
def Lexeme.IsTame (l : Lexeme) : Prop :=
  l.isComment = false ∧ ∀ t, l = .literal t → l.closing = l.marks ∧
    splitAtMarks (l.marks.take 1) (l.content ++ l.closing) = (l.content, l.closing)

instance (l : Lexeme) : Decidable l.IsTame :=
  match l with
  | .literal t => decidable_of_iff
      ((Lexeme.literal t).closing = (Lexeme.literal t).marks ∧
        splitAtMarks ((Lexeme.literal t).marks.take 1)
          ((Lexeme.literal t).content ++ (Lexeme.literal t).closing) =
            ((Lexeme.literal t).content, (Lexeme.literal t).closing))
      ⟨fun h => ⟨rfl, fun _ _ => h⟩, fun h => h.2 t rfl⟩
  | .comment _ => .isFalse fun h => Bool.noConfusion h.1
  | .number _ => .isTrue ⟨rfl, fun _ h => Lexeme.noConfusion h⟩
  | .word _ => .isTrue ⟨rfl, fun _ h => Lexeme.noConfusion h⟩
  | .mark _ => .isTrue ⟨rfl, fun _ h => Lexeme.noConfusion h⟩

theorem Lexeme.Stands.passes_literal {t after : List Char} (h : (Lexeme.literal t).Stands after)
    (htame : (Lexeme.literal t).IsTame) (depth : Int) :
    Passes (.outside depth) t (.outside depth) := by
  obtain ⟨hclosing, hsplit⟩ := htame.2 t rfl
  have htext : t = _ := h.text_eq (Or.inr ⟨t, rfl⟩)
  obtain ⟨quote, hquote, hmarks⟩ : ∃ quote, isQuote quote = true ∧
      ((Lexeme.literal t).marks = [quote, quote, quote] ∨ (Lexeme.literal t).marks = [quote]) := by
    cases h.literalKind with
    | block isQuote_eq marks => exact ⟨_, isQuote_eq, Or.inl marks⟩
    | line isQuote_eq marks => exact ⟨_, isQuote_eq, Or.inr marks⟩
  have hopening := Passes.opening hquote depth
  have hending := Passes.closing hquote depth
  have hcontent : Passes (.inside depth quote false) (Lexeme.literal t).content
      (.inside depth quote false) := by
    have hfirst : (Lexeme.literal t).marks.take 1 = [quote] := by
      rcases hmarks with hmarks | hmarks <;> rw [hmarks] <;> rfl
    rw [hfirst] at hsplit
    have hpasses := @Passes.content quote depth
      ((Lexeme.literal t).content ++ (Lexeme.literal t).closing)
    rw [hsplit] at hpasses
    refine hpasses ?_
    rw [hclosing]
    rcases hmarks with hmarks | hmarks <;> rw [hmarks] <;> exact List.cons_ne_nil _ _
  rw [htext, hclosing]
  rcases hmarks with hmarks | hmarks
  · -- two of three quotes are an empty literal
    have hempty : Passes (.outside depth) [quote, quote] (.outside depth) := hopening.append hending
    rw [hmarks]
    exact (hempty.append hopening).append (hcontent.append (hending.append hempty))
  · rw [hmarks]
    exact hopening.append (hcontent.append hending)

/-- A tame lexeme is passed over, to the depth that it tells. -/
theorem Lexeme.Stands.passes {l : Lexeme} {after : List Char} (h : l.Stands after)
    (htame : l.IsTame) {depth : Int} (hl : ¬ (l = .mark ',' ∧ depth = 0)) :
    Passes (.outside depth) l.text (.outside (depth + depthOf l.places)) := by
  have hshape := h.shaped_fits.1
  -- only marks turn the depth
  by_cases hmark : ∃ c, l = .mark c
  · obtain ⟨c, rfl⟩ := hmark
    have hcut : ¬ (c = ',' ∧ Position.outside depth = .outside 0) := by
      rintro ⟨rfl, hposition⟩
      exact hl ⟨rfl, Position.outside.inj hposition⟩
    have hpasses := Passes.char hcut
    rw [next_outside hshape.2.1] at hpasses
    have hdepth : depthOf (Lexeme.mark c).places = turn (.code, c) := Int.add_zero _
    rwa [hdepth]
  · rw [depthOf_flat (hshape.flat fun c hc => hmark ⟨c, hc⟩), Int.add_zero]
    cases l with
    | comment t => exact Bool.noConfusion htame.1
    | literal t => exact h.passes_literal htame depth
    | number t => exact .plain hshape.number depth
    | word t => exact .plain hshape.word depth
    | mark c => exact absurd ⟨c, rfl⟩ hmark

/-- **Tame lexemes are cut at the commas between them.** -/
theorem cutAtCommas_tame {ls : List Lexeme} (h : Standing ls []) (htame : ∀ l ∈ ls, l.IsTame)
    (depth : Int) :
    cutAtCommas (.outside depth) (textOf ls) = (cutLexemes depth ls).map textOf := by
  -- each lexeme is passed over, or it is a comma that both cut at
  induction ls generalizing depth with
  | nil => rfl
  | cons l ls ih =>
      have ih := ih h.2 fun k hk => htame k (List.mem_cons_of_mem l hk)
      rw [cutLexemes]
      split
      · next hcut =>
          obtain ⟨rfl, rfl⟩ := hcut
          show cutAtCommas (.outside 0) (',' :: textOf ls) = _
          rw [cutAtCommas_cons, if_pos ⟨rfl, rfl⟩, ih, List.map_cons, textOf_nil]
      · next hcut =>
          rw [textOf_cons, h.1.passes (htame l List.mem_cons_self) hcut, ih, map_textOf_modifyHead]

theorem commasAgree_of_tame {text : List Char} (h : ∀ l ∈ lexemes text, l.IsTame) :
    CommasAgree text ∧ NoVoidComment text := by
  refine ⟨?_, fun piece hpiece _ l hl => (h l (mem_of_mem_cutLexemes hpiece hl)).1⟩
  rw [← cut_eq_iff_commasAgree, ← cutAtCommas_tame (standing_lexemes text) h, text_lexemes]

/-! ## Closed calls -/

/-- A closing bracket stands behind the arguments of a candidate. -/
def Candidate.IsClosed (c : Candidate) (body : List Char) : Prop :=
  ∃ closer after, closes closer = true ∧ c.OpensOn body (c.args.toList ++ closer :: after)

/-- The arguments of a closed call are lexemes of the body, between its brackets. -/
theorem lexemes_of_closed_call {body : String} {cands : List Candidate}
    (hscan : scan body = .ok cands) {c : Candidate} (hc : c ∈ cands)
    (hclosed : c.IsClosed body.toList) :
    ∃ before closer after, closes closer = true ∧ lexemes body.toList =
      before ++ .mark '(' :: (lexemes c.args.toList ++ .mark closer :: after) := by
  obtain ⟨before, inside, hlexemes, hstanding, hopens, hargs⟩ := opened_of_scan hscan hc
  obtain ⟨closer, after, -, hclosed⟩ := hclosed
  have hinside := hclosed.unique hopens
  have hend := argsEnd_argsText hstanding.shaped Nat.one_pos
  rw [hargs, String.toList_ofList] at hinside ⊢
  generalize argsText 1 inside = args at hend hinside
  cases hend with
  | @closed inner after closer split closes_eq =>
      subst split
      have hline : closer ≠ '\n' := ne_of_kind closes_eq rfl
      have hinner : Standing inner [] := (standing_append.mp hstanding).1.at_end hline
      exact ⟨before, closer, after, closes_eq, by rw [hlexemes, lexemes_of_standing hinner]⟩
  | unclosed =>
      -- no bracket can follow the whole text
      have hlength := congrArg List.length hinside
      simp at hlength

/-- **Arguments between top-level commas.** The arguments of a closed call are lexemes of the body.
They are cut into the pieces between the commas that are in no bracket, literal or comment, one
argument for each, if and only if the cut and the lexemes agree on each comma and no comment stands
alone between two commas. This is so where all lexemes are tame. -/
theorem arguments_of_closed_call {body : String} {cands : List Candidate}
    (hscan : scan body = .ok cands) {c : Candidate} (hc : c ∈ cands)
    (hclosed : c.IsClosed body.toList) :
    (∃ before closer after, closes closer = true ∧ lexemes body.toList =
      before ++ .mark '(' :: (lexemes c.args.toList ++ .mark closer :: after)) ∧
    (pieces c.args.toList = topLevelPieces c.args.toList ↔
      CommasAgree c.args.toList ∧ NoVoidComment c.args.toList) ∧
    (CommasAgree c.args.toList ∧ NoVoidComment c.args.toList → ∀ locals,
      arguments c.args locals = (topLevelPieces c.args.toList).map (argumentOf locals)) ∧
    ((∀ l ∈ lexemes c.args.toList, l.IsTame) →
      CommasAgree c.args.toList ∧ NoVoidComment c.args.toList) := by
  have hpieces := pieces_eq_iff c.args.toList
  refine ⟨lexemes_of_closed_call hscan hc hclosed, hpieces, fun hagree locals => ?_,
    commasAgree_of_tame⟩
  rw [arguments, hpieces.mpr hagree]

/-! ## Commas that do not separate, and commas that do -/

namespace Separated

def body : String := "f(g(1, 2), 'a, b', k=x)"

def call : Candidate := ⟨0, 1, "f", .bare, 0, 1, "g(1, 2), 'a, b', k=x"⟩

theorem lexemes_args : lexemes call.args.toList =
    [.word ['g'], .mark '(', .number ['1'], .mark ',', .mark ' ', .number ['2'], .mark ')',
      .mark ',', .mark ' ', .literal "'a, b'".toList, .mark ',', .mark ' ', .word ['k'], .mark '=',
      .word ['x']] := by
  cbv

theorem scan_body : scan body = .ok [call, ⟨0, 3, "g", .bare, 2, 3, "1, 2"⟩] := by
  have hlexemes : lexemes body.toList =
      [.word ['f'], .mark '(', .word ['g'], .mark '(', .number ['1'], .mark ',', .mark ' ',
        .number ['2'], .mark ')', .mark ',', .mark ' ', .literal "'a, b'".toList, .mark ',',
        .mark ' ', .word ['k'], .mark '=', .word ['x'], .mark ')'] := by
    cbv
  unfold scan
  rw [hlexemes]
  rfl

theorem isClosed : call.IsClosed body.toList :=
  ⟨')', [], rfl, ['f'], [], rfl, fun _ hd => absurd hd List.not_mem_nil, rfl⟩

end Separated

theorem arguments_of_closed_call_separated :
    scan Separated.body = .ok [Separated.call, ⟨0, 3, "g", .bare, 2, 3, "1, 2"⟩] ∧
      Separated.call.IsClosed Separated.body.toList ∧
      (∀ l ∈ lexemes Separated.call.args.toList, l.IsTame) ∧
      topLevelPieces Separated.call.args.toList =
        ["g(1, 2)".toList, "'a, b'".toList, "k=x".toList] ∧
      ∀ locals, arguments Separated.call.args locals =
        (topLevelPieces Separated.call.args.toList).map (argumentOf locals) := by
  obtain ⟨-, hpieces, harguments, hagree⟩ :=
    arguments_of_closed_call Separated.scan_body List.mem_cons_self Separated.isClosed
  have htame : ∀ l ∈ lexemes Separated.call.args.toList, l.IsTame := by
    rw [Separated.lexemes_args]
    decide
  have hseparated : topLevelPieces Separated.call.args.toList =
      ["g(1, 2)".toList, "'a, b'".toList, "k=x".toList] := by
    rw [← hpieces.mpr (hagree htame)]
    cbv
  exact ⟨Separated.scan_body, Separated.isClosed, htame, hseparated, harguments (hagree htame)⟩

namespace Drifted

def body : String := "f(\"\"\"say \"hi, there\" now\"\"\", 2)"

def call : Candidate := ⟨0, 1, "f", .bare, 0, 1, "\"\"\"say \"hi, there\" now\"\"\", 2"⟩

theorem lexemes_args : lexemes call.args.toList =
    [.literal "\"\"\"say \"hi, there\" now\"\"\"".toList, .mark ',', .mark ' ', .number ['2']] := by
  cbv

theorem scan_body : scan body = .ok [call] := by
  have hlexemes : lexemes body.toList =
      [.word ['f'], .mark '(', .literal "\"\"\"say \"hi, there\" now\"\"\"".toList, .mark ',',
        .mark ' ', .number ['2'], .mark ')'] := by
    cbv
  unfold scan
  rw [hlexemes]
  rfl

theorem isClosed : call.IsClosed body.toList :=
  ⟨')', [], rfl, ['f'], [], rfl, fun _ hd => absurd hd List.not_mem_nil, rfl⟩

end Drifted

/-- A comma between two quotes in a literal with three quotes separates. -/
theorem comma_in_literal_separates :
    scan Drifted.body = .ok [Drifted.call] ∧ Drifted.call.IsClosed Drifted.body.toList ∧
      topLevelPieces Drifted.call.args.toList =
        ["\"\"\"say \"hi, there\" now\"\"\"".toList, ['2']] ∧
      pieces Drifted.call.args.toList =
        ["\"\"\"say \"hi".toList, "there\" now\"\"\"".toList, ['2']] ∧
      ∀ locals, arguments Drifted.call.args locals ≠
        (topLevelPieces Drifted.call.args.toList).map (argumentOf locals) := by
  have hlexemes : topLevelPieces Drifted.call.args.toList =
      ["\"\"\"say \"hi, there\" now\"\"\"".toList, ['2']] := by
    rw [topLevelPieces, Drifted.lexemes_args]
    decide
  have hpieces : pieces Drifted.call.args.toList =
      ["\"\"\"say \"hi".toList, "there\" now\"\"\"".toList, ['2']] := by
    cbv
  refine ⟨Drifted.scan_body, Drifted.isClosed, hlexemes, hpieces, fun locals h => ?_⟩
  have hlength := congrArg List.length h
  rw [arguments, hpieces, hlexemes] at hlength
  simp at hlength

end ChangeScope.Call
