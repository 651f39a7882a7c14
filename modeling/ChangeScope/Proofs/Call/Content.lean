import ChangeScope.Proofs.Call.Lexing

/-!
# The content of comments and literals

A comment or a literal is its opening marks, its content and its closing marks. Another content
without quotes and backslashes makes a lexeme that ends at the same place, as long as a literal on
one line has no line feed in it (`Lexeme.Stands.reworded`).
-/

set_option autoImplicit false

namespace ChangeScope.Call

open ChangeScope.Text

/-! ## Marks and content -/

/-- The marks that open a comment or a literal: its first character, or three quotes. -/
def Lexeme.marks : Lexeme → List Char
  | .literal (a :: b :: c :: _) => if a = b ∧ b = c then [a, b, c] else [a]
  | .literal t => t.take 1
  | .comment t => t.take 1
  | _ => []

/-- A text up to the first marks in it, and from these on. A backslash takes the next character
along. -/
def splitAtMarks (marks : List Char) : List Char → List Char × List Char
  | [] => ([], [])
  | ['\\'] => (['\\'], [])
  | '\\' :: c :: rest =>
      let (inner, closing) := splitAtMarks marks rest
      ('\\' :: c :: inner, closing)
  | c :: rest =>
      if marks.isPrefixOf (c :: rest) then ([], c :: rest)
      else
        let (inner, closing) := splitAtMarks marks rest
        (c :: inner, closing)

/-- The content of a comment or a literal, and the marks that close it. -/
def Lexeme.parts : Lexeme → List Char × List Char
  | .literal t => splitAtMarks (Lexeme.literal t).marks (t.drop (Lexeme.literal t).marks.length)
  | .comment t => (t.drop 1, [])
  | _ => ([], [])

def Lexeme.content (l : Lexeme) : List Char := l.parts.1

def Lexeme.closing (l : Lexeme) : List Char := l.parts.2

/-- A comment or a literal: what is skipped when calls are looked for. -/
def Lexeme.IsSkipped (l : Lexeme) : Prop := (∃ t, l = .comment t) ∨ ∃ t, l = .literal t

/-- The comment or literal with another content between the same marks. -/
def Lexeme.withContent (other : List Char) : Lexeme → Lexeme
  | .literal t => .literal ((Lexeme.literal t).marks ++ (other ++ (Lexeme.literal t).closing))
  | .comment t => .comment ((Lexeme.comment t).marks ++ (other ++ (Lexeme.comment t).closing))
  | l => l

/-- Two texts are equally long and have their line feeds at the same places. -/
def SameLines (a b : List Char) : Prop := List.Forall₂ (fun c d => c = '\n' ↔ d = '\n') a b

/-- The other content is as long, has its line feeds at the same places and is of ASCII without
quotes and backslashes. -/
structure Rewords (content other : List Char) : Prop where
  lines : SameLines content other
  plain : ∀ c ∈ other, isAscii c = true ∧ isQuote c = false ∧ c ≠ '\\'

theorem Rewords.inLine {content other : List Char} (h : Rewords content other)
    (hline : '\n' ∉ content) : '\n' ∉ other := by
  obtain ⟨hlines, -⟩ := h
  induction hlines with
  | nil => exact List.not_mem_nil
  | cons hcd _ ih =>
      rw [List.mem_cons, not_or] at hline ⊢
      exact ⟨fun hd => hline.1 (hcd.mpr hd.symm).symm, ih hline.2⟩

/-! ## Parts of literals -/

theorem splitAtMarks_cons {marks : List Char} {c : Char} (hc : c ≠ '\\') (rest : List Char) :
    splitAtMarks marks (c :: rest) =
      if marks.isPrefixOf (c :: rest) then ([], c :: rest)
      else (c :: (splitAtMarks marks rest).1, (splitAtMarks marks rest).2) := by
  rw [splitAtMarks.eq_def]
  split
  · next heq => exact absurd heq (List.cons_ne_nil _ _)
  · next heq => exact absurd (List.cons.inj heq).1 hc
  · next heq => exact absurd (List.cons.inj heq).1 hc
  · next heq =>
      obtain ⟨rfl, rfl⟩ := List.cons.inj heq
      rfl

theorem splitAtMarks_append (marks cs : List Char) :
    (splitAtMarks marks cs).1 ++ (splitAtMarks marks cs).2 = cs := by
  fun_induction splitAtMarks marks cs <;> simp_all

/-- A literal on one line is closed by its quote, or it ends with its line. -/
theorem splitAtMarks_takeLine (quote : Char) (cs : List Char) :
    (splitAtMarks [quote] (takeLine quote cs).1).2 = [quote] ∨
      (splitAtMarks [quote] (takeLine quote cs).1).2 = [] ∧
        ∀ d, (takeLine quote cs).2.head? = some d → d = '\n' := by
  fun_induction takeLine quote cs with
  | case1 => exact Or.inr ⟨rfl, fun d hd => absurd hd (by simp)⟩
  | case2 => exact Or.inr ⟨rfl, fun d hd => absurd hd (by simp)⟩
  | case3 c rest inner after hinner ih =>
      rw [hinner] at ih
      exact ih
  | case4 rest hesc hesc' =>
      left
      rw [splitAtMarks_cons (ne_backslash hesc hesc'), if_pos (by simp)]
  | case5 rest hesc hesc' hquote =>
      refine Or.inr ⟨rfl, fun d hd => ?_⟩
      exact (Option.some.inj hd).symm
  | case6 c rest hesc hesc' hquote hline inner after hinner ih =>
      rw [hinner] at ih
      rw [splitAtMarks_cons (ne_backslash hesc hesc'), if_neg (by simp [Ne.symm hquote])]
      exact ih

/-- A literal with three quotes is closed by three quotes, or it ends with the text. -/
theorem splitAtMarks_takeBlock (quote : Char) (cs : List Char) :
    (splitAtMarks [quote, quote, quote] (takeBlock quote cs).1).2 = [quote, quote, quote] ∨
      (splitAtMarks [quote, quote, quote] (takeBlock quote cs).1).2 = [] ∧
        (takeBlock quote cs).2 = [] := by
  fun_induction takeBlock quote cs with
  | case1 => exact Or.inr ⟨rfl, rfl⟩
  | case2 => exact Or.inr ⟨rfl, rfl⟩
  | case3 c rest inner after hinner ih =>
      rw [hinner] at ih
      exact ih
  | case4 c rest hesc hesc' after hsome =>
      left
      obtain rfl : c = quote := by
        rw [isPrefixOf?_eq_some_iff] at hsome
        exact (List.cons.inj hsome).1
      rw [splitAtMarks_cons (ne_backslash hesc hesc'), if_pos (by simp)]
  | case5 c rest hesc hesc' hnone inner after hinner ih =>
      rw [hinner] at ih
      -- three quotes here would have ended the literal
      have hstarts : ¬ [quote, quote, quote].isPrefixOf (c :: inner) = true := by
        rw [List.isPrefixOf_iff_prefix]
        intro hstarts
        rw [isPrefixOf?_eq_none_iff] at hnone
        refine hnone (hstarts.trans ⟨after, ?_⟩)
        have happend := takeBlock_append quote rest
        rw [hinner] at happend
        rw [List.cons_append, happend]
      rw [splitAtMarks_cons (ne_backslash hesc hesc'), if_neg hstarts]
      exact ih

/-! ## Other contents -/

/-- A content without the quote, backslashes and line feeds, up to the quote or the end of the
line. -/
theorem takeLine_plain {quote : Char} {other : List Char}
    (hother : ∀ c ∈ other, c ≠ quote ∧ c ≠ '\\' ∧ c ≠ '\n') {closing after : List Char}
    (hquote : quote ≠ '\\' ∧ quote ≠ '\n')
    (hclosing : closing = [quote] ∨ closing = [] ∧ ∀ d, after.head? = some d → d = '\n') :
    takeLine quote (other ++ closing ++ after) = (other ++ closing, after) := by
  induction other with
  | nil =>
      rcases hclosing with rfl | ⟨rfl, hafter⟩
      · show takeLine quote (quote :: after) = _
        rw [takeLine_cons hquote.1, if_pos rfl]
        rfl
      · cases after with
        | nil => rfl
        | cons d rest =>
            obtain rfl := hafter d rfl
            show takeLine quote ('\n' :: rest) = _
            rw [takeLine_cons (by decide), if_neg (Ne.symm hquote.2), if_pos rfl]
            rfl
  | cons c other ih =>
      obtain ⟨hc, hslash, hline⟩ := hother c List.mem_cons_self
      have ih := ih fun d hd => hother d (List.mem_cons_of_mem c hd)
      show takeLine quote (c :: (other ++ closing ++ after)) = _
      rw [takeLine_cons hslash, if_neg hc, if_neg hline, ih]
      rfl

/-- A content without the quote and backslashes, up to three quotes or the end. -/
theorem takeBlock_plain {quote : Char} {other : List Char}
    (hother : ∀ c ∈ other, c ≠ quote ∧ c ≠ '\\') (hquote : quote ≠ '\\') {closing after : List Char}
    (hclosing : closing = [quote, quote, quote] ∨ closing = [] ∧ after = []) :
    takeBlock quote (other ++ closing ++ after) = (other ++ closing, after) := by
  induction other with
  | nil =>
      rcases hclosing with rfl | ⟨rfl, rfl⟩
      · have hstarts : [quote, quote, quote].isPrefixOf? (quote :: quote :: quote :: after) =
            some after := isPrefixOf?_eq_some_iff.mpr rfl
        show takeBlock quote (quote :: quote :: quote :: after) = _
        rw [takeBlock_cons hquote, hstarts]
        rfl
      · rfl
  | cons c other ih =>
      obtain ⟨hc, hslash⟩ := hother c List.mem_cons_self
      have ih := ih fun d hd => hother d (List.mem_cons_of_mem c hd)
      have hstarts : [quote, quote, quote].isPrefixOf? (c :: (other ++ closing ++ after)) =
          none := by
        rw [isPrefixOf?_eq_none_iff, List.cons_prefix_cons]
        exact fun h => hc h.1.symm
      show takeBlock quote (c :: (other ++ closing ++ after)) = _
      rw [takeBlock_cons hslash, hstarts, ih]
      rfl

/-! ## Comments and literals in a text -/

/-- A literal before a text is of one of two kinds: with three quotes, or on one line. -/
inductive LiteralKind (t after : List Char) : Prop where
  | block {quote : Char} {inner : List Char} (isQuote_eq : isQuote quote = true)
      (marks : (Lexeme.literal t).marks = [quote, quote, quote])
      (text : t = quote :: quote :: quote :: (takeBlock quote inner).1)
      (parts : (Lexeme.literal t).parts =
        splitAtMarks [quote, quote, quote] (takeBlock quote inner).1)
      (after_eq : after = (takeBlock quote inner).2) : LiteralKind t after
  | line {quote : Char} {rest : List Char} (isQuote_eq : isQuote quote = true)
      (marks : (Lexeme.literal t).marks = [quote]) (text : t = quote :: (takeLine quote rest).1)
      (parts : (Lexeme.literal t).parts = splitAtMarks [quote] (takeLine quote rest).1)
      (after_eq : after = (takeLine quote rest).2) (single : ¬ [quote, quote] <+: rest) :
      LiteralKind t after

theorem Lexeme.Stands.literalKind {t after : List Char} (h : (Lexeme.literal t).Stands after) :
    LiteralKind t after := by
  obtain ⟨quote, more, rfl, hquote, htake⟩ := h.shaped_fits.1.literal h.shaped_fits.2
  -- two more quotes behind the first one open a block
  by_cases hblock : [quote, quote] <+: more ++ after
  · obtain ⟨inner, hinner⟩ := hblock
    rw [← hinner, show [quote, quote] ++ inner = quote :: quote :: inner from rfl,
      takeLiteral_block] at htake
    obtain ⟨htext, hafter⟩ := Prod.mk.inj htake
    have hmarks : (Lexeme.literal (quote :: more)).marks = [quote, quote, quote] := by
      rw [← htext]
      simp [Lexeme.marks]
    refine .block hquote hmarks htext.symm ?_ hafter.symm
    rw [Lexeme.parts, hmarks, ← htext]
    rfl
  · rw [takeLiteral_line hblock] at htake
    obtain ⟨htext, hafter⟩ := Prod.mk.inj htake
    have hmarks : (Lexeme.literal (quote :: more)).marks = [quote] := by
      match more, hblock with
      | [], _ => rfl
      | [b], _ => rfl
      | b :: c :: more, hblock =>
          have hne : ¬ (quote = b ∧ b = c) := by
            rintro ⟨rfl, rfl⟩
            exact hblock ⟨more ++ after, rfl⟩
          simp [Lexeme.marks, hne]
    refine .line hquote hmarks htext.symm ?_ hafter.symm hblock
    rw [Lexeme.parts, hmarks, (List.cons.inj htext).2]
    rfl

/-- A comment or a literal is its marks, its content and its closing marks. -/
theorem Lexeme.Stands.text_eq {l : Lexeme} {after : List Char} (h : l.Stands after)
    (hl : l.IsSkipped) : l.text = l.marks ++ (l.content ++ l.closing) := by
  rcases hl with ⟨t, rfl⟩ | ⟨t, rfl⟩
  · obtain ⟨⟨more, rfl, -⟩, -⟩ := h.shaped_fits
    simp [Lexeme.text, Lexeme.marks, Lexeme.content, Lexeme.closing, Lexeme.parts]
  · cases h.literalKind with
    | block _ marks text parts _ =>
        rw [Lexeme.content, Lexeme.closing, parts, splitAtMarks_append, marks]
        exact text
    | line _ marks text parts _ _ =>
        rw [Lexeme.content, Lexeme.closing, parts, splitAtMarks_append, marks]
        exact text

/-- The opening marks are the sign of a comment or quotes. -/
theorem Lexeme.Stands.marks_eq {l : Lexeme} {after : List Char} (h : l.Stands after)
    (hl : l.IsSkipped) :
    ∃ m n, l.marks = m :: List.replicate n m ∧ (m = '#' ∨ isQuote m = true) := by
  rcases hl with ⟨t, rfl⟩ | ⟨t, rfl⟩
  · obtain ⟨⟨more, rfl, -⟩, -⟩ := h.shaped_fits
    exact ⟨'#', 0, rfl, Or.inl rfl⟩
  · cases h.literalKind with
    | block isQuote_eq marks => exact ⟨_, 2, marks, Or.inr isQuote_eq⟩
    | line isQuote_eq marks => exact ⟨_, 0, marks, Or.inr isQuote_eq⟩

/-- A comment or a literal ends in a quote, or with its line. -/
theorem Lexeme.Stands.closing_cases {l : Lexeme} {after : List Char} (h : l.Stands after)
    (hl : l.IsSkipped) :
    (∃ quote n, l.closing = List.replicate (n + 1) quote ∧ isQuote quote = true) ∨
      l.closing = [] ∧ ∀ d, after.head? = some d → d = '\n' := by
  rcases hl with ⟨t, rfl⟩ | ⟨t, rfl⟩
  · refine Or.inr ⟨rfl, fun d hd => ?_⟩
    simpa using h.shaped_fits.2 d hd
  · cases h.literalKind with
    | @block quote inner isQuote_eq _ _ parts after_eq =>
        rw [Lexeme.closing, parts, after_eq]
        rcases splitAtMarks_takeBlock quote inner with hclosed | ⟨hopen, hnil⟩
        · exact Or.inl ⟨quote, 2, hclosed, isQuote_eq⟩
        · exact Or.inr ⟨hopen, fun d hd => absurd hd (by simp [hnil])⟩
    | @line quote rest isQuote_eq _ _ parts after_eq _ =>
        rw [Lexeme.closing, parts, after_eq]
        rcases splitAtMarks_takeLine quote rest with hclosed | hopen
        · exact Or.inl ⟨quote, 0, hclosed, isQuote_eq⟩
        · exact Or.inr hopen

theorem Lexeme.text_withContent {l : Lexeme} (hl : l.IsSkipped) (other : List Char) :
    (l.withContent other).text = l.marks ++ (other ++ l.closing) := by
  rcases hl with ⟨t, rfl⟩ | ⟨t, rfl⟩
  · rfl
  · rfl

theorem Rewords.ne_quote {content other : List Char} (h : Rewords content other) {quote : Char}
    (hquote : isQuote quote = true) : ∀ c ∈ other, c ≠ quote ∧ c ≠ '\\' := by
  intro c hc
  obtain ⟨-, hplain, hslash⟩ := h.plain c hc
  refine ⟨?_, hslash⟩
  rintro rfl
  rw [hquote] at hplain
  exact absurd hplain (by decide)

/-- A literal on one line does not begin with three quotes after its content is another one. -/
theorem not_block_of_rewords {quote : Char} {rest other closing : List Char}
    (hquote : isQuote quote = true) (hsingle : ¬ [quote, quote] <+: rest)
    (hclosing : closing = (splitAtMarks [quote] (takeLine quote rest).1).2)
    (hother : Rewords (splitAtMarks [quote] (takeLine quote rest).1).1 other) :
    ¬ [quote, quote] <+: other ++ closing ++ (takeLine quote rest).2 := by
  cases other with
  | cons c more =>
      rw [List.cons_append, List.cons_append, List.cons_prefix_cons]
      rintro ⟨hc, -⟩
      exact (hother.ne_quote hquote c List.mem_cons_self).1 hc.symm
  | nil =>
      -- the content was empty before
      have hparts := splitAtMarks_append [quote] (takeLine quote rest).1
      rw [List.eq_nil_of_length_eq_zero hother.lines.length_eq, List.nil_append] at hparts
      rwa [hclosing, List.nil_append, hparts, takeLine_append]

/-- **A comment or a literal ends at the same place with another content**, where a literal on one
line stays on it. -/
theorem Lexeme.Stands.reworded {l : Lexeme} {after other : List Char} (h : l.Stands after)
    (hl : l.IsSkipped) (hline : l.marks.length = 1 → '\n' ∉ l.content)
    (hother : Rewords l.content other) : (l.withContent other).Stands after := by
  rcases hl with ⟨t, rfl⟩ | ⟨t, rfl⟩
  · obtain ⟨⟨more, rfl, hmore⟩, hfits⟩ := h.shaped_fits
    have hin : '\n' ∉ more := fun hin => absurd (hmore '\n' hin) (by decide)
    refine Lexeme.stands_of_shaped ⟨other, by simp [Lexeme.marks, Lexeme.closing, Lexeme.parts], ?_⟩
      hfits
    intro c hc
    rw [bne_iff_ne]
    rintro rfl
    exact hother.inLine hin hc
  · cases h.literalKind with
    | @block quote inner isQuote_eq marks _ parts after_eq =>
        have hends := splitAtMarks_takeBlock quote inner
        rw [← parts, ← after_eq] at hends
        have hslash : quote ≠ '\\' := ne_of_kind isQuote_eq rfl
        have htake := takeBlock_plain (hother.ne_quote isQuote_eq) hslash hends
        refine Lexeme.stands_of_shaped ⟨quote, _, by rw [marks]; rfl, isQuote_eq⟩ ?_
        refine ⟨quote, _, by rw [marks]; rfl, ?_⟩
        rw [marks]
        show takeLiteral quote
          (quote :: quote :: (other ++ (Lexeme.literal t).parts.2 ++ after)) = _
        rw [takeLiteral_block, htake]
        rfl
    | @line quote rest isQuote_eq marks _ parts after_eq single =>
        have hends := splitAtMarks_takeLine quote rest
        rw [← parts, ← after_eq] at hends
        have hin : '\n' ∉ other := hother.inLine (hline (by rw [marks]; rfl))
        have hquote : quote ≠ '\\' ∧ quote ≠ '\n' :=
          ⟨ne_of_kind isQuote_eq rfl, ne_of_kind isQuote_eq rfl⟩
        have hplain : ∀ c ∈ other, c ≠ quote ∧ c ≠ '\\' ∧ c ≠ '\n' := by
          intro c hc
          obtain ⟨hne, hslash⟩ := hother.ne_quote isQuote_eq c hc
          exact ⟨hne, hslash, fun hc' => hin (hc' ▸ hc)⟩
        have htake := takeLine_plain hplain hquote hends
        rw [Lexeme.content, parts] at hother
        -- the other content must not make the one quote the first of three
        have hblock := not_block_of_rewords isQuote_eq single (congrArg Prod.snd parts) hother
        rw [← after_eq] at hblock
        refine Lexeme.stands_of_shaped ⟨quote, _, by rw [marks]; rfl, isQuote_eq⟩ ?_
        refine ⟨quote, _, by rw [marks]; rfl, ?_⟩
        rw [marks]
        show takeLiteral quote (other ++ (Lexeme.literal t).parts.2 ++ after) = _
        rw [takeLiteral_line hblock, htake]
        rfl

end ChangeScope.Call
