import ChangeScope.Call.Candidate
import ChangeScope.Proofs.Text

/-!
# Lexemes in another text

Where a lexeme ends depends on the lexeme and on the character after it, so lexemes that stand in
a row are found again when the text around them changes (`lexemes_append`). The change that
matters puts the id of a function in the place of a called expression.
-/

set_option autoImplicit false

namespace ChangeScope.Call

open ChangeScope.Text

/-! ## Literals -/

/-- What the end of a literal depends on is the same: either the character after it, or the
literal does not end because its line does. -/
def SameEnd (after other : List Char) : Prop :=
  other.head? = after.head? ∨ ∃ d rest, after = d :: rest ∧ d ≠ '\n'

theorem SameEnd.nil {other : List Char} (h : SameEnd [] other) : other = [] := by
  rcases h with h | ⟨d, rest, hcons, -⟩
  · exact List.head?_eq_none_iff.mp h
  · exact absurd hcons (List.cons_ne_nil d rest).symm

theorem SameEnd.newline {after other : List Char} (h : SameEnd ('\n' :: after) other) :
    ∃ rest, other = '\n' :: rest := by
  rcases h with h | ⟨d, rest, hcons, hd⟩
  · cases other with
    | nil => exact absurd h (by simp)
    | cons c rest =>
        rw [List.head?_cons, List.head?_cons, Option.some.injEq] at h
        exact ⟨rest, by rw [h]⟩
  · exact absurd (List.cons.inj hcons).1.symm hd

/-- A backslash that takes a character along is excluded by these hypotheses. -/
theorem ne_backslash {c : Char} {rest : List Char} (h : c = '\\' → rest = [] → False)
    (h' : ∀ (d : Char) (more : List Char), c = '\\' → rest = d :: more → False) : c ≠ '\\' := by
  intro hc
  cases rest with
  | nil => exact h hc rfl
  | cons d more => exact h' d more hc rfl

theorem takeLine_cons {quote c : Char} (hc : c ≠ '\\') (rest : List Char) :
    takeLine quote (c :: rest) =
      if c = quote then ([c], rest)
      else if c = '\n' then ([], c :: rest)
      else (c :: (takeLine quote rest).1, (takeLine quote rest).2) := by
  rw [takeLine.eq_def]
  split
  · next heq => exact absurd heq (List.cons_ne_nil _ _)
  · next heq => exact absurd (List.cons.inj heq).1 hc
  · next heq => exact absurd (List.cons.inj heq).1 hc
  · next heq =>
      obtain ⟨rfl, rfl⟩ := List.cons.inj heq
      rfl

theorem takeBlock_cons {quote c : Char} (hc : c ≠ '\\') (rest : List Char) :
    takeBlock quote (c :: rest) =
      match [quote, quote, quote].isPrefixOf? (c :: rest) with
      | some after => ([quote, quote, quote], after)
      | none => (c :: (takeBlock quote rest).1, (takeBlock quote rest).2) := by
  rw [takeBlock.eq_def]
  split
  · next heq => exact absurd heq (List.cons_ne_nil _ _)
  · next heq => exact absurd (List.cons.inj heq).1 hc
  · next heq => exact absurd (List.cons.inj heq).1 hc
  · next heq =>
      obtain ⟨rfl, rfl⟩ := List.cons.inj heq
      rfl

/-- The rest of a literal on one line is found again before another text. -/
theorem takeLine_sameEnd (quote : Char) (cs : List Char) {other : List Char}
    (hend : SameEnd (takeLine quote cs).2 other) :
    takeLine quote ((takeLine quote cs).1 ++ other) = ((takeLine quote cs).1, other) := by
  fun_induction takeLine quote cs with
  | case1 =>
      rw [hend.nil]
      rfl
  | case2 =>
      rw [hend.nil]
      rfl
  | case3 c rest inner after hinner ih =>
      rw [hinner] at ih
      show takeLine quote ('\\' :: c :: (inner ++ other)) = _
      rw [takeLine, ih hend]
  | case4 rest hesc hesc' =>
      show takeLine quote (quote :: other) = _
      rw [takeLine_cons (ne_backslash hesc hesc'), if_pos rfl]
  | case5 rest hesc hesc' hquote =>
      -- the literal stopped in front of a line feed, so one follows in the other text too
      obtain ⟨more, rfl⟩ := hend.newline
      show takeLine quote ('\n' :: more) = _
      rw [takeLine_cons (by decide), if_neg hquote, if_pos rfl]
  | case6 c rest hesc hesc' hquote hline inner after hinner ih =>
      rw [hinner] at ih
      show takeLine quote (c :: (inner ++ other)) = _
      rw [takeLine_cons (ne_backslash hesc hesc'), if_neg hquote, if_neg hline, ih hend]

/-- The rest of a literal on one line ends in its quote where more text follows on the line. -/
theorem takeLine_closed {quote : Char} (cs : List Char) {d : Char} {rest : List Char}
    (h : (takeLine quote cs).2 = d :: rest) (hd : d ≠ '\n') :
    (takeLine quote cs).1.getLast? = some quote := by
  fun_induction takeLine quote cs with
  | case1 => exact absurd h.symm (List.cons_ne_nil _ _)
  | case2 => exact absurd h.symm (List.cons_ne_nil _ _)
  | case3 c more inner after hinner ih =>
      rw [hinner] at ih
      have hlast := ih h
      show ('\\' :: c :: inner).getLast? = _
      rw [List.getLast?_cons_cons, List.getLast?_cons, hlast]
      rfl
  | case4 more hesc hesc' => rfl
  | case5 more hesc hesc' hquote => exact absurd (List.cons.inj h).1.symm hd
  | case6 c more hesc hesc' hquote hline inner after hinner ih =>
      rw [hinner] at ih
      have hlast := ih h
      show (c :: inner).getLast? = _
      rw [List.getLast?_cons, hlast]
      rfl

/-- The rest of a literal with three quotes ends in three quotes where more text follows. -/
theorem takeBlock_closed {quote : Char} (cs : List Char) (h : (takeBlock quote cs).2 ≠ []) :
    ∃ inner, (takeBlock quote cs).1 = inner ++ [quote, quote, quote] := by
  fun_induction takeBlock quote cs with
  | case1 => exact absurd rfl h
  | case2 => exact absurd rfl h
  | case3 c more inner after hinner ih =>
      rw [hinner] at ih
      obtain ⟨start, hstart⟩ := ih h
      exact ⟨'\\' :: c :: start, by rw [show inner = _ from hstart]; rfl⟩
  | case4 => exact ⟨[], rfl⟩
  | case5 c more hesc hesc' hnone inner after hinner ih =>
      rw [hinner] at ih
      obtain ⟨start, hstart⟩ := ih h
      exact ⟨c :: start, by rw [show inner = _ from hstart]; rfl⟩

/-- The rest of a literal with three quotes is found again before another text. -/
theorem takeBlock_sameEnd (quote : Char) (cs : List Char) {other : List Char}
    (hend : (takeBlock quote cs).2 = [] → other = []) :
    takeBlock quote ((takeBlock quote cs).1 ++ other) = ((takeBlock quote cs).1, other) := by
  fun_induction takeBlock quote cs with
  | case1 =>
      rw [hend rfl]
      rfl
  | case2 =>
      rw [hend rfl]
      rfl
  | case3 c rest inner after hinner ih =>
      rw [hinner] at ih
      show takeBlock quote ('\\' :: c :: (inner ++ other)) = _
      rw [takeBlock, ih hend]
  | case4 c rest hesc hesc' after hsome =>
      show takeBlock quote (quote :: quote :: quote :: other) = _
      have hc : c = quote := by
        rw [isPrefixOf?_eq_some_iff] at hsome
        exact (List.cons.inj hsome).1
      have hstarts : [quote, quote, quote].isPrefixOf? (quote :: quote :: quote :: other) =
          some other := isPrefixOf?_eq_some_iff.mpr rfl
      rw [takeBlock_cons (hc ▸ ne_backslash hesc hesc'), hstarts]
  | case5 c rest hesc hesc' hnone inner after hinner ih =>
      rw [hinner] at ih
      show takeBlock quote (c :: (inner ++ other)) = _
      have hnone' : [quote, quote, quote].isPrefixOf? (c :: (inner ++ other)) = none := by
        rw [isPrefixOf?_eq_none_iff] at hnone ⊢
        have hrest : inner ++ after = rest := by
          have happend := takeBlock_append quote rest
          rwa [hinner] at happend
        rw [← hrest] at hnone
        cases after with
        | nil => rwa [hend rfl]
        | cons d more =>
            -- the closing quotes are still to come, so three characters are there
            obtain ⟨start, hstart⟩ := takeBlock_closed rest
              (by rw [hinner]; exact List.cons_ne_nil d more)
            rw [hinner] at hstart
            have hlen : [quote, quote, quote].length ≤ (c :: inner).length := by
              rw [show inner = _ from hstart]
              simp
            rw [← List.cons_append, prefix_append_iff hlen] at hnone ⊢
            exact hnone
      rw [takeBlock_cons (ne_backslash hesc hesc'), hnone', ih hend]

/-! ## Lexemes -/

/-- The lexeme is what is taken off the text that begins with it. -/
def Lexeme.Stands (l : Lexeme) (after : List Char) : Prop :=
  ∃ c more, l.text = c :: more ∧ takeLexeme c (more ++ after) = (l, after)

/-- Each of the lexemes stands before the next ones and the text after them. -/
def Standing : List Lexeme → List Char → Prop
  | [], _ => True
  | l :: rest, after => l.Stands (textOf rest ++ after) ∧ Standing rest after

@[simp] theorem textOf_nil : textOf [] = [] := rfl

@[simp] theorem textOf_cons (l : Lexeme) (rest : List Lexeme) :
    textOf (l :: rest) = l.text ++ textOf rest := rfl

@[simp] theorem textOf_append (a b : List Lexeme) : textOf (a ++ b) = textOf a ++ textOf b :=
  List.flatMap_append

/-- A called expression is read as one text. -/
theorem textOf_call (q : List Lexeme) (w : List Char) (rest : List Lexeme) :
    textOf (q ++ .word w :: rest) = (textOf q ++ w) ++ textOf rest := by
  rw [textOf_append, textOf_cons, List.append_assoc]
  rfl

theorem standing_append {a b : List Lexeme} {after : List Char} :
    Standing (a ++ b) after ↔ Standing a (textOf b ++ after) ∧ Standing b after := by
  induction a with
  | nil => exact ⟨fun h => ⟨trivial, h⟩, And.right⟩
  | cons l rest ih =>
      rw [List.cons_append, Standing, Standing, ih, textOf_append, List.append_assoc, and_assoc]

/-- Lexemes that stand are the ones that the text is cut into. -/
theorem lexemes_append {ls : List Lexeme} {after : List Char} (h : Standing ls after) :
    lexemes (textOf ls ++ after) = ls ++ lexemes after := by
  induction ls with
  | nil => rfl
  | cons l rest ih =>
      obtain ⟨⟨c, more, htext, htake⟩, hrest⟩ := h
      rw [textOf_cons, htext, List.append_assoc, List.cons_append, lexemes, htake, ih hrest,
        List.cons_append]

theorem lexemes_of_standing {ls : List Lexeme} (h : Standing ls []) :
    lexemes (textOf ls) = ls := by
  have hlexemes := lexemes_append h
  rwa [List.append_nil, lexemes, List.append_nil] at hlexemes

theorem takeLexeme_stands (c : Char) (rest : List Char) :
    (takeLexeme c rest).1.Stands (takeLexeme c rest).2 := by
  obtain ⟨more, htext⟩ := takeLexeme_text c rest
  have happend := takeLexeme_append c rest
  rw [htext, List.cons_append, List.cons.injEq] at happend
  exact ⟨c, more, htext, by rw [happend.2]⟩

theorem standing_lexemes (cs : List Char) : Standing (lexemes cs) [] := by
  fun_induction lexemes cs with
  | case1 => trivial
  | case2 c rest step ih =>
      refine ⟨?_, ih⟩
      rw [text_lexemes, List.append_nil]
      exact takeLexeme_stands c rest

/-! ## Characters -/

theorem isQuote_iff {c : Char} : isQuote c = true ↔ c = '"' ∨ c = '\'' := by
  rw [isQuote, Bool.or_eq_true, beq_iff_eq, beq_iff_eq]

theorem isWordStart_of_digit {c : Char} (h : isAsciiDigit c = true) : isWordStart c = false := by
  simp only [isAsciiDigit, Bool.and_eq_true, decide_eq_true_eq, Char.le_def,
    UInt32.le_iff_toNat_le] at h
  have hlow : ('0' : Char).val.toNat = 48 := rfl
  have hhigh : ('9' : Char).val.toNat = 57 := rfl
  have hunder : c ≠ '_' := by
    rintro rfl
    exact absurd h (by decide)
  have ha : ('a' : Char).val.toNat = 97 := rfl
  have hA : ('A' : Char).val.toNat = 65 := rfl
  simp only [isWordStart, isAsciiLetter, isAscii, Bool.or_eq_false_iff, beq_eq_false_iff_ne,
    Bool.and_eq_false_iff, decide_eq_false_iff_not, Char.le_def, UInt32.le_iff_toNat_le,
    Bool.not_eq_false', decide_eq_true_eq, Char.toNat]
  exact ⟨⟨hunder, Or.inl (by omega), Or.inl (by omega)⟩, by omega⟩

/-- A kind of character apart from the marks that open a comment or a literal. -/
theorem not_opening {p : Char → Bool} {c : Char} (h : p c = true) (hhash : p '#' = false)
    (hdouble : p '"' = false) (hsingle : p '\'' = false) : c ≠ '#' ∧ isQuote c = false := by
  rw [isQuote, Bool.or_eq_false_iff, beq_eq_false_iff_ne, beq_eq_false_iff_ne]
  exact ⟨Text.ne_of_kind h hhash, Text.ne_of_kind h hdouble, Text.ne_of_kind h hsingle⟩

/-- A character that may begin a word begins no other lexeme. -/
theorem starts_word {c : Char} (h : isWordStart c = true) :
    c ≠ '#' ∧ isQuote c = false ∧ isAsciiDigit c = false := by
  obtain ⟨hhash, hquote⟩ := not_opening h (by decide) (by decide) (by decide)
  refine ⟨hhash, hquote, ?_⟩
  by_contra hdigit
  rw [Bool.not_eq_false] at hdigit
  rw [isWordStart_of_digit hdigit] at h
  exact absurd h Bool.false_ne_true

theorem starts_number {c : Char} (h : isAsciiDigit c = true) : c ≠ '#' ∧ isQuote c = false :=
  not_opening h (by decide) (by decide) (by decide)

theorem isNumberPart_of_wordPart {c : Char} (h : isWordPart c = true) : isNumberPart c = true := by
  rw [isNumberPart, h, Bool.true_or]

/-! ## Where a lexeme ends -/

/-- The stretch goes on as far as its kind of character does. -/
theorem stretch_iff {p : Char → Bool} {more after : List Char} :
    ((more ++ after).takeWhile p = more ∧ (more ++ after).dropWhile p = after) ↔
      (∀ c ∈ more, p c = true) ∧ ∀ d, after.head? = some d → p d = false := by
  constructor
  · rintro ⟨htake, hdrop⟩
    refine ⟨fun c hc => ?_, fun d hd => ?_⟩
    · rw [← htake] at hc
      exact List.mem_takeWhile_imp hc
    · rw [← hdrop] at hd
      have hhead := List.head?_dropWhile_not p (more ++ after)
      rw [hd] at hhead
      simpa using hhead
  · rintro ⟨hmore, hafter⟩
    exact takeWhile_stretch hmore hafter

theorem takeLiteral_block (quote : Char) (inner : List Char) :
    takeLiteral quote (quote :: quote :: inner) =
      (quote :: quote :: quote :: (takeBlock quote inner).1, (takeBlock quote inner).2) := by
  have hstarts : [quote, quote].isPrefixOf? (quote :: quote :: inner) = some inner :=
    isPrefixOf?_eq_some_iff.mpr rfl
  rw [takeLiteral, hstarts]

theorem takeLiteral_line {quote : Char} {rest : List Char} (h : ¬ [quote, quote] <+: rest) :
    takeLiteral quote rest = (quote :: (takeLine quote rest).1, (takeLine quote rest).2) := by
  rw [takeLiteral, isPrefixOf?_eq_none_iff.mpr h]

/-- A literal on one line does not begin with three quotes before another text that does not look
like more quotes. -/
theorem not_block_sameEnd {quote : Char} (hquote : isQuote quote = true)
    {more after other : List Char} (hblock : ¬ [quote, quote] <+: more ++ after)
    (htake : takeLine quote (more ++ after) = (more, after)) (hend : SameEnd after other)
    (hhead : other.head? = after.head? ∨ ∀ d, other.head? = some d → isQuote d = false) :
    ¬ [quote, quote] <+: more ++ other := by
  rintro ⟨rest, hrest⟩
  -- where one of the two quotes is in the other text, that one begins with a quote
  match more with
  | [] =>
      -- the literal is no more than its opening quote, so its line ends there
      rw [List.nil_append] at htake
      cases after with
      | nil =>
          rw [hend.nil] at hrest
          exact absurd hrest (List.cons_ne_nil _ _)
      | cons d more =>
          by_cases hd : d = '\n'
          · rw [hd] at hend
            obtain ⟨more', rfl⟩ := hend.newline
            rw [(List.cons.inj hrest).1] at hquote
            exact absurd hquote (by decide)
          · have hclosed := takeLine_closed (d :: more) (congrArg Prod.snd htake) hd
            rw [htake] at hclosed
            exact absurd hclosed (by simp)
  | [m] =>
      have hcons : other = quote :: rest := (List.cons.inj hrest).2.symm
      have hnext : other.head? = some quote := by rw [hcons, List.head?_cons]
      rcases hhead with hsame | hdiffer
      · refine hblock ?_
        rw [hnext] at hsame
        cases after with
        | nil => exact absurd hsame (by simp)
        | cons d more =>
            rw [List.head?_cons, Option.some.injEq] at hsame
            rw [← hsame, ← (List.cons.inj hrest).1]
            exact ⟨more, rfl⟩
      · rw [hdiffer quote hnext] at hquote
        exact absurd hquote Bool.false_ne_true
  | m :: m' :: more =>
      have hlen : [quote, quote].length ≤ (m :: m' :: more).length := by simp
      rw [prefix_append_iff hlen] at hblock
      exact hblock ((prefix_append_iff hlen other).mp ⟨rest, hrest⟩)

/-- A literal is found again before another text that does not look like more quotes. -/
theorem takeLiteral_sameEnd {quote : Char} (hquote : isQuote quote = true)
    {more after other : List Char} (h : takeLiteral quote (more ++ after) = (quote :: more, after))
    (hend : SameEnd after other)
    (hhead : other.head? = after.head? ∨ ∀ d, other.head? = some d → isQuote d = false) :
    takeLiteral quote (more ++ other) = (quote :: more, other) := by
  by_cases hblock : [quote, quote] <+: more ++ after
  · obtain ⟨inner, hinner⟩ := hblock
    rw [← hinner] at h
    rw [show [quote, quote] ++ inner = quote :: quote :: inner from rfl, takeLiteral_block] at h
    obtain ⟨htext, hafter⟩ := Prod.mk.inj h
    have hmore : more = quote :: quote :: (takeBlock quote inner).1 := (List.cons.inj htext).2.symm
    have hnil : (takeBlock quote inner).2 = [] → other = [] := by
      intro hnil
      rw [hafter] at hnil
      rw [hnil] at hend
      exact hend.nil
    rw [hmore, List.cons_append, List.cons_append, takeLiteral_block,
      takeBlock_sameEnd quote inner hnil]
  · rw [takeLiteral_line hblock] at h
    obtain ⟨htext, hafter⟩ := Prod.mk.inj h
    have htake : takeLine quote (more ++ after) = (more, after) :=
      Prod.ext (List.cons.inj htext).2 hafter
    have hline := takeLine_sameEnd quote (more ++ after) (hafter.symm ▸ hend)
    rw [htake] at hline
    rw [takeLiteral_line (not_block_sameEnd hquote hblock htake hend hhead), hline]

/-- How a lexeme is taken. -/
theorem takeLexeme_cases {c : Char} {rest after : List Char} {l : Lexeme}
    (h : takeLexeme c rest = (l, after)) :
    (c = '#' ∧ l = .comment (c :: rest.takeWhile (· != '\n')) ∧
        after = rest.dropWhile (· != '\n')) ∨
      (c ≠ '#' ∧ isQuote c = true ∧ l = .literal (takeLiteral c rest).1 ∧
        after = (takeLiteral c rest).2) ∨
      (c ≠ '#' ∧ isQuote c = false ∧ isAsciiDigit c = true ∧
        l = .number (c :: rest.takeWhile isNumberPart) ∧ after = rest.dropWhile isNumberPart) ∨
      (isWordStart c = true ∧ l = .word (c :: rest.takeWhile isWordPart) ∧
        after = rest.dropWhile isWordPart) ∨
      (c ≠ '#' ∧ isQuote c = false ∧ isAsciiDigit c = false ∧ isWordStart c = false ∧
        l = .mark c ∧ after = rest) := by
  unfold takeLexeme at h
  split at h
  · next hc => cases h; exact Or.inl ⟨hc, rfl, rfl⟩
  · next hc =>
      split at h
      · next hq => cases h; exact Or.inr (Or.inl ⟨hc, hq, rfl, rfl⟩)
      · next hq =>
          rw [Bool.not_eq_true] at hq
          split at h
          · next hd => cases h; exact Or.inr (Or.inr (Or.inl ⟨hc, hq, hd, rfl, rfl⟩))
          · next hd =>
              rw [Bool.not_eq_true] at hd
              split at h
              · next hw => cases h; exact Or.inr (Or.inr (Or.inr (Or.inl ⟨hw, rfl, rfl⟩)))
              · next hw =>
                  rw [Bool.not_eq_true] at hw
                  cases h
                  exact Or.inr (Or.inr (Or.inr (Or.inr ⟨hc, hq, hd, hw, rfl, rfl⟩)))

/-- What the first character of a lexeme and the others are. -/
def Lexeme.Shaped : Lexeme → Prop
  | .comment t => ∃ more, t = '#' :: more ∧ ∀ c ∈ more, (c != '\n') = true
  | .literal t => ∃ quote more, t = quote :: more ∧ isQuote quote = true
  | .number t => ∃ d more, t = d :: more ∧ isAsciiDigit d = true ∧
      ∀ c ∈ more, isNumberPart c = true
  | .word t => ∃ c more, t = c :: more ∧ isWordStart c = true ∧ ∀ c ∈ more, isWordPart c = true
  | .mark c => c ≠ '#' ∧ isQuote c = false ∧ isAsciiDigit c = false ∧ isWordStart c = false

/-- What a lexeme needs of the text after it. -/
def Lexeme.Fits (after : List Char) : Lexeme → Prop
  | .comment _ => ∀ d, after.head? = some d → (d != '\n') = false
  | .literal t => ∃ quote more, t = quote :: more ∧ takeLiteral quote (more ++ after) = (t, after)
  | .number _ => ∀ d, after.head? = some d → isNumberPart d = false
  | .word _ => ∀ d, after.head? = some d → isWordPart d = false
  | .mark _ => True

/-- A literal is taken from its first quote on. -/
theorem Lexeme.Shaped.literal {t after : List Char} (h : (Lexeme.literal t).Shaped)
    (hfits : (Lexeme.literal t).Fits after) : ∃ quote more, t = quote :: more ∧
      isQuote quote = true ∧ takeLiteral quote (more ++ after) = (t, after) := by
  obtain ⟨quote, more, rfl, hquote⟩ := h
  obtain ⟨quote', more', heq, htake⟩ := hfits
  obtain ⟨rfl, rfl⟩ := List.cons.inj heq
  exact ⟨quote, more, rfl, hquote, htake⟩

theorem Lexeme.Stands.text_ne {l : Lexeme} {after : List Char} (h : l.Stands after) :
    l.text ≠ [] := by
  obtain ⟨c, more, htext, -⟩ := h
  rw [htext]
  exact List.cons_ne_nil c more

theorem Lexeme.Stands.shaped_fits {l : Lexeme} {after : List Char} (h : l.Stands after) :
    l.Shaped ∧ l.Fits after := by
  obtain ⟨c, more, htext, htake⟩ := h
  rcases takeLexeme_cases htake with ⟨rfl, rfl, hafter⟩ | ⟨-, hq, rfl, hafter⟩ |
    ⟨-, -, hd, rfl, hafter⟩ | ⟨hw, rfl, hafter⟩ | ⟨hc, hq, hd, hw, rfl, hafter⟩
  · have hmore := (List.cons.inj htext).2
    obtain ⟨hall, hnext⟩ := stretch_iff.mp ⟨hmore, hafter.symm⟩
    rw [hmore]
    exact ⟨⟨more, rfl, hall⟩, hnext⟩
  · have hmore : (takeLiteral c (more ++ after)).1 = c :: more := htext
    refine ⟨⟨c, more, hmore, hq⟩, c, more, hmore, ?_⟩
    exact Prod.ext rfl hafter.symm
  · have hmore := (List.cons.inj htext).2
    obtain ⟨hall, hnext⟩ := stretch_iff.mp ⟨hmore, hafter.symm⟩
    rw [hmore]
    exact ⟨⟨c, more, rfl, hd, hall⟩, hnext⟩
  · have hmore := (List.cons.inj htext).2
    obtain ⟨hall, hnext⟩ := stretch_iff.mp ⟨hmore, hafter.symm⟩
    rw [hmore]
    exact ⟨⟨c, more, rfl, hw, hall⟩, hnext⟩
  · exact ⟨⟨hc, hq, hd, hw⟩, trivial⟩

theorem Lexeme.stands_of_shaped {l : Lexeme} {after : List Char} (hl : l.Shaped)
    (h : l.Fits after) : l.Stands after := by
  cases l with
  | comment t =>
      obtain ⟨more, rfl, hall⟩ := hl
      obtain ⟨htake, hdrop⟩ := stretch_iff.mpr ⟨hall, h⟩
      exact ⟨'#', more, rfl, by rw [takeLexeme, if_pos rfl, htake, hdrop]⟩
  | literal t =>
      obtain ⟨quote, more, rfl, hquote, htake⟩ := hl.literal h
      have hhash : quote ≠ '#' := by
        rintro rfl
        exact absurd hquote (by decide)
      exact ⟨quote, more, rfl, by rw [takeLexeme, if_neg hhash, if_pos hquote, htake]⟩
  | number t =>
      obtain ⟨d, more, rfl, hd, hall⟩ := hl
      obtain ⟨htake, hdrop⟩ := stretch_iff.mpr ⟨hall, h⟩
      obtain ⟨hhash, hquote⟩ := starts_number hd
      refine ⟨d, more, rfl, ?_⟩
      rw [takeLexeme, if_neg hhash, if_neg (by simp [hquote]), if_pos hd, htake, hdrop]
  | word t =>
      obtain ⟨c, more, rfl, hc, hall⟩ := hl
      obtain ⟨htake, hdrop⟩ := stretch_iff.mpr ⟨hall, h⟩
      obtain ⟨hhash, hquote, hdigit⟩ := starts_word hc
      refine ⟨c, more, rfl, ?_⟩
      rw [takeLexeme, if_neg hhash, if_neg (by simp [hquote]), if_neg (by simp [hdigit]),
        if_pos hc, htake, hdrop]
  | mark c =>
      obtain ⟨hhash, hquote, hdigit, hword⟩ := hl
      refine ⟨c, [], rfl, ?_⟩
      rw [takeLexeme, if_neg hhash, if_neg (by simp [hquote]), if_neg (by simp [hdigit]),
        if_neg (by simp [hword]), List.nil_append]

/-- A lexeme is found again before a text that begins with the same character. -/
theorem Lexeme.Stands.of_head {l : Lexeme} {after other : List Char} (h : l.Stands after)
    (hhead : other.head? = after.head?) : l.Stands other := by
  obtain ⟨hshape, hfits⟩ := h.shaped_fits
  refine Lexeme.stands_of_shaped hshape ?_
  cases l with
  | comment t => rwa [Lexeme.Fits, hhead]
  | literal t =>
      obtain ⟨quote, more, rfl, hquote, htake⟩ := hshape.literal hfits
      exact ⟨quote, more, rfl, takeLiteral_sameEnd hquote htake (Or.inl hhead) (Or.inl hhead)⟩
  | number t => rwa [Lexeme.Fits, hhead]
  | word t => rwa [Lexeme.Fits, hhead]
  | mark c => trivial

/-- A lexeme before a word is found again before anything that does not begin with a quote. -/
theorem Lexeme.Stands.of_word {l : Lexeme} {after other : List Char} (h : l.Stands after)
    {d : Char} (hd : after.head? = some d) (hpart : isWordPart d = true)
    (hother : ∀ e, other.head? = some e → isQuote e = false) : l.Stands other := by
  obtain ⟨hshape, hfits⟩ := h.shaped_fits
  have hline : d ≠ '\n' := by
    rintro rfl
    exact absurd hpart (by decide)
  refine Lexeme.stands_of_shaped hshape ?_
  -- only a literal or a mark can end right in front of a word
  cases l with
  | comment t =>
      have hnewline := hfits d hd
      simp only [bne_eq_false_iff_eq] at hnewline
      exact absurd hnewline hline
  | literal t =>
      obtain ⟨quote, more, rfl, hquote, htake⟩ := hshape.literal hfits
      obtain ⟨rest, rfl⟩ := List.head?_eq_some_iff.mp hd
      have hend : SameEnd (d :: rest) other := Or.inr ⟨d, rest, rfl, hline⟩
      exact ⟨quote, more, rfl, takeLiteral_sameEnd hquote htake hend (Or.inr hother)⟩
  | number t =>
      have hnumber := isNumberPart_of_wordPart hpart
      rw [hfits d hd] at hnumber
      exact absurd hnumber Bool.false_ne_true
  | word t =>
      rw [hfits d hd] at hpart
      exact absurd hpart Bool.false_ne_true
  | mark c => trivial

/-! ## Lexemes in a row -/

theorem Standing.shaped {ls : List Lexeme} {after : List Char} (h : Standing ls after) :
    ∀ l ∈ ls, l.Shaped := by
  induction ls with
  | nil => exact fun l hl => absurd hl List.not_mem_nil
  | cons l rest ih =>
      obtain ⟨hl, hrest⟩ := h
      intro k hk
      rcases List.mem_cons.mp hk with rfl | hk
      · exact hl.shaped_fits.1
      · exact ih hrest k hk

theorem head?_append_congr {a b other : List Char} (h : other.head? = b.head?) :
    (a ++ other).head? = (a ++ b).head? := by
  cases a with
  | nil => exact h
  | cons c rest => rfl

theorem Standing.of_head {ls : List Lexeme} {after other : List Char} (h : Standing ls after)
    (hhead : other.head? = after.head?) : Standing ls other := by
  induction ls with
  | nil => trivial
  | cons l rest ih =>
      obtain ⟨hl, hrest⟩ := h
      exact ⟨hl.of_head (head?_append_congr hhead), ih hrest⟩

/-- A lexeme that ends before the end of its line ends before the end of the text as well. -/
theorem Lexeme.Stands.at_end {l : Lexeme} {d : Char} {rest : List Char} (h : l.Stands (d :: rest))
    (hd : d ≠ '\n') : l.Stands [] := by
  obtain ⟨hshape, hfits⟩ := h.shaped_fits
  have hnone : ∀ {p : Char → Bool}, ∀ e, ([] : List Char).head? = some e → p e = false :=
    fun e he => absurd he (by simp)
  refine Lexeme.stands_of_shaped hshape ?_
  cases l with
  | comment t => exact hnone
  | literal t =>
      obtain ⟨quote, more, rfl, hquote, htake⟩ := hshape.literal hfits
      exact ⟨quote, more, rfl, takeLiteral_sameEnd hquote htake (Or.inr ⟨d, rest, rfl, hd⟩)
        (Or.inr hnone)⟩
  | number t => exact hnone
  | word t => exact hnone
  | mark c => trivial

theorem Standing.at_end {ls : List Lexeme} {d : Char} {rest : List Char}
    (h : Standing ls (d :: rest)) (hd : d ≠ '\n') : Standing ls [] := by
  induction ls with
  | nil => trivial
  | cons l ls ih =>
      obtain ⟨hl, hls⟩ := h
      refine ⟨?_, ih hls⟩
      cases htext : textOf ls with
      | nil =>
          rw [htext] at hl
          exact hl.at_end hd
      | cons c more =>
          rw [htext] at hl
          exact hl.of_head rfl

/-- A literal ends in a quote where more text follows on the line. -/
theorem literal_closed {t after : List Char} (h : (Lexeme.literal t).Stands after) {d : Char}
    (hd : after.head? = some d) (hline : d ≠ '\n') :
    ∃ quote, t.getLast? = some quote ∧ isQuote quote = true := by
  obtain ⟨quote, more, rfl, hquote, htake⟩ := h.shaped_fits.1.literal h.shaped_fits.2
  refine ⟨quote, ?_, hquote⟩
  obtain ⟨rest, rfl⟩ := List.head?_eq_some_iff.mp hd
  by_cases hblock : [quote, quote] <+: more ++ d :: rest
  · obtain ⟨inner, hinner⟩ := hblock
    rw [← hinner, show [quote, quote] ++ inner = quote :: quote :: inner from rfl,
      takeLiteral_block] at htake
    obtain ⟨htext, hafter⟩ := Prod.mk.inj htake
    obtain ⟨start, hstart⟩ := takeBlock_closed inner (by rw [hafter]; exact List.cons_ne_nil d rest)
    rw [← htext, hstart]
    simp [List.getLast?_cons, List.getLast?_append]
  · rw [takeLiteral_line hblock] at htake
    obtain ⟨htext, hafter⟩ := Prod.mk.inj htake
    have hlast := takeLine_closed _ hafter hline
    rw [(List.cons.inj htext).2] at hlast
    rw [List.getLast?_cons, hlast]
    rfl

/-- No lexeme goes on over a place on its line with no part of a word or number before it, and no
quote at the end of what follows. -/
theorem Lexeme.Stands.not_across {l : Lexeme} {after a b : List Char} (h : l.Stands after)
    {c e f : Char} (hafter : after.head? = some f) (hline : f ≠ '\n')
    (htext : l.text = (a ++ [c]) ++ (b ++ [e])) (hc : isNumberPart c = false)
    (he : isQuote e = false) : False := by
  have hmem : c ∈ l.text := by
    rw [htext]
    simp
  obtain ⟨hshape, hfits⟩ := h.shaped_fits
  cases l with
  | comment t =>
      -- a comment goes on to the end of the line
      have hnewline := hfits f hafter
      rw [bne_eq_false_iff_eq] at hnewline
      exact hline hnewline
  | literal t =>
      obtain ⟨quote, hlast, hquote⟩ := literal_closed h hafter hline
      rw [show t = a ++ [c] ++ (b ++ [e]) from htext, ← List.append_assoc, List.getLast?_concat,
        Option.some.injEq] at hlast
      rw [← hlast, he] at hquote
      exact absurd hquote Bool.false_ne_true
  | number t =>
      obtain ⟨d, more, rfl, hdigit, hall⟩ := hshape
      rcases List.mem_cons.mp hmem with rfl | hmem
      · rw [isNumberPart, isWordPart, hdigit] at hc
        simp at hc
      · rw [hall c hmem] at hc
        exact absurd hc.symm Bool.false_ne_true
  | word t =>
      obtain ⟨d, more, rfl, hstart, hall⟩ := hshape
      rcases List.mem_cons.mp hmem with rfl | hmem
      · rw [isNumberPart, isWordPart, hstart] at hc
        simp at hc
      · rw [isNumberPart_of_wordPart (hall c hmem)] at hc
        exact absurd hc.symm Bool.false_ne_true
  | mark m =>
      have hlength : [m].length = (a ++ [c] ++ (b ++ [e])).length := congrArg List.length htext
      simp only [List.length_append, List.length_singleton] at hlength
      omega

/-- Text on one line before a word, without quotes, is made of whole lexemes where it does not
begin inside a word or a number. -/
theorem standing_cut {ls : List Lexeme} {after a b : List Char} (h : Standing ls after) {d : Char}
    (hd : after.head? = some d) (hpart : isWordPart d = true) (htext : textOf ls = a ++ b)
    (ha : ∀ c, a.getLast? = some c → isNumberPart c = false)
    (hb : ∀ c ∈ b, isQuote c = false ∧ c ≠ '\n') :
    ∃ before here, ls = before ++ here ∧ textOf before = a ∧ textOf here = b := by
  induction ls generalizing a with
  | nil =>
      obtain ⟨rfl, rfl⟩ := List.append_eq_nil_iff.mp htext.symm
      exact ⟨[], [], rfl, rfl, rfl⟩
  | cons l rest ih =>
      obtain ⟨hl, hrest⟩ := h
      rw [textOf_cons] at htext
      rcases List.append_eq_append_iff.mp htext with ⟨a', rfl, htext'⟩ | ⟨u, hu, rfl⟩
      · -- the lexeme is before the text
        have ha' : ∀ c, a'.getLast? = some c → isNumberPart c = false := by
          intro c hc
          refine ha c ?_
          rw [List.getLast?_append, hc]
          rfl
        obtain ⟨before, here, rfl, hbefore, hhere⟩ := ih hrest htext' ha'
        exact ⟨l :: before, here, rfl, by rw [textOf_cons, hbefore], hhere⟩
      · -- the text begins where the lexeme begins or where it ends, not inside of it
        rcases List.eq_nil_or_concat' a with rfl | ⟨a', c, rfl⟩
        · exact ⟨[], l :: rest, rfl, rfl, by rw [textOf_cons, hu, List.nil_append]⟩
        · rcases List.eq_nil_or_concat' u with rfl | ⟨u', e, rfl⟩
          · refine ⟨[l], rest, rfl, ?_, rfl⟩
            rw [textOf_cons, textOf_nil, List.append_nil, hu, List.append_nil]
          · exfalso
            obtain ⟨f, hf, hfline⟩ : ∃ f, (textOf rest ++ after).head? = some f ∧ f ≠ '\n' := by
              cases hrest' : textOf rest with
              | nil =>
                  refine ⟨d, hd, ?_⟩
                  rintro rfl
                  exact absurd hpart (by decide)
              | cons f more =>
                  refine ⟨f, rfl, (hb f ?_).2⟩
                  rw [hrest']
                  simp
            exact hl.not_across hf hfline hu (ha c (by simp)) (hb e (by simp)).1

end ChangeScope.Call
