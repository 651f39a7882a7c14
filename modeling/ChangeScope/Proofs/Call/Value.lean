import ChangeScope.Proofs.Call.Content
import ChangeScope.Proofs.Call.Numeral

/-!
# Values of arguments

A piece stands for a literal, for a local of the caller, or for itself. String literals are told by
the quotes at both ends of a piece, numbers without their underscores, so some pieces are taken for
literals that are none: expressions between two strings, numbers with odd underscores or zeros, and
integers of more than 64 bits, which become binary64 numbers. All other pieces have the value that
they should (`value_reading_iff`).
-/

set_option autoImplicit false

namespace ChangeScope.Call

open ChangeScope.Text

/-! ## What a piece stands for -/

/-- The piece is one string literal, closed by its last quotes, with the content between them. -/
structure IsString (piece content : List Char) : Prop where
  stands : (Lexeme.literal piece).Stands []
  closed : (Lexeme.literal piece).closing ≠ []
  content_eq : (Lexeme.literal piece).content = content

/-- The piece as a whole is a literal with the value. -/
inductive IsLiteral (piece : List Char) : Json → Prop where
  | truth (h : piece = "True".toList) : IsLiteral piece (.bool true)
  | falsity (h : piece = "False".toList) : IsLiteral piece (.bool false)
  | nothing (h : piece = "None".toList) : IsLiteral piece .null
  | string {content : List Char} (h : IsString piece content) :
      IsLiteral piece (.str (String.ofList content))
  /-- An integer of any size. -/
  | integer {n : Numeral} (hn : n.IsLiteral) (htext : n.text = piece) (hinteger : n.IsInteger) :
      IsLiteral piece (.int n.bare.integer)
  /-- A decimal that is not too large. -/
  | decimal {n : Numeral} {x : Binary64} (hn : n.IsLiteral) (htext : n.text = piece)
      (hpoint : ¬ n.IsInteger) (hx : n.bare.IsNearest x) : IsLiteral piece (.float x)

/-- The value is the text of the piece, the local that the piece names, or that of a literal. -/
def IsReading (locals : Members) (piece : List Char) (value : Json) : Prop :=
  value = .str (String.ofList piece) ∨
    (isName piece = true ∧ locals.get? (String.ofList piece) = some value) ∨
    IsLiteral piece value

/-- The piece has the same quote at both ends. -/
def IsQuoted (piece : List Char) : Prop :=
  ∃ quote inner, isQuote quote = true ∧ piece = quote :: (inner ++ [quote])

/-- What is taken for a literal is one: a piece between quotes is a string, and one that is a number
without its underscores is a number, an integer of at most 64 bits or a decimal. -/
structure IsSound (piece : List Char) : Prop where
  quoted : IsQuoted piece → ∃ content, IsString piece content
  number : ∀ n : Numeral, n.IsIn piece →
    ∃ m : Numeral, m.IsLiteral ∧ m.text = piece ∧ (m.IsInteger → Fits m.bare.integer)

/-! ## Strings -/

/-- The text between two delimiters at the ends. -/
def between? (delimiter text : List Char) : Option (List Char) :=
  match delimiter.isPrefixOf? text with
  | some rest => dropEnding? delimiter rest
  | none => none

theorem stringLiteral?_eq (text : List Char) : stringLiteral? text =
    [['"', '"', '"'], ['\'', '\'', '\''], ['"'], ['\'']].findSome? (between? · text) := rfl

theorem between?_eq_some_iff {delimiter text inner : List Char} :
    between? delimiter text = some inner ↔ text = delimiter ++ (inner ++ delimiter) := by
  unfold between? dropEnding?
  constructor
  · intro h
    split at h
    · next rest hrest =>
        obtain ⟨more, hmore, rfl⟩ := Option.map_eq_some_iff.mp h
        rw [isPrefixOf?_eq_some_iff] at hrest hmore
        have hrest' : rest = more.reverse ++ delimiter := by
          rw [← List.reverse_reverse rest, hmore, List.reverse_append, List.reverse_reverse]
        rw [hrest, hrest']
    · exact absurd h (by simp)
  · rintro rfl
    rw [isPrefixOf?_eq_some_iff.mpr rfl]
    dsimp only
    rw [List.reverse_append, isPrefixOf?_eq_some_iff.mpr rfl, Option.map_some,
      List.reverse_reverse]

theorem between?_eq_none {delimiter text : List Char} (h : ¬ delimiter <+: text) :
    between? delimiter text = none := by
  unfold between?
  rw [isPrefixOf?_eq_none_iff.mpr h]

/-- A string literal is its content between three quotes, or between one that no others follow at
the beginning. -/
theorem IsString.delimited {piece content : List Char} (h : IsString piece content) :
    ∃ quote, isQuote quote = true ∧
      (piece = [quote, quote, quote] ++ (content ++ [quote, quote, quote]) ∨
        piece = [quote] ++ (content ++ [quote]) ∧ ¬ [quote, quote, quote] <+: piece) := by
  obtain ⟨stands, closed, rfl⟩ := h
  have htext := stands.text_eq (Or.inr ⟨piece, rfl⟩)
  cases stands.literalKind with
  | @block quote inner isQuote_eq marks _ parts _ =>
      refine ⟨quote, isQuote_eq, Or.inl ?_⟩
      have hclosing : (Lexeme.literal piece).closing = [quote, quote, quote] := by
        rw [Lexeme.closing, parts] at closed ⊢
        exact (splitAtMarks_takeBlock quote inner).resolve_right fun h => closed h.1
      rwa [marks, hclosing] at htext
  | @line quote rest isQuote_eq marks text parts after_eq single =>
      refine ⟨quote, isQuote_eq, Or.inr ⟨?_, ?_⟩⟩
      · have hclosing : (Lexeme.literal piece).closing = [quote] := by
          rw [Lexeme.closing, parts] at closed ⊢
          exact (splitAtMarks_takeLine quote rest).resolve_right fun h => closed h.1
        rwa [marks, hclosing] at htext
      · have hrest := takeLine_append quote rest
        rw [← after_eq, List.append_nil] at hrest
        rw [text, hrest, List.cons_prefix_cons]
        exact fun h => single h.2

/-- **A string literal is read as its content.** -/
theorem IsString.stringLiteral? {piece content : List Char} (h : IsString piece content) :
    stringLiteral? piece = some content := by
  obtain ⟨quote, hquote, hpiece⟩ := h.delimited
  have hother : ∀ {d : Char} {more : List Char}, d ≠ quote → between? (d :: more) piece = none := by
    intro d more hd
    refine between?_eq_none fun hstarts => ?_
    rcases hpiece with hpiece | ⟨hpiece, -⟩ <;> rw [hpiece] at hstarts <;>
      exact hd (List.cons_prefix_cons.mp hstarts).1
  rw [stringLiteral?_eq]
  -- three quotes are tried before one, double ones before single ones
  rcases isQuote_iff.mp hquote with rfl | rfl
  · rcases hpiece with hblock | ⟨hline, hsingle⟩
    · rw [List.findSome?_cons, between?_eq_some_iff.mpr hblock]
    · rw [List.findSome?_cons, between?_eq_none hsingle, List.findSome?_cons, hother (by decide),
        List.findSome?_cons, between?_eq_some_iff.mpr hline]
  · rcases hpiece with hblock | ⟨hline, hsingle⟩
    · rw [List.findSome?_cons, hother (by decide), List.findSome?_cons,
        between?_eq_some_iff.mpr hblock]
    · rw [List.findSome?_cons, hother (by decide), List.findSome?_cons, between?_eq_none hsingle,
        List.findSome?_cons, hother (by decide), List.findSome?_cons,
        between?_eq_some_iff.mpr hline]

/-- What is read as a string is a shorter text with the same quote at both ends. -/
theorem of_stringLiteral? {piece inner : List Char} (h : stringLiteral? piece = some inner) :
    IsQuoted piece ∧ inner.length < piece.length := by
  rw [stringLiteral?_eq] at h
  obtain ⟨delimiter, hmem, hinner⟩ := List.exists_of_findSome?_eq_some h
  rw [between?_eq_some_iff] at hinner
  have hdelimiter : ∃ quote more, isQuote quote = true ∧ delimiter = quote :: more ∧
      delimiter = more ++ [quote] := by
    simp only [List.mem_cons, List.not_mem_nil, or_false] at hmem
    rcases hmem with rfl | rfl | rfl | rfl <;> exact ⟨_, _, by decide, rfl, rfl⟩
  obtain ⟨quote, more, hquote, hfront, hback⟩ := hdelimiter
  constructor
  · refine ⟨quote, more ++ (inner ++ more), hquote, ?_⟩
    rw [hinner]
    nth_rewrite 1 [hfront]
    rw [hback]
    simp
  · have hlength := congrArg List.length hinner
    rw [List.length_append, List.length_append, hfront, List.length_cons] at hlength
    omega

/-- A piece is read as a string just where it has the same quote at both ends. -/
theorem exists_stringLiteral?_iff {piece : List Char} :
    (∃ inner, stringLiteral? piece = some inner) ↔ IsQuoted piece := by
  constructor
  · rintro ⟨inner, h⟩
    exact (of_stringLiteral? h).1
  · rintro ⟨quote, inner, hquote, hpiece⟩
    rw [← Option.ne_none_iff_exists', stringLiteral?_eq, ne_eq, List.findSome?_eq_none_iff]
    intro hnone
    have hmem : [quote] ∈ [['"', '"', '"'], ['\'', '\'', '\''], ['"'], ['\'']] := by
      rcases isQuote_iff.mp hquote with rfl | rfl <;> decide
    have hinner : between? [quote] piece = some inner := between?_eq_some_iff.mpr hpiece
    rw [hnone _ hmem] at hinner
    exact absurd hinner (by simp)

/-! ## Beginnings -/

/-- A name begins with no quote, sign, point or digit. -/
theorem not_isName_cons {c : Char} (hc : isQuote c = true ∨ c = '-' ∨ c = '+' ∨ c = '.' ∨
    isAsciiDigit c = true) (rest : List Char) : isName (c :: rest) = false := by
  have hstart : (c == '_' || isAlphabetic c) = false := by
    rcases hc with hc | rfl | rfl | rfl | hc
    · rcases isQuote_iff.mp hc with rfl | rfl <;> decide
    · decide
    · decide
    · decide
    · have hword := isWordStart_of_digit hc
      unfold isWordStart at hword
      rw [Bool.or_eq_false_iff, Bool.or_eq_false_iff, Bool.not_eq_false'] at hword
      unfold isAlphabetic
      rw [hword.2, if_pos rfl, hword.1.1, hword.1.2]
      rfl
  show ((c == '_' || isAlphabetic c) && _) = false
  rw [hstart, Bool.false_and]

theorem IsQuoted.not_isName {piece : List Char} (h : IsQuoted piece) : isName piece = false := by
  obtain ⟨quote, inner, hquote, rfl⟩ := h
  exact not_isName_cons (Or.inl hquote) _

/-- What begins like a number begins with a sign, a digit or a point. -/
theorem StartsNumber.exists_cons {cs : List Char} (h : StartsNumber cs) :
    ∃ c rest, cs = c :: rest ∧ (c = '-' ∨ c = '+' ∨ c = '.' ∨ isAsciiDigit c = true) := by
  obtain ⟨first, hfirst, hkind⟩ := h
  cases cs with
  | nil => exact absurd hfirst (by simp)
  | cons c rest =>
      refine ⟨c, rest, rfl, ?_⟩
      rw [List.dropWhile_cons] at hfirst
      split at hfirst
      · next hsign =>
          rw [Bool.or_eq_true, beq_iff_eq, beq_iff_eq] at hsign
          exact hsign.imp_right Or.inl
      · obtain rfl : c = first := Option.some.inj hfirst
        exact Or.inr (Or.inr hkind.symm)

theorem StartsNumber.not_isName {cs : List Char} (h : StartsNumber cs) : isName cs = false := by
  obtain ⟨c, rest, rfl, hc⟩ := h.exists_cons
  exact not_isName_cons (Or.inr hc) rest

theorem StartsNumber.not_isQuoted {cs : List Char} (h : StartsNumber cs) : ¬ IsQuoted cs := by
  rintro ⟨quote, inner, hquote, rfl⟩
  obtain ⟨c, rest, hcons, hc⟩ := h.exists_cons
  obtain ⟨rfl, -⟩ := List.cons.inj hcons
  rcases isQuote_iff.mp hquote with rfl | rfl <;> exact absurd hc (by decide)

/-- The words for truth values and nothing. -/
def IsConstant (piece : List Char) : Prop :=
  piece = "True".toList ∨ piece = "False".toList ∨ piece = "None".toList

theorem IsConstant.isName {piece : List Char} (h : IsConstant piece) : isName piece = true := by
  rcases h with rfl | rfl | rfl <;> decide

/-! ## Values by the kind of a piece -/

variable {locals : Members} {text : List Char}

theorem stringLiteral?_eq_none {piece : List Char} (h : ¬ IsQuoted piece) :
    stringLiteral? piece = none := by
  by_contra hne
  exact h (exists_stringLiteral?_iff.mp (Option.ne_none_iff_exists'.mp hne))

theorem valueOf_string {inner : List Char} (h : stringLiteral? (trim text) = some inner) :
    valueOf text locals = .str (String.ofList inner) := by
  unfold valueOf
  dsimp only
  rw [h]

/-- The value of a piece that is neither between quotes nor a word for a constant. -/
theorem valueOf_other (hquoted : ¬ IsQuoted (trim text)) (hconstant : ¬ IsConstant (trim text)) :
    valueOf text locals =
      match numberLiteral? (trim text) with
      | some number => number
      | none =>
          if isName (trim text) then
            (locals.get? (String.ofList (trim text))).getD (.str (String.ofList (trim text)))
          else .str (String.ofList (trim text)) := by
  unfold IsConstant at hconstant
  rw [not_or, not_or] at hconstant
  unfold valueOf
  dsimp only
  rw [stringLiteral?_eq_none hquoted]
  exact (if_neg hconstant.1).trans ((if_neg hconstant.2.1).trans (if_neg hconstant.2.2))

theorem not_isConstant {piece : List Char} (h : isName piece = false) : ¬ IsConstant piece :=
  fun hconstant => absurd hconstant.isName (ne_true_of_eq_false h)

theorem valueOf_number {v : Json} (h : numberLiteral? (trim text) = some v) :
    valueOf text locals = v := by
  have hstarts := (exists_of_numberLiteral? h).1
  rw [valueOf_other hstarts.not_isQuoted (not_isConstant hstarts.not_isName), h]

theorem valueOf_constant :
    (trim text = "True".toList → valueOf text locals = .bool true) ∧
      (trim text = "False".toList → valueOf text locals = .bool false) ∧
      (trim text = "None".toList → valueOf text locals = .null) := by
  have hquoted : IsConstant (trim text) → stringLiteral? (trim text) = none := fun h =>
    stringLiteral?_eq_none fun hquoted =>
      absurd h.isName (ne_true_of_eq_false hquoted.not_isName)
  unfold valueOf
  dsimp only
  refine ⟨fun h => ?_, fun h => ?_, fun h => ?_⟩
  · rw [hquoted (Or.inl h), if_pos h]
  · rw [hquoted (Or.inr (Or.inl h)), h]
    rfl
  · rw [hquoted (Or.inr (Or.inr h)), h]
    rfl

/-- **A piece that is not taken for a literal and is no name stands for itself.** -/
theorem valueOf_text (hquoted : ¬ IsQuoted (trim text))
    (hnumber : ∀ n : Numeral, ¬ n.IsIn (trim text)) (hname : isName (trim text) = false) :
    valueOf text locals = .str (String.ofList (trim text)) := by
  have hnone : numberLiteral? (trim text) = none := by
    by_contra hne
    obtain ⟨n, hn⟩ := exists_numberLiteral?_iff.mp (Option.ne_none_iff_exists'.mp hne)
    exact hnumber n hn
  rw [valueOf_other hquoted (not_isConstant hname), hnone]
  dsimp only
  rw [hname, if_neg Bool.false_ne_true]

/-- **A literal has its value**, an integer if it has 64 bits. -/
theorem valueOf_literal {v : Json} (h : IsLiteral (trim text) v)
    (hfits : ∀ k, v = .int k → Fits k) : valueOf text locals = v := by
  cases h with
  | truth h => exact valueOf_constant.1 h
  | falsity h => exact valueOf_constant.2.1 h
  | nothing h => exact valueOf_constant.2.2 h
  | string h => exact valueOf_string h.stringLiteral?
  | @integer n hn htext hinteger =>
      have hread : n.bare.IsRead (.int n.bare.integer) :=
        ⟨Numeral.isInteger_bare.mpr hinteger, rfl, hfits _ rfl⟩
      refine valueOf_number ?_
      rw [← htext]
      exact (numberLiteral?_literal hn.grouped).mpr hread
  | @decimal n x hn htext hpoint hx =>
      have hread : n.bare.IsRead (.float x) := ⟨fun h => hpoint (Numeral.isInteger_bare.mp h.1), hx⟩
      refine valueOf_number ?_
      rw [← htext]
      exact (numberLiteral?_literal hn.grouped).mpr hread

/-! ## Sound pieces -/

/-- A piece between quotes that has a fitting value is a string. -/
theorem IsReading.quoted (h : IsReading locals (trim text) (valueOf text locals))
    (hquoted : IsQuoted (trim text)) : ∃ content, IsString (trim text) content := by
  obtain ⟨inner, hinner⟩ := exists_stringLiteral?_iff.mpr hquoted
  rw [valueOf_string hinner] at h
  rcases h with hown | ⟨hname, -⟩ | hliteral
  · -- the text between the quotes is shorter than the piece
    have hlength := (of_stringLiteral? hinner).2
    rw [String.ofList_injective (Json.str.inj hown)] at hlength
    exact absurd hlength (lt_irrefl _)
  · exact absurd hname (ne_true_of_eq_false hquoted.not_isName)
  · generalize hvalue : Json.str (String.ofList inner) = v at hliteral
    cases hliteral with
    | string h => exact ⟨_, h⟩
    | _ => exact absurd hvalue (by simp)

/-- A piece that is read as a number and has a fitting value is a number. -/
theorem IsReading.number (h : IsReading locals (trim text) (valueOf text locals)) {n : Numeral}
    (hn : n.IsIn (trim text)) :
    ∃ m : Numeral, m.IsLiteral ∧ m.text = trim text ∧ (m.IsInteger → Fits m.bare.integer) := by
  obtain ⟨v, hv⟩ := exists_numberLiteral?_iff.mpr ⟨n, hn⟩
  have hread := (numberLiteral?_text hn.starts hn.run hn.text).mp hv
  rw [valueOf_number hv] at h
  rcases h with rfl | ⟨hname, -⟩ | hliteral
  · exact absurd hread id
  · exact absurd hname (ne_true_of_eq_false hn.starts.not_isName)
  · cases hliteral with
    | @integer m hm htext hinteger => exact ⟨m, hm, htext, fun _ => hread.2.2⟩
    | @decimal m x hm htext hpoint => exact ⟨m, hm, htext, fun h => absurd h hpoint⟩
    | _ => exact absurd hread id

/-- **A sound piece has a fitting value.** -/
theorem IsSound.isReading (h : IsSound (trim text)) :
    IsReading locals (trim text) (valueOf text locals) := by
  -- in the order of the reader: strings, constants, numbers, names
  by_cases hquoted : IsQuoted (trim text)
  · obtain ⟨content, hcontent⟩ := h.quoted hquoted
    rw [valueOf_string hcontent.stringLiteral?]
    exact Or.inr (Or.inr (.string hcontent))
  by_cases hconstant : IsConstant (trim text)
  · refine Or.inr (Or.inr ?_)
    rcases hconstant with h | h | h
    · rw [valueOf_constant.1 h]
      exact .truth h
    · rw [valueOf_constant.2.1 h]
      exact .falsity h
    · rw [valueOf_constant.2.2 h]
      exact .nothing h
  cases hnumber : numberLiteral? (trim text) with
  | some v =>
      rw [valueOf_number hnumber]
      obtain ⟨n, hn⟩ := exists_numberLiteral?_iff.mp ⟨v, hnumber⟩
      obtain ⟨m, hm, htext, hfits⟩ := h.number n hn
      rw [← htext] at hnumber
      have hread := (numberLiteral?_literal hm.grouped).mp hnumber
      refine Or.inr (Or.inr ?_)
      cases v with
      | int k =>
          obtain ⟨hinteger, rfl, -⟩ := hread
          exact .integer hm htext (Numeral.isInteger_bare.mp hinteger)
      | float x =>
          refine .decimal hm htext (fun hinteger => ?_) hread.2
          exact hread.1 ⟨Numeral.isInteger_bare.mpr hinteger, hfits hinteger⟩
      | _ => exact absurd hread id
  | none =>
      rw [valueOf_other hquoted hconstant, hnumber]
      dsimp only
      split
      · next hname =>
          cases hlocal : locals.get? (String.ofList (trim text)) with
          | some v => exact Or.inr (Or.inl ⟨hname, hlocal⟩)
          | none => exact Or.inl rfl
      · exact Or.inl rfl

/-- **A piece is decoded only when it is one literal, if it is sound.** The value of a piece is its
own text, the local that it names or that of the literal that it is, if and only if the piece is a
string when it stands between quotes, and a number, an integer of 64 bits or a decimal, when it is
one without its underscores. Every literal has its value, but integers of more than 64 bits, and
what is neither between quotes nor a number nor a name stands for itself. -/
theorem value_reading_iff (text : List Char) (locals : Members) :
    (IsReading locals (trim text) (valueOf text locals) ↔ IsSound (trim text)) ∧
      (∀ v, IsLiteral (trim text) v → (∀ k, v = .int k → Fits k) → valueOf text locals = v) ∧
      (¬ IsQuoted (trim text) → (∀ n : Numeral, ¬ n.IsIn (trim text)) →
        isName (trim text) = false → valueOf text locals = .str (String.ofList (trim text))) :=
  ⟨⟨fun h => ⟨h.quoted, fun _ => h.number⟩, IsSound.isReading⟩, fun _ => valueOf_literal,
    valueOf_text⟩

/-! ## Pieces that are taken for literals -/

namespace Mistaken

/-- Two strings that are added. -/
def strings : List Char := "\"a\" + \"b\"".toList

/-- The least integer with more than 64 bits. -/
def large : List Char := "9223372036854775808".toList

theorem trim_strings : trim strings = strings := by decide

theorem trim_large : trim large = large := by decide

theorem isQuoted_strings : IsQuoted (trim strings) :=
  ⟨'"', "a\" + \"b".toList, rfl, trim_strings⟩

/-- The first string ends inside the piece. -/
theorem not_stands_strings : ¬ (Lexeme.literal strings).Stands [] := by
  rintro ⟨c, more, htext, htake⟩
  obtain ⟨rfl, rfl⟩ := List.cons.inj (show '"' :: strings.tail = c :: more from htext)
  exact absurd htake (by decide)

/-- The large integer. -/
def numeral : Numeral := ⟨[], large, none, none⟩

theorem isIn_large : numeral.IsIn large where
  starts := startsNumber_iff.mpr ⟨'9', rfl, rfl⟩
  run := by
    have hrun : IsRun large := ⟨by decide, List.all_eq_true.mp rfl⟩
    exact ⟨Or.inl rfl, Or.inr hrun, fun f hf => absurd hf (by simp [numeral]),
      Or.inl hrun.1, fun p hp => absurd hp (by simp [numeral]),
      fun p hp => absurd hp (by simp [numeral]), fun p hp => absurd hp (by simp [numeral])⟩
  text := by decide
  small := Numeral.magnitude_lt ⟨rfl, rfl⟩ (by decide)

theorem not_fits_large : ¬ Fits numeral.integer := by decide

/-- However it is written, the integer does not have 64 bits. -/
theorem not_fits_of_text {m : Numeral} (hm : m.IsLiteral) (htext : m.text = large)
    (hfits : m.IsInteger → Fits m.bare.integer) : False := by
  have hinteger : m.IsInteger := by
    refine (hm.grouped.isInteger_iff isGrouped_chars).mpr ?_
    rw [htext]
    intro c hc
    have hdigit := List.all_eq_true.mp (show large.all isAsciiDigit = true from rfl) c hc
    exact no_mark (Or.inr (Or.inr (Or.inl hdigit)))
  have hread := (int64?_text hm.grouped.bare).mpr
    ⟨Numeral.isInteger_bare.mpr hinteger, rfl, hfits hinteger⟩
  have hnone : int64? (dropUnderscores large) = none := by decide
  rw [hm.grouped.text_bare, htext, hnone] at hread
  exact absurd hread (by simp)

end Mistaken

/-- The sum of two strings is taken for a string, and a large integer for a decimal. -/
theorem sum_and_large_misread :
    trim Mistaken.strings = Mistaken.strings ∧
      valueOf Mistaken.strings {} = .str "a\" + \"b" ∧
      ¬ IsReading {} Mistaken.strings (valueOf Mistaken.strings {}) ∧
      trim Mistaken.large = Mistaken.large ∧
      (∃ x, valueOf Mistaken.large {} = .float x) ∧
      ¬ IsReading {} Mistaken.large (valueOf Mistaken.large {}) := by
  refine ⟨Mistaken.trim_strings, by cbv, ?_, Mistaken.trim_large, ?_, ?_⟩
  · intro h
    have hreading : IsReading {} (trim Mistaken.strings) (valueOf Mistaken.strings {}) := by
      rwa [Mistaken.trim_strings]
    obtain ⟨content, hstring⟩ := hreading.quoted Mistaken.isQuoted_strings
    rw [Mistaken.trim_strings] at hstring
    exact Mistaken.not_stands_strings hstring.stands
  · have hread : Mistaken.numeral.IsRead (.float Mistaken.numeral.nearest) :=
      ⟨fun h => Mistaken.not_fits_large h.2, Numeral.isNearest_iff.mpr
        ⟨Mistaken.numeral.isFinite_nearest.mpr Mistaken.isIn_large.small, rfl⟩⟩
    have hnumber := (numberLiteral?_text Mistaken.isIn_large.starts Mistaken.isIn_large.run
      Mistaken.isIn_large.text).mpr hread
    rw [← Mistaken.trim_large] at hnumber
    exact ⟨_, valueOf_number hnumber⟩
  · intro h
    have hreading : IsReading {} (trim Mistaken.large) (valueOf Mistaken.large {}) := by
      rwa [Mistaken.trim_large]
    have hin : Mistaken.numeral.IsIn (trim Mistaken.large) := by
      rw [Mistaken.trim_large]
      exact Mistaken.isIn_large
    obtain ⟨m, hm, htext, hfits⟩ := hreading.number hin
    rw [Mistaken.trim_large] at htext
    exact Mistaken.not_fits_of_text hm htext hfits

end ChangeScope.Call
