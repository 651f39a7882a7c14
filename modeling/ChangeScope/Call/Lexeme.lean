import ChangeScope.Text.Letter

/-!
# Lexemes of a function body

A body is cut into comments, string literals, numbers, words and single marks. The cut needs no
valid source: a literal that is not closed ends at the end of its line, or of the body when it
opens with three quotes. Main statement: the lexemes of a body, joined, are the body
(`text_lexemes`).
-/

set_option autoImplicit false

namespace ChangeScope.Call

open ChangeScope.Text

/-- A piece of a function body. -/
inductive Lexeme where
  | comment (text : List Char)
  | literal (text : List Char)
  | number (text : List Char)
  | word (text : List Char)
  | mark (c : Char)
deriving DecidableEq, Repr

/-- The characters of a lexeme. -/
def Lexeme.text : Lexeme → List Char
  | .comment t => t
  | .literal t => t
  | .number t => t
  | .word t => t
  | .mark c => [c]

/-! ## Characters -/

/-- May begin a word: a letter, the underscore, or any character beyond ASCII. -/
def isWordStart (c : Char) : Bool := c == '_' || isAsciiLetter c || !isAscii c

/-- May continue a word. -/
def isWordPart (c : Char) : Bool := isWordStart c || isAsciiDigit c

/-- May continue a number. -/
def isNumberPart (c : Char) : Bool := isWordPart c || c == '.'

/-- Opens and closes a string literal. -/
def isQuote (c : Char) : Bool := c == '"' || c == '\''

/-! ## Literals -/

/-- The rest of a literal after one opening quote, and the text after it: up to the closing quote,
or before the end of the line. A backslash takes the next character along. -/
def takeLine (quote : Char) : List Char → List Char × List Char
  | [] => ([], [])
  | ['\\'] => (['\\'], [])
  | '\\' :: c :: rest =>
      let (inner, after) := takeLine quote rest
      ('\\' :: c :: inner, after)
  | c :: rest =>
      if c = quote then ([c], rest)
      else if c = '\n' then ([], c :: rest)
      else
        let (inner, after) := takeLine quote rest
        (c :: inner, after)

/-- The rest of a literal after three opening quotes, and the text after it: up to three closing
quotes, or all. -/
def takeBlock (quote : Char) : List Char → List Char × List Char
  | [] => ([], [])
  | ['\\'] => (['\\'], [])
  | '\\' :: c :: rest =>
      let (inner, after) := takeBlock quote rest
      ('\\' :: c :: inner, after)
  | c :: rest =>
      match [quote, quote, quote].isPrefixOf? (c :: rest) with
      | some after => ([quote, quote, quote], after)
      | none =>
          let (inner, after) := takeBlock quote rest
          (c :: inner, after)

/-- A literal from its opening quote on, and the text after it. -/
def takeLiteral (quote : Char) (rest : List Char) : List Char × List Char :=
  match [quote, quote].isPrefixOf? rest with
  | some inner =>
      let (body, after) := takeBlock quote inner
      (quote :: quote :: quote :: body, after)
  | none =>
      let (body, after) := takeLine quote rest
      (quote :: body, after)

/-! ## Lexemes -/

/-- The lexeme that begins with a character, and the text after it. -/
def takeLexeme (c : Char) (rest : List Char) : Lexeme × List Char :=
  if c = '#' then
    (.comment (c :: rest.takeWhile (· != '\n')), rest.dropWhile (· != '\n'))
  else if isQuote c then
    let (text, after) := takeLiteral c rest
    (.literal text, after)
  else if isAsciiDigit c then
    (.number (c :: rest.takeWhile isNumberPart), rest.dropWhile isNumberPart)
  else if isWordStart c then
    (.word (c :: rest.takeWhile isWordPart), rest.dropWhile isWordPart)
  else
    (.mark c, rest)

theorem takeLine_append (quote : Char) (cs : List Char) :
    (takeLine quote cs).1 ++ (takeLine quote cs).2 = cs := by
  fun_induction takeLine quote cs <;> simp_all

private theorem isPrefixOf?_append {a b after : List Char} (h : a.isPrefixOf? b = some after) :
    a ++ after = b := by
  induction a generalizing b with
  | nil => exact (Option.some.inj h).symm
  | cons x a ih =>
      cases b with
      | nil => exact absurd (show none = some after from h) (by simp)
      | cons y b =>
          have hcons : (if x == y then a.isPrefixOf? b else none) = some after := h
          split at hcons
          · next hxy => rw [List.cons_append, ih hcons, eq_of_beq hxy]
          · exact absurd hcons (by simp)

theorem takeBlock_append (quote : Char) (cs : List Char) :
    (takeBlock quote cs).1 ++ (takeBlock quote cs).2 = cs := by
  fun_induction takeBlock quote cs with
  | case4 c rest _ _ _ h => exact isPrefixOf?_append h
  | _ => simp_all

/-- A literal and the text after it are the text from its opening quote on. -/
theorem takeLiteral_append (quote : Char) (rest : List Char) :
    (takeLiteral quote rest).1 ++ (takeLiteral quote rest).2 = quote :: rest := by
  unfold takeLiteral
  split
  · next inner h =>
      have := takeBlock_append quote inner
      simp [← isPrefixOf?_append h, this]
  · have := takeLine_append quote rest
    simp [this]

/-- A lexeme and the text after it are the text from its first character on. -/
theorem takeLexeme_append (c : Char) (rest : List Char) :
    (takeLexeme c rest).1.text ++ (takeLexeme c rest).2 = c :: rest := by
  unfold takeLexeme
  split
  · simp [Lexeme.text]
  · split
    · exact takeLiteral_append c rest
    · split
      · simp [Lexeme.text]
      · split <;> simp [Lexeme.text]

/-- A lexeme begins with the character that it is taken from. -/
theorem takeLexeme_text (c : Char) (rest : List Char) :
    ∃ more, (takeLexeme c rest).1.text = c :: more := by
  unfold takeLexeme
  split
  · exact ⟨_, rfl⟩
  · split
    · simp only [Lexeme.text, takeLiteral]
      split <;> exact ⟨_, rfl⟩
    · split
      · exact ⟨_, rfl⟩
      · split <;> exact ⟨_, rfl⟩

theorem length_takeLexeme_le (c : Char) (rest : List Char) :
    (takeLexeme c rest).2.length ≤ rest.length := by
  obtain ⟨more, h⟩ := takeLexeme_text c rest
  have := congrArg List.length (takeLexeme_append c rest)
  rw [h] at this
  simp only [List.cons_append, List.length_cons, List.length_append] at this
  omega

/-- The lexemes of a body, in order. -/
def lexemes : List Char → List Lexeme
  | [] => []
  | c :: rest =>
      let step := takeLexeme c rest
      step.1 :: lexemes step.2
  termination_by cs => cs.length
  decreasing_by
    have := length_takeLexeme_le c rest
    simp only [List.length_cons]
    omega

/-- The text of lexemes in a row. -/
def textOf (ls : List Lexeme) : List Char := ls.flatMap Lexeme.text

/-- The lexemes of a body, joined, are the body. -/
theorem text_lexemes (cs : List Char) : textOf (lexemes cs) = cs := by
  fun_induction lexemes cs with
  | case1 => rfl
  | case2 c rest step ih =>
      simp only [textOf, List.flatMap_cons] at ih ⊢
      rw [ih]
      exact takeLexeme_append c rest

end ChangeScope.Call
