import ChangeScope.Proofs.Call.Lexing

/-!
# Code, literals and comments

What each character of a text is part of. The text is read from where one stands, and neither words
nor numbers are told apart in it; lexemes that stand in a row say the same of their text
(`places_textOf`). In code the brackets count: how deep a place is, is how many more of them open
than close before it.
-/

set_option autoImplicit false

namespace ChangeScope.Call

open ChangeScope.Text

/-! ## Places -/

/-- What a character is part of. -/
inductive Place where
  | code
  | literal
  | comment
deriving DecidableEq, Repr

theorem length_takeLiteral_le (quote : Char) (rest : List Char) :
    (takeLiteral quote rest).2.length ≤ rest.length := by
  have htext : ∃ more, (takeLiteral quote rest).1 = quote :: more := by
    unfold takeLiteral
    split <;> exact ⟨_, rfl⟩
  obtain ⟨more, hmore⟩ := htext
  have happend := congrArg List.length (takeLiteral_append quote rest)
  rw [hmore, List.cons_append, List.length_cons, List.length_cons, List.length_append] at happend
  omega

/-- The characters of a text with what they are part of: a comment goes up to the end of its line,
a literal up to its closing quotes. -/
def places : List Char → List (Place × Char)
  | [] => []
  | c :: rest =>
      if c = '#' then
        (c :: rest.takeWhile (· != '\n')).map (.comment, ·) ++ places (rest.dropWhile (· != '\n'))
      else if isQuote c then
        (takeLiteral c rest).1.map (.literal, ·) ++ places (takeLiteral c rest).2
      else (.code, c) :: places rest
  termination_by cs => cs.length
  decreasing_by
    · have := (List.dropWhile_suffix (· != '\n') (l := rest)).length_le
      simp only [List.length_cons]
      omega
    · have := length_takeLiteral_le c rest
      simp only [List.length_cons]
      omega
    · simp

theorem places_nil : places [] = [] := by rw [places]

theorem places_comment (rest : List Char) : places ('#' :: rest) =
    ('#' :: rest.takeWhile (· != '\n')).map (.comment, ·) ++
      places (rest.dropWhile (· != '\n')) := by
  rw [places, if_pos rfl]

theorem places_literal {c : Char} (hc : isQuote c = true) (rest : List Char) : places (c :: rest) =
    (takeLiteral c rest).1.map (.literal, ·) ++ places (takeLiteral c rest).2 := by
  have hhash : c ≠ '#' := ne_of_kind hc rfl
  rw [places, if_neg hhash, if_pos hc]

theorem places_code {c : Char} (hhash : c ≠ '#') (hquote : isQuote c = false) (rest : List Char) :
    places (c :: rest) = (.code, c) :: places rest := by
  rw [places, if_neg hhash, if_neg (by simp [hquote])]

/-! ## Places of lexemes -/

/-- The characters of a lexeme with what they are part of. -/
def Lexeme.places : Lexeme → List (Place × Char)
  | .comment t => t.map (.comment, ·)
  | .literal t => t.map (.literal, ·)
  | .number t => t.map (.code, ·)
  | .word t => t.map (.code, ·)
  | .mark c => [(.code, c)]

/-- The characters of lexemes in a row with what they are part of. -/
def placesOf (ls : List Lexeme) : List (Place × Char) := ls.flatMap Lexeme.places

@[simp] theorem placesOf_nil : placesOf [] = [] := rfl

@[simp] theorem placesOf_cons (l : Lexeme) (ls : List Lexeme) :
    placesOf (l :: ls) = l.places ++ placesOf ls := rfl

theorem Lexeme.length_places (l : Lexeme) : l.places.length = l.text.length := by
  cases l <;> simp [Lexeme.places, Lexeme.text]

/-- A character that goes on a number or a word begins neither a comment nor a literal. -/
theorem isNumberPart_plain {c : Char} (h : isNumberPart c = true) :
    c ≠ '#' ∧ isQuote c = false := by
  refine ⟨ne_of_kind h rfl, ?_⟩
  rw [isQuote, Bool.or_eq_false_iff, beq_eq_false_iff_ne, beq_eq_false_iff_ne]
  exact ⟨ne_of_kind h rfl, ne_of_kind h rfl⟩

theorem Lexeme.Shaped.number {t : List Char} (h : (Lexeme.number t).Shaped) :
    ∀ c ∈ t, isNumberPart c = true := by
  obtain ⟨d, more, rfl, hdigit, hmore⟩ := h
  intro c hc
  rcases List.mem_cons.mp hc with rfl | hc
  · simp [isNumberPart, isWordPart, hdigit]
  · exact hmore c hc

theorem Lexeme.Shaped.word {t : List Char} (h : (Lexeme.word t).Shaped) :
    ∀ c ∈ t, isNumberPart c = true := by
  obtain ⟨d, more, rfl, hstart, hmore⟩ := h
  intro c hc
  rcases List.mem_cons.mp hc with rfl | hc
  · simp [isNumberPart, isWordPart, hstart]
  · exact isNumberPart_of_wordPart (hmore c hc)

theorem places_plain {cs : List Char} (h : ∀ c ∈ cs, isNumberPart c = true) (after : List Char) :
    places (cs ++ after) = cs.map (.code, ·) ++ places after := by
  induction cs with
  | nil => rfl
  | cons c cs ih =>
      obtain ⟨hhash, hquote⟩ := isNumberPart_plain (h c List.mem_cons_self)
      rw [List.cons_append, places_code hhash hquote,
        ih fun d hd => h d (List.mem_cons_of_mem c hd)]
      rfl

/-- A lexeme tells what its characters are part of. -/
theorem Lexeme.Stands.places_eq {l : Lexeme} {after : List Char} (h : l.Stands after) :
    Call.places (l.text ++ after) = l.places ++ Call.places after := by
  obtain ⟨hshape, hfits⟩ := h.shaped_fits
  cases l with
  | comment t =>
      obtain ⟨more, rfl, hall⟩ := hshape
      obtain ⟨htake, hdrop⟩ := stretch_iff.mpr ⟨hall, hfits⟩
      show Call.places ('#' :: (more ++ after)) = _
      rw [places_comment, htake, hdrop]
      rfl
  | literal t =>
      obtain ⟨quote, more, rfl, hquote, htake⟩ := hshape.literal hfits
      show Call.places (quote :: (more ++ after)) = _
      rw [places_literal hquote, htake]
      rfl
  -- without knowing words and numbers, their characters are read one by one
  | number t => exact places_plain hshape.number after
  | word t => exact places_plain hshape.word after
  | mark c => exact places_code hshape.1 hshape.2.1 after

/-- **Lexemes in a row tell what the characters of their text are part of.** -/
theorem places_textOf {ls : List Lexeme} {after : List Char} (h : Standing ls after) :
    places (textOf ls ++ after) = placesOf ls ++ places after := by
  induction ls with
  | nil => rfl
  | cons l ls ih =>
      obtain ⟨hl, hls⟩ := h
      rw [textOf_cons, List.append_assoc, hl.places_eq, ih hls, placesOf_cons, List.append_assoc]

/-! ## Depth -/

/-- How a character changes the depth: only a bracket in code does. -/
def turn : Place × Char → Int
  | (.code, c) => if opens c then 1 else if closes c then -1 else 0
  | _ => 0

/-- How many more brackets open than close. -/
def depthOf (ps : List (Place × Char)) : Int := (ps.map turn).sum

@[simp] theorem depthOf_nil : depthOf [] = 0 := rfl

@[simp] theorem depthOf_cons (p : Place × Char) (ps : List (Place × Char)) :
    depthOf (p :: ps) = turn p + depthOf ps := by simp [depthOf]

@[simp] theorem depthOf_append (a b : List (Place × Char)) :
    depthOf (a ++ b) = depthOf a + depthOf b := by simp [depthOf]

theorem depthOf_flat {ps : List (Place × Char)} (h : ∀ p ∈ ps, turn p = 0) : depthOf ps = 0 := by
  induction ps with
  | nil => rfl
  | cons p ps ih =>
      rw [depthOf_cons, h p List.mem_cons_self, ih fun q hq => h q (List.mem_cons_of_mem p hq)]
      rfl

/-- A character of a kind that no bracket is of changes no depth. -/
theorem turn_of_kind {kind : Char → Bool} {c : Char} (h : kind c = true)
    (hkind : ['(', '[', '\x7b', ')', ']', '\x7d'].any kind = false) : turn (.code, c) = 0 := by
  have hne : ∀ d ∈ ['(', '[', '\x7b', ')', ']', '\x7d'], c ≠ d := fun d hd =>
    ne_of_kind h (Bool.eq_false_iff.mpr (List.any_eq_false.mp hkind d hd))
  simp only [List.forall_mem_cons, List.not_mem_nil, false_imp_iff, implies_true, and_true] at hne
  obtain ⟨hround, hsquare, hcurly, hround', hsquare', hcurly'⟩ := hne
  have hopens : opens c = false := by simp [opens, hround, hsquare, hcurly]
  have hcloses : closes c = false := by simp [closes, hround', hsquare', hcurly']
  simp [turn, hopens, hcloses]

theorem turn_of_numberPart {c : Char} (h : isNumberPart c = true) : turn (.code, c) = 0 :=
  turn_of_kind h rfl

/-- A lexeme that is no mark is on one depth. -/
theorem Lexeme.Shaped.flat {l : Lexeme} (h : l.Shaped) (hl : ∀ c, l ≠ .mark c) :
    ∀ p ∈ l.places, turn p = 0 := by
  intro p hp
  cases l with
  | comment t =>
      obtain ⟨c, -, rfl⟩ := List.mem_map.mp hp
      rfl
  | literal t =>
      obtain ⟨c, -, rfl⟩ := List.mem_map.mp hp
      rfl
  | number t =>
      obtain ⟨c, hc, rfl⟩ := List.mem_map.mp hp
      exact turn_of_numberPart (h.number c hc)
  | word t =>
      obtain ⟨c, hc, rfl⟩ := List.mem_map.mp hp
      exact turn_of_numberPart (h.word c hc)
  | mark c => exact absurd rfl (hl c)

end ChangeScope.Call
