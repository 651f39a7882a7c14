import ChangeScope.Proofs.Call.Piece
import ChangeScope.Proofs.FunctionId

/-!
# The lexemes of the qualified body

An id can be read back when it is a file without boundaries and a name that can be called. Where
all ids can, the qualified body is cut into the lexemes of the ids and those that stand around
them in the body (`Cut.standing_target`).
-/

set_option autoImplicit false

namespace ChangeScope.Call

open ChangeScope.Text

variable {tree : FileTree} {scope : Scope}

/-! ## Lookup -/

/-- The lookup reads the form and the name only. -/
theorem resolve?_congr {c d : Candidate} (hform : c.form = d.form) (hname : c.name = d.name) :
    scope.resolve? tree c = scope.resolve? tree d := by
  unfold Scope.resolve?
  rw [hform, hname]

/-- A call with its file in front calls that function. -/
theorem resolve?_qualified {c : Candidate} {file : String} (h : c.form = .qualified file) :
    scope.resolve? tree c = some (FunctionId.make ⟨file⟩ c.name) := by
  unfold Scope.resolve?
  rw [h]

/-! ## Ids that can be read -/

/-- The id is a file without boundaries and comments, and a name that can be called. -/
structure ReadsAs (id : String) (file name : List Char) : Prop where
  text : id.toList = file ++ ':' :: ':' :: name
  file_ne : file ≠ []
  file_plain : ∀ c ∈ file, isFileBoundary c = false ∧ c ≠ '#'
  name_word : (Lexeme.word name).Shaped
  name_called : keywords.contains (String.ofList name) = false

/-- The id is read back as one call. -/
def IsReadable (id : String) : Prop := ∃ file name, ReadsAs id file name

/-- All ids of the known candidates can be read. -/
def AllReadable (cs : List Entry) : Prop := ∀ c id, (c, some id) ∈ cs → IsReadable id

theorem AllReadable.tail {e : Entry} {cs : List Entry} (h : AllReadable (e :: cs)) :
    AllReadable cs :=
  fun c id hc => h c id (List.mem_cons_of_mem _ hc)

/-- Lexemes without literals and comments also stand before a colon. -/
theorem Standing.before_colon {ls : List Lexeme} (h : Standing ls [])
    (hplain : ∀ c ∈ textOf ls, isFileBoundary c = false ∧ c ≠ '#') (rest : List Char) :
    Standing ls (':' :: rest) := by
  induction ls with
  | nil => trivial
  | cons l ls ih =>
      obtain ⟨hl, hls⟩ := h
      have hrest := ih hls fun c hc => hplain c (List.mem_append_right _ hc)
      refine ⟨?_, hrest⟩
      cases htext : textOf ls with
      | cons c more =>
          rw [htext] at hl
          exact hl.of_head rfl
      | nil =>
          rw [htext] at hl
          obtain ⟨hshape, -⟩ := hl.shaped_fits
          have hmem : ∀ c ∈ l.text, isFileBoundary c = false ∧ c ≠ '#' :=
            fun c hc => hplain c (List.mem_append_left _ hc)
          apply Lexeme.stands_of_shaped hshape
          -- only a comment or a literal could go on over the colon
          cases l with
          | comment t =>
              obtain ⟨more, rfl, -⟩ := hshape
              exact absurd rfl (hmem '#' List.mem_cons_self).2
          | literal t =>
              obtain ⟨quote, more, rfl, hquote⟩ := hshape
              have hquote' := isFileBoundary_of_quote hquote
              rw [(hmem quote List.mem_cons_self).1] at hquote'
              exact absurd hquote' Bool.false_ne_true
          | number t =>
              intro d hd
              obtain rfl : ':' = d := Option.some.inj hd
              decide
          | word t =>
              intro d hd
              obtain rfl : ':' = d := Option.some.inj hd
              decide
          | mark c => trivial

/-- A colon is a lexeme of its own. -/
theorem colon_stands (after : List Char) : (Lexeme.mark ':').Stands after := by
  apply Lexeme.stands_of_shaped
  · exact ⟨by decide, by decide, by decide, by decide⟩
  · trivial

theorem ReadsAs.standing {id : String} {file name after : List Char} (h : ReadsAs id file name)
    (hafter : ∀ c, after.head? = some c → isWordPart c = false) :
    Standing (lexemes file ++ [.mark ':', .mark ':', .word name]) after := by
  rw [standing_append]
  constructor
  · apply Standing.before_colon (standing_lexemes file)
    rw [text_lexemes]
    exact h.file_plain
  · refine ⟨colon_stands _, colon_stands _, ?_, trivial⟩
    exact Lexeme.stands_of_shaped h.name_word hafter

/-- The lexemes of an id. -/
theorem ReadsAs.lexemes_eq {id : String} {file name : List Char} (h : ReadsAs id file name) :
    lexemes id.toList = lexemes file ++ [.mark ':', .mark ':', .word name] := by
  have hstanding : Standing (lexemes file ++ [.mark ':', .mark ':', .word name]) [] :=
    h.standing fun c hc => absurd hc (by simp)
  have hlexemes := lexemes_of_standing hstanding
  have htext : textOf (lexemes file ++ [.mark ':', .mark ':', .word name]) = id.toList := by
    rw [textOf_append, text_lexemes, h.text]
    simp [Lexeme.text]
  rwa [htext] at hlexemes

/-! ## The lexemes of the qualified body -/

/-- The lexemes of a piece in the qualified body. -/
def Piece.target : Piece → List Lexeme
  | .plain l => [l]
  | .call _ _ id => lexemes id.toList

/-- The lexemes of pieces in the qualified body. -/
def targetOf (ps : List Piece) : List Lexeme := ps.flatMap Piece.target

@[simp] theorem targetOf_nil : targetOf [] = [] := rfl

@[simp] theorem targetOf_plain (l : Lexeme) (ps : List Piece) :
    targetOf (.plain l :: ps) = l :: targetOf ps := rfl

@[simp] theorem targetOf_call (q : List Lexeme) (w : List Char) (id : String) (ps : List Piece) :
    targetOf (.call q w id :: ps) = lexemes id.toList ++ targetOf ps := rfl

@[simp] theorem text_target (ps : List Piece) : textOf (targetOf ps) = shownOf ps := by
  induction ps with
  | nil => rfl
  | cons p ps ih =>
      cases p with
      | plain l => rw [targetOf_plain, textOf_cons, ih, shownOf_plain]
      | call q w id => rw [targetOf_call, textOf_append, text_lexemes, ih, shownOf_call]

/-- A called expression without its file in front begins like a word. -/
theorem Form.Reads.word_head {form : Form} {q rest w : List Char} (h : form.Reads q.reverse rest)
    (hform : ∀ file, form ≠ .qualified file) (hw : (Lexeme.word w).Shaped) :
    ∃ d more, q ++ w = d :: more ∧ isWordStart d = true := by
  match form, h with
  | .bare, h =>
      obtain ⟨d, more, rfl, hd, -⟩ := hw
      have hq : q = [] := List.reverse_eq_nil_iff.mp h
      exact ⟨d, more, by rw [hq, List.nil_append], hd⟩
  | .attribute _, ⟨chain, first, hq, _, hlast, hfirst, _⟩ =>
      have hhead : q.head? = some first := by
        rw [← List.getLast?_reverse, hq, List.getLast?_cons, hlast]
        rfl
      obtain ⟨more, hmore⟩ := List.head?_eq_some_iff.mp hhead
      exact ⟨first, more ++ w, by rw [hmore, List.cons_append], hfirst⟩
  | .qualified file, _ => exact absurd rfl (hform file)

/-- The qualifier with a file is that file before two colons. -/
theorem Form.Reads.qualified_text {file : String} {q rest : List Char}
    (h : (Form.qualified file).Reads q.reverse rest) : q = file.toList ++ [':', ':'] := by
  obtain ⟨path, hq, rfl, -⟩ := h
  rw [String.toList_ofList, ← List.reverse_reverse q, hq]
  simp

/-- The id of a call with its file in front is the called expression. -/
theorem id_of_qualified {c : Candidate} {id : String} {q w rest : List Char}
    (hform : ∃ file, c.form = .qualified file) (hreads : c.form.Reads q.reverse rest)
    (hname : c.name = String.ofList w) (hid : scope.resolve? tree c = some id) :
    id.toList = q ++ w := by
  obtain ⟨file, hform⟩ := hform
  rw [resolve?_qualified hform, Option.some.injEq] at hid
  rw [hform] at hreads
  rw [← hid, FunctionId.toList_make, hname, String.toList_ofList, hreads.qualified_text]
  simp

/-- Behind a known call stands no part of its name. -/
theorem Cut.next_of_call {after : List Lexeme} {before : List Char} {ps : List Piece}
    {cs : List Entry} (h : Cut (scope.resolve? tree) after before ps cs)
    (hparen : (afterParen? (sourceOf ps ++ after)).isSome = true) (c : Char)
    (hc : (shownOf ps).head? = some c) : isWordPart c = false := by
  rcases h.after_call hparen with ⟨rfl, -⟩ | ⟨d, ps', rfl, hd, -⟩
  · exact absurd hc (by simp)
  · have hcd : d = c := by simpa [Lexeme.text] using hc
    have hnumber := isNumberPart_of_boundary (isFileBoundary_of_break hd)
    rw [isNumberPart, Bool.or_eq_false_iff] at hnumber
    rw [← hcd]
    exact hnumber.1

/-- A lexeme of the body also stands before the qualified pieces after it. -/
theorem Cut.stands_target {before : List Char} {ps : List Piece} {cs : List Entry}
    (h : Cut (scope.resolve? tree) [] before ps cs) (hids : AllReadable cs)
    (hs : Standing (sourceOf ps) []) {l : Lexeme} (hl : l.Stands (textOf (sourceOf ps))) :
    l.Stands (shownOf ps) := by
  cases h with
  | nil => exact hl
  | @skip _ l' ps cs hnone hrest =>
      obtain ⟨hl', -⟩ := hs
      obtain ⟨c, more, htext, -⟩ := hl'
      rw [sourceOf_plain, textOf_cons, htext] at hl
      rw [shownOf_plain, htext]
      exact hl.of_head rfl
  | @unknown _ w ps cs c hfound hid hrest =>
      obtain ⟨hw, -⟩ := hs
      obtain ⟨d, more, htext, -⟩ := hw
      rw [sourceOf_plain, textOf_cons, htext] at hl
      rw [shownOf_plain, htext]
      exact hl.of_head rfl
  | @known _ w q id ps cs c hq hfound hreads hid hrest =>
      rw [sourceOf_call] at hs hl
      rw [shownOf_call]
      obtain ⟨-, hw, -⟩ := standing_append.mp hs
      obtain ⟨hshape, -⟩ := hw.shaped_fits
      obtain ⟨-, hname, -⟩ := candidateAt_spec hfound
      rw [textOf_call] at hl
      by_cases hform : ∃ file, c.form = .qualified file
      · -- the call stays as it is written
        rw [id_of_qualified hform hreads hname hid]
        obtain ⟨d, more, hw', -⟩ := hshape
        obtain ⟨e, rest, hspan⟩ := List.exists_cons_of_ne_nil
          (List.append_ne_nil_of_right_ne_nil (textOf q) (hw' ▸ List.cons_ne_nil d more))
        rw [hspan] at hl ⊢
        exact hl.of_head rfl
      · have hform' : ∀ file, c.form ≠ .qualified file := fun file hf => hform ⟨file, hf⟩
        obtain ⟨d, more, hd, hstart⟩ := hreads.word_head hform' hshape
        obtain ⟨file, name, hid'⟩ := hids c id List.mem_cons_self
        rw [hd] at hl
        have hpart : isWordPart d = true := by rw [isWordPart, hstart, Bool.true_or]
        refine hl.of_word rfl hpart fun e he => ?_
        -- the id begins with a character of a file, which is no quote
        obtain ⟨f, file', hfile⟩ := List.exists_cons_of_ne_nil hid'.file_ne
        rw [hid'.text, hfile, List.cons_append, List.cons_append, List.head?_cons,
          Option.some.injEq] at he
        have hplain := hid'.file_plain f (by rw [hfile]; exact List.mem_cons_self)
        rw [← he]
        exact (inQualifier_of_not_boundary hplain.1).2.1

/-- **The qualified body is cut into the lexemes of the ids and those around them.** -/
theorem Cut.standing_target {before : List Char} {ps : List Piece} {cs : List Entry}
    (h : Cut (scope.resolve? tree) [] before ps cs) (hids : AllReadable cs)
    (hs : Standing (sourceOf ps) []) : Standing (targetOf ps) [] := by
  induction h with
  | nil => trivial
  | @skip _ l ps cs hnone hrest ih =>
      obtain ⟨hl, hsource⟩ := hs
      rw [List.append_nil] at hl
      refine ⟨?_, ih hids hsource⟩
      show l.Stands (textOf (targetOf ps) ++ [])
      rw [text_target, List.append_nil]
      exact hrest.stands_target hids hsource hl
  | @unknown _ w ps cs c hfound hid hrest ih =>
      obtain ⟨hw, hsource⟩ := hs
      rw [List.append_nil] at hw
      refine ⟨?_, ih hids.tail hsource⟩
      show (Lexeme.word w).Stands (textOf (targetOf ps) ++ [])
      rw [text_target, List.append_nil]
      exact hrest.stands_target hids.tail hsource hw
  | @known _ w q id ps cs c hq hfound hreads hid hrest ih =>
      rw [sourceOf_call] at hs
      obtain ⟨-, -, hsource⟩ := standing_append.mp hs
      obtain ⟨file, name, hid'⟩ := hids c id List.mem_cons_self
      obtain ⟨hcalled, -⟩ := candidateAt_spec hfound
      rw [targetOf_call, hid'.lexemes_eq, standing_append]
      refine ⟨?_, ih hids.tail hsource⟩
      rw [text_target, List.append_nil]
      exact hid'.standing (hrest.next_of_call (isCalled_paren hcalled))

end ChangeScope.Call
