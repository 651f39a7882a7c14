import ChangeScope.Proofs.Call.Boundary
import ChangeScope.Proofs.Call.Content
import ChangeScope.Proofs.Call.Definition

/-!
# Comments and literals with another content

The content of a comment or a literal is not seen by the scan: with another one the candidates are
the same but for their arguments (`scan_reworded`). There is one way out. Definitions are told by
whole lines, and the last line of a literal of several lines begins inside the literal; so what
follows the literal on this line is left out with one content and looked at with another.
-/

set_option autoImplicit false

namespace ChangeScope.Call

open ChangeScope.Text

/-! ## Texts with the same lines -/

theorem SameLines.refl (a : List Char) : SameLines a a := List.forall₂_refl a

theorem SameLines.append {a b a' b' : List Char} (h : SameLines a b) (h' : SameLines a' b') :
    SameLines (a ++ a') (b ++ b') := List.rel_append h h'

theorem SameLines.reverse {a b : List Char} (h : SameLines a b) : SameLines a.reverse b.reverse :=
  List.rel_reverse h

theorem SameLines.count_eq {a b : List Char} (h : SameLines a b) : a.count '\n' = b.count '\n' := by
  induction h with
  | nil => rfl
  | @cons c d a b hcd _ ih =>
      rw [List.count_cons, List.count_cons, ih]
      have hbeq : (c == '\n') = (d == '\n') := by rw [Bool.eq_iff_iff, beq_iff_eq, beq_iff_eq, hcd]
      rw [hbeq]

/-- The stretches up to the end of the line are equally long. -/
theorem SameLines.length_line {a b : List Char} (h : SameLines a b) :
    (a.takeWhile (· != '\n')).length = (b.takeWhile (· != '\n')).length := by
  induction h with
  | nil => rfl
  | @cons c d a b hcd _ ih =>
      by_cases hc : c = '\n'
      · rw [List.takeWhile_cons_of_neg (by simp [hc]),
          List.takeWhile_cons_of_neg (by simp [hcd.mp hc])]
      · have hd : d ≠ '\n' := fun hd => hc (hcd.mpr hd)
        rw [List.takeWhile_cons_of_pos (by simp [hc]), List.takeWhile_cons_of_pos (by simp [hd]),
          List.length_cons, List.length_cons, ih]

/-! ## Candidates that agree -/

/-- The candidate without its arguments. -/
def Candidate.withoutArgs (c : Candidate) : Candidate := { c with args := "" }

/-- On the lines that are kept, the candidates are the same but for their arguments. -/
def AgreeOn (keep : Nat → Bool) (cs ds : List Candidate) : Prop :=
  (cs.filter fun c => keep c.lineOffset).map Candidate.withoutArgs =
    (ds.filter fun c => keep c.lineOffset).map Candidate.withoutArgs

theorem AgreeOn.append {keep : Nat → Bool} {cs ds cs' ds' : List Candidate}
    (h : AgreeOn keep cs ds) (h' : AgreeOn keep cs' ds') :
    AgreeOn keep (cs ++ cs') (ds ++ ds') := by
  unfold AgreeOn at h h' ⊢
  rw [List.filter_append, List.filter_append, List.map_append, List.map_append, h, h']

/-- All lines are kept. -/
theorem AgreeOn.map_eq {cs ds : List Candidate} (h : AgreeOn (fun _ => true) cs ds) :
    cs.map Candidate.withoutArgs = ds.map Candidate.withoutArgs := by
  unfold AgreeOn at h
  rwa [List.filter_true, List.filter_true] at h

theorem AgreeOn.single {keep : Nat → Bool} {c d : Candidate}
    (h : c.withoutArgs = d.withoutArgs) : AgreeOn keep [c] [d] := by
  have hline : c.withoutArgs.lineOffset = d.withoutArgs.lineOffset := by rw [h]
  rw [AgreeOn, List.filter_cons, List.filter_cons, show c.lineOffset = d.lineOffset from hline]
  split
  · rw [List.filter_nil, List.map_singleton, List.map_singleton, h]
  · rfl

/-- Two words that are read from different texts make the same candidate, if any. -/
def AgreeAt (keep : Nat → Bool) (here there : Except Abort (Option Candidate)) : Prop :=
  ∃ found found', here = .ok found ∧ there = .ok found' ∧ AgreeOn keep found.toList found'.toList

/-- What agrees at each word agrees as a whole. -/
theorem scanPart_agree {keep : Nat → Bool} {after after' : List Lexeme} (ls : List Lexeme) :
    ∀ {before other : List Char},
      (∀ a w rest, ls = a ++ .word w :: rest →
        AgreeAt keep (candidateAt ((textOf a).reverse ++ before) w (rest ++ after))
          (candidateAt ((textOf a).reverse ++ other) w (rest ++ after'))) →
      ∃ cs ds, scanPart after before ls = .ok cs ∧ scanPart after' other ls = .ok ds ∧
        AgreeOn keep cs ds := by
  induction ls with
  | nil => exact fun _ => ⟨[], [], rfl, rfl, rfl⟩
  | cons l ls ih =>
      intro before other hwords
      obtain ⟨cs, ds, hcs, hds, hagree⟩ :=
        @ih (l.text.reverse ++ before) (l.text.reverse ++ other) fun a w rest hls => by
          have hword := hwords (l :: a) w rest (by rw [hls, List.cons_append])
          rwa [textOf_cons, List.reverse_append, List.append_assoc, List.append_assoc] at hword
      by_cases hl : ∃ w, l = .word w
      · obtain ⟨w, rfl⟩ := hl
        obtain ⟨found, found', hfound, hfound', hhere⟩ := hwords [] w ls rfl
        refine ⟨found.toList ++ cs, found'.toList ++ ds, ?_, ?_, hhere.append hagree⟩
        · rw [scanPart, show candidateAt before w (ls ++ after) = _ from hfound,
            show scanPart after (w.reverse ++ before) ls = _ from hcs]
          rfl
        · rw [scanPart, show candidateAt other w (ls ++ after') = _ from hfound',
            show scanPart after' (w.reverse ++ other) ls = _ from hds]
          rfl
      · rw [scanPart_other _ _ fun w hw => hl ⟨w, hw⟩, scanPart_other _ _ fun w hw => hl ⟨w, hw⟩]
        exact ⟨cs, ds, hcs, hds, hagree⟩

/-- In front of a word of ASCII text a form is found, or none. -/
theorem formBefore_ascii {before : List Char} (h : ∀ c ∈ before, isAscii c = true) :
    ∃ found, formBefore before = .ok found := by
  cases hform : formBefore before with
  | ok found => exact ⟨found, rfl⟩
  | error abort =>
      obtain ⟨-, hlast⟩ := formBefore_error_iff.mp hform
      obtain ⟨-, hinside⟩ := (lastBytes_cut_iff before []).mp hlast
      refine absurd (isBoundary_ascii (fun c hc => ?_) ?_) hinside
      · rw [List.append_nil] at hc
        exact h c (List.mem_reverse.mp hc)
      · rw [List.append_nil, byteLength_reverse]
        omega

/-- Behind texts of ASCII with the same lines a word makes the same candidate. -/
theorem candidateOf_agree {before other : List Char} (hascii : ∀ c ∈ before, isAscii c = true)
    (hascii' : ∀ c ∈ other, isAscii c = true) (hlines : SameLines before other) (w : List Char)
    (rest rest' : List Lexeme) (form : Form × Nat) :
    (candidateOf before w rest form).withoutArgs =
      (candidateOf other w rest' form).withoutArgs := by
  have hline : byteLength (before.takeWhile (· != '\n')) =
      byteLength (other.takeWhile (· != '\n')) := by
    rw [byteLength_ascii fun c hc => hascii c ((List.takeWhile_prefix _).subset hc),
      byteLength_ascii fun c hc => hascii' c ((List.takeWhile_prefix _).subset hc),
      hlines.length_line]
  have hlength : byteLength before = byteLength other := by
    rw [byteLength_ascii hascii, byteLength_ascii hascii', hlines.length_eq]
  unfold candidateOf Candidate.withoutArgs
  rw [hlines.count_eq, hline, hlength]

/-- The candidate at a word, where the same is read in front of it, the same blanks and parenthesis
follow, and on a kept line both stand in a definition or neither. -/
theorem candidateAt_agree {keep : Nat → Bool} {before other w : List Char}
    {rest rest' : List Lexeme} (hascii : ∀ c ∈ before, isAscii c = true)
    (hascii' : ∀ c ∈ other, isAscii c = true) (hlines : SameLines before other)
    (hform : formBefore before = formBefore other)
    (hclass : followsClass before = followsClass other)
    (hparen : (afterParen? rest).isSome = (afterParen? rest').isSome)
    (hdefinition : keep (before.count '\n') = true →
      isDefLine (lineAround before (w ++ textOf rest)) =
        isDefLine (lineAround other (w ++ textOf rest'))) :
    AgreeAt keep (candidateAt before w rest) (candidateAt other w rest') := by
  obtain ⟨found, hfound⟩ := formBefore_ascii hascii
  have hfound' : formBefore other = .ok found := hform ▸ hfound
  have hcount := hlines.count_eq
  have hread : ∀ before' rest'', formBefore before' = .ok found →
      candidateAt before' w rest'' =
        .ok (if isCalled before' w rest'' then found.map (candidateOf before' w rest'')
          else none) := by
    intro before' rest'' hbefore
    rw [candidateAt_eq, hbefore]
    split <;> rfl
  refine ⟨_, _, hread before rest hfound, hread other rest' hfound', ?_⟩
  by_cases hkeep : keep (before.count '\n') = true
  · have hcalled : isCalled before w rest = isCalled other w rest' := by
      unfold isCalled
      rw [hparen, hdefinition hkeep, hclass]
    rw [hcalled]
    split
    · cases found with
      | none => rfl
      | some form => exact .single (candidateOf_agree hascii hascii' hlines w rest rest' form)
    · rfl
  · -- whatever is found stands on a line that is not kept
    have hnone : ∀ before' rest'', before'.count '\n' = before.count '\n' →
        ((if isCalled before' w rest'' then found.map (candidateOf before' w rest'')
          else none).toList.filter fun c => keep c.lineOffset) = [] := by
      intro before' rest'' hline
      split
      · cases found with
        | none => rfl
        | some form => simp [candidateOf, hline, hkeep]
      · rfl
    unfold AgreeOn
    rw [hnone before rest rfl, hnone other rest' hcount.symm]

/-! ## Reading back to a comment or a literal -/

/-- Two reversed texts of ASCII are the same up to a character that ends what is read back, and have
the same lines behind it. -/
structure Backs (before other : List Char) : Prop where
  ascii : ∀ c ∈ before, isAscii c = true
  ascii' : ∀ c ∈ other, isAscii c = true
  lines : SameLines before other
  stop : ∃ u d x y, before = u ++ d :: x ∧ other = u ++ d :: y ∧ isFileBoundary d = true ∧
    isGap d = false

theorem Backs.followsClass_eq {before other : List Char} (h : Backs before other) :
    followsClass before = followsClass other := by
  obtain ⟨u, d, x, y, rfl, rfl, hd, hgap⟩ := h.stop
  have hcongr := followsClass_congr hd hgap x y (u := u ++ [d]) (by simp)
  rwa [List.append_assoc, List.append_assoc] at hcongr

/-- Right behind a boundary a word stands bare. -/
theorem formBefore_boundary {d : Char} (hd : isFileBoundary d = true) {x : List Char}
    (h : ∀ c ∈ d :: x, isAscii c = true) : formBefore (d :: x) = .ok (some (.bare, 0)) := by
  have hdot : d ≠ '.' := (isWordPart_of_boundary hd).2
  have hcolon : d ≠ ':' := ne_of_kind hd rfl
  have hsize := utf8Size_ascii (h d List.mem_cons_self)
  have hlast : lastBytes (d :: x) = .other := by
    cases x with
    | nil => simp [lastBytes, hsize]
    | cons e x =>
        have hsize' := utf8Size_ascii (h e (by simp))
        simp [lastBytes, hcolon, hsize, hsize']
  unfold formBefore
  rw [hlast]
  dsimp only
  split
  · next heq => exact absurd (List.cons.inj heq).1 hdot
  · rfl

theorem Backs.formBefore_eq {before other : List Char} (h : Backs before other) :
    formBefore before = formBefore other := by
  obtain ⟨u, d, x, y, rfl, rfl, hd, -⟩ := h.stop
  cases u with
  | nil => rw [List.nil_append, List.nil_append, formBefore_boundary hd h.ascii,
      formBefore_boundary hd h.ascii']
  | cons c u =>
      have hcongr := formBefore_congr hd x y (u := c :: (u ++ [d])) (by simp) (by simp)
      simpa using hcongr

/-- The parenthesis of a call does not stand behind a comment or a literal. -/
theorem afterParen?_skipped {l l' : Lexeme} (hl : ∀ c, l ≠ .mark c) (hl' : ∀ c, l' ≠ .mark c)
    (rest back : List Lexeme) :
    (afterParen? (rest ++ l :: back)).isSome = (afterParen? (rest ++ l' :: back)).isSome := by
  induction rest with
  | nil =>
      have hnone : ∀ {k : Lexeme}, (∀ c, k ≠ .mark c) → afterParen? (k :: back) = none := by
        intro k hk
        cases k with
        | mark c => exact absurd rfl (hk c)
        | comment t => rfl
        | literal t => rfl
        | number t => rfl
        | word t => rfl
      rw [List.nil_append, List.nil_append, hnone hl, hnone hl']
  | cons k rest ih =>
      cases k with
      | mark c =>
          rw [List.cons_append, List.cons_append, afterParen?, afterParen?]
          split
          · rfl
          · split
            · exact ih
            · rfl
      | comment t => rfl
      | literal t => rfl
      | number t => rfl
      | word t => rfl

theorem mark_ne_newline {m : Char} (hm : m = '#' ∨ isQuote m = true) : m ≠ '\n' := by
  rcases hm with rfl | hquote
  · decide
  · exact ne_of_kind hquote rfl

/-- What a comment or a literal holds does not tell whether the line that it begins on is a
definition. -/
theorem isDefLine_before {m : Char} (hm : m = '#' ∨ isQuote m = true)
    (before a x y : List Char) :
    isDefLine (lineAround before (a ++ m :: x)) = isDefLine (lineAround before (a ++ m :: y)) := by
  by_cases hin : '\n' ∈ a
  · rw [lineAround_within hin before (m :: x) (m :: y)]
  · have hline := mark_ne_newline hm
    have htake : ∀ z, lineAround before (a ++ m :: z) =
        ((before.takeWhile (· != '\n')).reverse ++ a) ++ m :: z.takeWhile (· != '\n') := by
      intro z
      have hall : ∀ c ∈ a, (c != '\n') = true := by
        intro c hc
        rw [bne_iff_ne]
        rintro rfl
        exact hin hc
      unfold lineAround
      rw [List.takeWhile_append_of_pos hall, List.takeWhile_cons_of_pos (by simpa using hline),
        List.append_assoc]
    rw [htake, htake]
    exact isDefLine_marked hm _ _ _

/-! ## One lexeme with another content -/

section

variable {front back : List Lexeme} {l : Lexeme} {other : List Char}

theorem Lexeme.IsSkipped.ne_mark (hl : l.IsSkipped) : ∀ c, l ≠ .mark c := by
  rintro c rfl
  rcases hl with ⟨t, ht⟩ | ⟨t, ht⟩
  · exact absurd ht (by simp)
  · exact absurd ht (by simp)

theorem Lexeme.IsSkipped.ne_word (hl : l.IsSkipped) : ∀ w, l ≠ .word w := by
  rintro w rfl
  rcases hl with ⟨t, ht⟩ | ⟨t, ht⟩
  · exact absurd ht (by simp)
  · exact absurd ht (by simp)

theorem Lexeme.IsSkipped.withContent (hl : l.IsSkipped) (other : List Char) :
    (l.withContent other).IsSkipped := by
  rcases hl with ⟨t, rfl⟩ | ⟨t, rfl⟩
  · exact Or.inl ⟨_, rfl⟩
  · exact Or.inr ⟨_, rfl⟩

/-- The lexeme has as many characters and the same lines with the other content. -/
theorem sameLines_withContent {after : List Char} (h : l.Stands after) (hl : l.IsSkipped)
    (hother : Rewords l.content other) : SameLines l.text (l.withContent other).text := by
  rw [h.text_eq hl, Lexeme.text_withContent hl]
  exact (SameLines.refl _).append (hother.lines.append (SameLines.refl _))

theorem ascii_withContent {after : List Char} (h : l.Stands after) (hl : l.IsSkipped)
    (hascii : ∀ c ∈ l.text, isAscii c = true) (hother : Rewords l.content other) :
    ∀ c ∈ (l.withContent other).text, isAscii c = true := by
  intro c hc
  rw [h.text_eq hl] at hascii
  rw [Lexeme.text_withContent hl] at hc
  rcases List.mem_append.mp hc with hc | hc
  · exact hascii c (List.mem_append_left _ hc)
  · rcases List.mem_append.mp hc with hc | hc
    · exact (hother.plain c hc).1
    · exact hascii c (List.mem_append_right _ (List.mem_append_right _ hc))

/-- With the other content the body is cut into the other lexemes as before. -/
theorem standing_reworded (h : Standing (front ++ l :: back) []) (hl : l.IsSkipped)
    (hline : l.marks.length = 1 → '\n' ∉ l.content) (hother : Rewords l.content other) :
    Standing (front ++ l.withContent other :: back) [] := by
  obtain ⟨hfront, hstands, hback⟩ := standing_append.mp h
  refine standing_append.mpr ⟨hfront.of_head ?_, hstands.reworded hl hline hother, hback⟩
  obtain ⟨m, n, hmarks, -⟩ := hstands.marks_eq hl
  rw [textOf_cons, textOf_cons, hstands.text_eq hl, Lexeme.text_withContent hl, hmarks]
  rfl

/-- A word behind the comment or the literal is read back at most to its end. -/
theorem backs_of_back (h : Standing (front ++ l :: back) []) (hl : l.IsSkipped)
    (hascii : ∀ c ∈ textOf (front ++ l :: back), isAscii c = true)
    (hother : Rewords l.content other) {a rest : List Lexeme} {w : List Char}
    (hback : back = a ++ .word w :: rest) :
    Backs ((textOf a).reverse ++ (l.text.reverse ++ (textOf front).reverse))
      ((textOf a).reverse ++ ((l.withContent other).text.reverse ++ (textOf front).reverse)) := by
  obtain ⟨-, hstands, hbehind⟩ := standing_append.mp h
  rw [textOf_append, textOf_cons, hback, textOf_append] at hascii
  have hfrontAscii : ∀ c ∈ textOf front, isAscii c = true := fun c hc => hascii c (by simp [hc])
  have htextAscii : ∀ c ∈ l.text, isAscii c = true := fun c hc => hascii c (by simp [hc])
  have haAscii : ∀ c ∈ textOf a, isAscii c = true := fun c hc => hascii c (by simp [hc])
  have hall : ∀ t : List Char, (∀ c ∈ t, isAscii c = true) →
      ∀ c ∈ (textOf a).reverse ++ (t.reverse ++ (textOf front).reverse), isAscii c = true := by
    intro t ht c hc
    simp only [List.mem_append, List.mem_reverse] at hc
    rcases hc with hc | hc | hc
    · exact haAscii c hc
    · exact ht c hc
    · exact hfrontAscii c hc
  refine ⟨hall _ htextAscii, hall _ (ascii_withContent hstands hl htextAscii hother), ?_, ?_⟩
  · exact (SameLines.refl _).append
      ((sameLines_withContent hstands hl hother).reverse.append (SameLines.refl _))
  · rw [hstands.text_eq hl, Lexeme.text_withContent hl]
    rcases hstands.closing_cases hl with ⟨quote, n, hclosing, hquote⟩ | ⟨hclosing, hafter⟩
    · -- the closing quotes
      have hgap : isGap quote = false := by
        rcases isQuote_iff.mp hquote with rfl | rfl <;> rfl
      rw [hclosing, List.replicate_succ']
      refine ⟨(textOf a).reverse, quote,
        (List.replicate n quote).reverse ++ (l.content.reverse ++ (l.marks.reverse ++
          (textOf front).reverse)),
        (List.replicate n quote).reverse ++ (other.reverse ++ (l.marks.reverse ++
          (textOf front).reverse)), ?_, ?_, isFileBoundary_of_quote hquote, hgap⟩
      · simp
      · simp
    · -- the end of the line, which is no part of a word
      cases ha : textOf a with
      | cons d more =>
          obtain rfl : d = '\n' := by
            refine hafter d ?_
            rw [hback, textOf_append, ha]
            rfl
          exact ⟨more.reverse, '\n', _, _, by rw [List.reverse_cons, List.append_assoc]; rfl,
            by rw [List.reverse_cons, List.append_assoc]; rfl, rfl, rfl⟩
      | nil =>
          exfalso
          obtain ⟨d, more, rfl, hstart, -⟩ : (Lexeme.word w).Shaped :=
            hbehind.shaped _ (by rw [hback]; simp)
          have hd := hafter d (by rw [hback, textOf_append, ha]; rfl)
          rw [hd] at hstart
          exact absurd hstart (by decide)

/-- A line from a place in it on, and back to its beginning. -/
def lineAt (front back : List Lexeme) : List Char := lineAround (textOf front).reverse (textOf back)

/-- The scan of lexemes with one that is no word among them. -/
theorem scanFrom_split (hl : ∀ w, l ≠ .word w) {cs ds : List Candidate}
    (hcs : scanPart (l :: back) [] front = .ok cs)
    (hds : scanPart [] (l.text.reverse ++ (textOf front).reverse) back = .ok ds) :
    scanFrom [] (front ++ l :: back) = .ok (cs ++ ds) := by
  rw [← scanPart_nil, scanPart_append, List.append_nil, hcs]
  show (scanPart [] ((textOf front).reverse ++ []) (l :: back)).map _ = _
  rw [List.append_nil, scanPart_other [] _ hl, hds]
  rfl

/-- In front of the comment or the literal the candidates agree: only the line that it begins on
could tell the contents apart. -/
theorem agree_front (h : Standing (front ++ l :: back) []) (hl : l.IsSkipped)
    (hascii : ∀ c ∈ textOf (front ++ l :: back), isAscii c = true) (keep : Nat → Bool) :
    ∃ cs cs', scanPart (l :: back) [] front = .ok cs ∧
      scanPart (l.withContent other :: back) [] front = .ok cs' ∧ AgreeOn keep cs cs' := by
  obtain ⟨-, hstands, -⟩ := standing_append.mp h
  obtain ⟨m, n, hmarks, hm⟩ := hstands.marks_eq hl
  refine scanPart_agree front fun a w rest hsplit => ?_
  have hbefore : ∀ c ∈ (textOf a).reverse ++ [], isAscii c = true := by
    intro c hc
    rw [List.append_nil, List.mem_reverse] at hc
    exact hascii c (by rw [hsplit]; simp [hc])
  refine candidateAt_agree hbefore hbefore (SameLines.refl _) rfl rfl
    (afterParen?_skipped hl.ne_mark (hl.withContent other).ne_mark rest back) fun _ => ?_
  have htext : ∀ content, w ++ textOf rest ++ m :: (List.replicate n m ++
      (content ++ l.closing ++ textOf back)) =
      w ++ (textOf rest ++ (l.marks ++ (content ++ l.closing) ++ textOf back)) := by
    intro content
    rw [hmarks]
    simp
  have hline := isDefLine_before hm ((textOf a).reverse ++ []) (w ++ textOf rest)
    (List.replicate n m ++ (l.content ++ l.closing ++ textOf back))
    (List.replicate n m ++ (other ++ l.closing ++ textOf back))
  rwa [htext, htext, ← hstands.text_eq hl, ← Lexeme.text_withContent hl, ← textOf_cons,
    ← textOf_cons, ← textOf_append, ← textOf_append] at hline

/-- Behind the comment or the literal the candidates agree on each line that is kept: a word is read
back to its end, and the line is the one that it ends on, or a later one. -/
theorem agree_back (h : Standing (front ++ l :: back) []) (hl : l.IsSkipped)
    (hascii : ∀ c ∈ textOf (front ++ l :: back), isAscii c = true)
    (hother : Rewords l.content other) {keep : Nat → Bool}
    (hkeep : keep ((textOf (front ++ [l])).count '\n') = true →
      isDefLine (lineAt (front ++ [l]) back) =
        isDefLine (lineAt (front ++ [l.withContent other]) back)) :
    ∃ ds ds', scanPart [] (l.text.reverse ++ (textOf front).reverse) back = .ok ds ∧
      scanPart [] ((l.withContent other).text.reverse ++ (textOf front).reverse) back = .ok ds' ∧
      AgreeOn keep ds ds' := by
  refine scanPart_agree back fun a w rest hsplit => ?_
  have hbacks := backs_of_back h hl hascii hother hsplit
  refine candidateAt_agree hbacks.ascii hbacks.ascii' hbacks.lines hbacks.formBefore_eq
    hbacks.followsClass_eq rfl fun hkept => ?_
  rw [List.append_nil]
  by_cases hin : '\n' ∈ textOf a
  · unfold lineAround
    rw [(takeWhile_within (List.mem_reverse.mpr hin) rfl _).1,
      (takeWhile_within (List.mem_reverse.mpr hin) rfl _).1]
  · rw [lineAround_append hin, lineAround_append hin]
    have hcount : (textOf a).count '\n' = 0 := List.count_eq_zero.mpr hin
    have htext : textOf back = textOf a ++ (w ++ textOf rest) := by
      rw [hsplit, textOf_append, textOf_cons]
      rfl
    rw [List.count_append, List.count_reverse, hcount, Nat.zero_add] at hkept
    have hsame := hkeep (by simpa [List.count_append, Nat.add_comm] using hkept)
    unfold lineAt at hsame
    rw [htext] at hsame
    simpa using hsame

/-- The candidates agree on each line that is kept, where the line that the comment or the literal
ends on is a definition with both contents or with neither, if it is kept. -/
theorem scan_agree {body : String} (hascii : ∀ c ∈ body.toList, isAscii c = true)
    (hlexemes : lexemes body.toList = front ++ l :: back) (hl : l.IsSkipped)
    (hline : l.marks.length = 1 → '\n' ∉ l.content) (hother : Rewords l.content other)
    {keep : Nat → Bool}
    (hkeep : keep ((textOf (front ++ [l])).count '\n') = true →
      isDefLine (lineAt (front ++ [l]) back) =
        isDefLine (lineAt (front ++ [l.withContent other]) back)) :
    ∃ cands cands', scan body = .ok cands ∧
      scan (String.ofList (textOf (front ++ l.withContent other :: back))) = .ok cands' ∧
      AgreeOn keep cands cands' := by
  have hstanding : Standing (front ++ l :: back) [] := hlexemes ▸ standing_lexemes body.toList
  rw [← text_lexemes body.toList, hlexemes] at hascii
  obtain ⟨cs, cs', hcs, hcs', hagree⟩ := agree_front hstanding hl hascii keep
  obtain ⟨ds, ds', hds, hds', hagree'⟩ := agree_back hstanding hl hascii hother hkeep
  refine ⟨cs ++ ds, cs' ++ ds', ?_, ?_, hagree.append hagree'⟩
  · rw [scan, hlexemes]
    exact scanFrom_split hl.ne_word hcs hds
  · rw [scan, String.toList_ofList,
      lexemes_of_standing (standing_reworded hstanding hl hline hother)]
    exact scanFrom_split (hl.withContent other).ne_word hcs' hds'

end

/-! ## Lines of definitions -/

/-- Two places with as many line feeds before them are on one line. -/
theorem lineAround_of_count {a b a' b' : List Char} (htext : a ++ b = a' ++ b')
    (hcount : a.count '\n' = a'.count '\n') :
    lineAround a.reverse b = lineAround a'.reverse b' := by
  have hmove : ∀ p m q : List Char, p.count '\n' = (p ++ m).count '\n' →
      lineAround p.reverse (m ++ q) = lineAround (p ++ m).reverse q := by
    intro p m q hpm
    rw [List.count_append] at hpm
    have hm : '\n' ∉ m := List.count_eq_zero.mp (by omega)
    rw [List.reverse_append, lineAround_append hm]
  rcases List.append_eq_append_iff.mp htext with ⟨m, rfl, rfl⟩ | ⟨m, rfl, rfl⟩
  · exact hmove a m b' hcount
  · exact (hmove a' m b hcount.symm).symm

/-- On the line of a definition there is no candidate. -/
theorem lineOffset_ne_of_definition {body : String} {cands : List Candidate}
    (hscan : scan body = .ok cands) {front back : List Lexeme}
    (hbody : body.toList = textOf (front ++ back))
    (hdefinition : isDefLine (lineAt front back) = true) :
    ∀ c ∈ cands, c.lineOffset ≠ (textOf front).count '\n' := by
  intro c hc hline
  obtain ⟨before, w, rest, hlexemes, hfound⟩ := mem_scanFrom hscan hc
  rw [List.append_nil] at hfound
  obtain ⟨hcalled, -, hcount, -⟩ := candidateAt_spec hfound
  obtain ⟨-, -, hnone, -⟩ := isCalled_iff.mp hcalled
  have htext : textOf before ++ (w ++ textOf rest) = textOf front ++ textOf back := by
    rw [← textOf_append, ← hbody, ← text_lexemes body.toList, hlexemes, textOf_append, textOf_cons]
    rfl
  rw [lineAround_of_count htext (by rw [← hline, hcount, List.count_reverse])] at hnone
  rw [lineAt, hnone] at hdefinition
  exact absurd hdefinition (by decide)

/-! ## The content of comments and literals -/

/-- A comment or a literal on one line does not tell whether this is a definition. -/
theorem isDefLine_reworded {front back : List Lexeme} {l : Lexeme} {other : List Char}
    (h : l.Stands (textOf back)) (hl : l.IsSkipped) (hother : Rewords l.content other)
    (hline : '\n' ∉ l.content) :
    isDefLine (lineAt (front ++ [l]) back) =
      isDefLine (lineAt (front ++ [l.withContent other]) back) := by
  obtain ⟨m, n, hmarks, hm⟩ := h.marks_eq hl
  have hm' := mark_ne_newline hm
  have hclosing : '\n' ∉ l.closing := by
    rcases h.closing_cases hl with ⟨quote, k, hclosing, hquote⟩ | ⟨hclosing, -⟩
    · rw [hclosing, List.mem_replicate]
      rintro ⟨-, rfl⟩
      exact absurd hquote (by decide)
    · rw [hclosing]
      exact List.not_mem_nil
  have hmarks' : '\n' ∉ l.marks := by
    rw [hmarks, List.mem_cons, List.mem_replicate]
    rintro (h | ⟨-, h⟩)
    · exact hm' h.symm
    · exact hm' h.symm
  -- the line is the one that the lexeme begins on
  have hmove : ∀ k : Lexeme, '\n' ∉ k.text → lineAt (front ++ [k]) back =
      lineAround (textOf front).reverse ([] ++ (k.text ++ textOf back)) := by
    intro k hk
    rw [lineAt, textOf_append, List.reverse_append]
    show lineAround ((k.text ++ []).reverse ++ _) _ = _
    rw [List.append_nil, lineAround_append hk, List.nil_append]
  have hin : '\n' ∉ l.text := by
    rw [h.text_eq hl]
    simp only [List.mem_append, not_or]
    exact ⟨hmarks', hline, hclosing⟩
  have hin' : '\n' ∉ (l.withContent other).text := by
    rw [Lexeme.text_withContent hl]
    simp only [List.mem_append, not_or]
    exact ⟨hmarks', hother.inLine hline, hclosing⟩
  rw [hmove l hin, hmove _ hin', h.text_eq hl, Lexeme.text_withContent hl, hmarks]
  exact isDefLine_before hm _ _ _ _

/-- **What comments and literals hold is not seen.** In a body of ASCII another content is put into
a comment or a literal: without quotes and backslashes, equally long and with line feeds at the same
places, where a literal with one quote holds none. Then the candidates are the same, but for their
arguments, on all lines other than the one that the lexeme ends on. On this line they are the same
too if it holds no line feed, or if the line is a definition with both contents or with neither; and
where the line is a definition, there is no candidate on it. -/
theorem scan_reworded {body : String} (hascii : ∀ c ∈ body.toList, isAscii c = true)
    {front back : List Lexeme} {l : Lexeme} (hlexemes : lexemes body.toList = front ++ l :: back)
    (hl : l.IsSkipped) (hline : l.marks.length = 1 → '\n' ∉ l.content) {other : List Char}
    (hother : Rewords l.content other) :
    ∃ cands cands', scan body = .ok cands ∧
      scan (String.ofList (textOf (front ++ l.withContent other :: back))) = .ok cands' ∧
      AgreeOn (· != (textOf (front ++ [l])).count '\n') cands cands' ∧
      ('\n' ∉ l.content ∨ isDefLine (lineAt (front ++ [l]) back) =
          isDefLine (lineAt (front ++ [l.withContent other]) back) →
        cands.map Candidate.withoutArgs = cands'.map Candidate.withoutArgs) ∧
      (isDefLine (lineAt (front ++ [l]) back) = true →
        ∀ c ∈ cands, c.lineOffset ≠ (textOf (front ++ [l])).count '\n') ∧
      (isDefLine (lineAt (front ++ [l.withContent other]) back) = true →
        ∀ c ∈ cands', c.lineOffset ≠ (textOf (front ++ [l])).count '\n') := by
  have hstands : l.Stands (textOf back) := by
    have hall := standing_lexemes body.toList
    rw [hlexemes] at hall
    have hstands := (standing_append.mp hall).2.1
    rwa [List.append_nil] at hstands
  have hbody : body.toList = textOf (front ++ l :: back) := by
    rw [← hlexemes, text_lexemes]
  -- on all lines but its last one the lexeme is not seen
  obtain ⟨cands, cands', hscan, hscan', hagree⟩ :=
    @scan_agree front back l other body hascii hlexemes hl hline hother
      (· != (textOf (front ++ [l])).count '\n') fun hne => absurd rfl (bne_iff_ne.mp hne)
  refine ⟨cands, cands', hscan, hscan', hagree, fun hsame => ?_, fun hdefinition => ?_,
    fun hdefinition => ?_⟩
  · have hlines : isDefLine (lineAt (front ++ [l]) back) =
        isDefLine (lineAt (front ++ [l.withContent other]) back) := by
      rcases hsame with hcontent | hlines
      · exact isDefLine_reworded hstands hl hother hcontent
      · exact hlines
    -- and not on its last one either, if both contents make a definition of it or neither does
    obtain ⟨cs, cs', hcs, hcs', hall⟩ :=
      @scan_agree front back l other body hascii hlexemes hl hline hother (fun _ => true)
        fun _ => hlines
    rw [hscan, Except.ok.injEq] at hcs
    rw [hscan', Except.ok.injEq] at hcs'
    rw [hcs, hcs']
    exact hall.map_eq
  · exact lineOffset_ne_of_definition hscan (by rw [hbody]; simp) hdefinition
  · have hcount : (textOf (front ++ [l])).count '\n' =
        (textOf (front ++ [l.withContent other])).count '\n' := by
      have hlines := (sameLines_withContent hstands hl hother).count_eq
      simp [hlines]
    rw [hcount]
    exact lineOffset_ne_of_definition hscan' (by rw [String.toList_ofList]; simp) hdefinition

/-! ## Literals of two lines

The last line of the one literal begins a definition with another content. The other literal has one
quote and goes on behind a backslash at the end of a line, which another content does not hold. -/

namespace Reworded

def front : List Lexeme := [.word ['x'], .mark ' ', .mark '=', .mark ' ']

def back : List Lexeme :=
  [.mark ' ', .mark '+', .mark ' ', .word ['f'], .mark '(', .number ['1'], .mark ')']

def block : Lexeme := .literal "\"\"\"\nxyz \"\"\"".toList

def continued : Lexeme := .literal "'a\\\nb'".toList

theorem lexemes_block :
    lexemes "x = \"\"\"\nxyz \"\"\" + f(1)".toList = front ++ block :: back := by
  cbv

theorem lexemes_continued : lexemes "x = 'a\\\nb' + f(1)".toList = front ++ continued :: back := by
  cbv

theorem rewords_of_all {content other : List Char} (hlines : SameLines content other)
    (h : (other.all fun c => isAscii c && !isQuote c && c != '\\') = true) :
    Rewords content other :=
  ⟨hlines, fun c hc => by simpa [and_assoc] using List.all_eq_true.mp h c hc⟩

theorem rewords_block : Rewords block.content "\nuvw ".toList :=
  rewords_of_all (by unfold SameLines; decide) (by decide)

theorem rewords_defining : Rewords block.content "\ndef ".toList :=
  rewords_of_all (by unfold SameLines; decide) (by decide)

theorem rewords_continued : Rewords continued.content "aa\nb".toList :=
  rewords_of_all (by unfold SameLines; decide) (by decide)

theorem ascii_block : ∀ c ∈ textOf (front ++ block :: back), isAscii c = true :=
  List.all_eq_true.mp (by decide)

theorem ascii_continued : ∀ c ∈ textOf (front ++ continued :: back), isAscii c = true :=
  List.all_eq_true.mp (by decide)

theorem scan_block :
    scan "x = \"\"\"\nxyz \"\"\" + f(1)" = .ok [⟨1, 11, "f", .bare, 18, 19, "1"⟩] := by
  unfold scan
  rw [lexemes_block]
  rfl

theorem scan_defining :
    scan (String.ofList (textOf (front ++ block.withContent "\ndef ".toList :: back))) =
      .ok [] := by
  have hlexemes : lexemes
      (String.ofList (textOf (front ++ block.withContent "\ndef ".toList :: back))).toList =
        front ++ block.withContent "\ndef ".toList :: back := by
    cbv
  unfold scan
  rw [hlexemes]
  rfl

theorem scan_continued :
    scan "x = 'a\\\nb' + f(1)" = .ok [⟨1, 6, "f", .bare, 13, 14, "1"⟩] := by
  unfold scan
  rw [lexemes_continued]
  rfl

theorem scan_broken :
    scan (String.ofList (textOf (front ++ continued.withContent "aa\nb".toList :: back))) =
      .ok [] := by
  have hlexemes : lexemes
      (String.ofList (textOf (front ++ continued.withContent "aa\nb".toList :: back))).toList =
        front ++ [.literal "'aa".toList, .mark '\n', .word ['b'], .literal "' + f(1)".toList] := by
    cbv
  unfold scan
  rw [hlexemes]
  rfl

end Reworded

open Reworded in
theorem scan_reworded_block :
    ∃ cands', scan (String.ofList (textOf (front ++ block.withContent "\nuvw ".toList :: back))) =
        .ok cands' ∧
      [⟨1, 11, "f", .bare, 18, 19, ""⟩] = cands'.map Candidate.withoutArgs := by
  have hascii : ∀ c ∈ "x = \"\"\"\nxyz \"\"\" + f(1)".toList, isAscii c = true := by
    rw [← text_lexemes "x = \"\"\"\nxyz \"\"\" + f(1)".toList, lexemes_block]
    exact ascii_block
  obtain ⟨cands, cands', hscan, hscan', -, hsame, -⟩ :=
    scan_reworded hascii lexemes_block (Or.inr ⟨_, rfl⟩) (fun h => absurd h (by decide))
      rewords_block
  obtain rfl := Except.ok.inj (scan_block.symm.trans hscan)
  exact ⟨cands', hscan', hsame (Or.inr rfl)⟩

open Reworded in
/-- Another content of a literal hides the call behind it: it begins a definition, or it does not
take the end of the line along. -/
theorem content_hides_call :
    ((∀ c ∈ textOf (front ++ block :: back), isAscii c = true) ∧
      lexemes "x = \"\"\"\nxyz \"\"\" + f(1)".toList = front ++ block :: back ∧
      Rewords block.content "\ndef ".toList ∧
      scan "x = \"\"\"\nxyz \"\"\" + f(1)" = .ok [⟨1, 11, "f", .bare, 18, 19, "1"⟩] ∧
      scan (String.ofList (textOf (front ++ block.withContent "\ndef ".toList :: back))) =
        .ok []) ∧
    ((∀ c ∈ textOf (front ++ continued :: back), isAscii c = true) ∧
      lexemes "x = 'a\\\nb' + f(1)".toList = front ++ continued :: back ∧
      Rewords continued.content "aa\nb".toList ∧
      scan "x = 'a\\\nb' + f(1)" = .ok [⟨1, 6, "f", .bare, 13, 14, "1"⟩] ∧
      scan (String.ofList (textOf (front ++ continued.withContent "aa\nb".toList :: back))) =
        .ok []) :=
  ⟨⟨ascii_block, lexemes_block, rewords_defining, scan_block, scan_defining⟩, ascii_continued,
    lexemes_continued, rewords_continued, scan_continued, scan_broken⟩

end ChangeScope.Call
