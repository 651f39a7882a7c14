import ChangeScope.Proofs.Call.Rendering
import ChangeScope.Proofs.Call.Walk

/-!
# Offsets inside characters

All offsets of a scan count bytes, and a text is cut at them. A cut inside a character ends the run.
There is one place where that happens: the two bytes in front of a called word are looked at, and
they may begin inside a character (`scan_cut_iff`). All other cuts are between characters.
-/

set_option autoImplicit false

namespace ChangeScope.Call

open ChangeScope.Text

/-! ## Cuts between characters -/

/-- The byte offset is that of the beginning or the end of a character. -/
def IsBoundary (text : List Char) (n : Nat) : Prop :=
  ∃ front back, text = front ++ back ∧ byteLength front = n

/-- Within a character there is no boundary. -/
theorem not_isBoundary {a b : List Char} {c : Char} {n : Nat} (hlow : byteLength a < n)
    (hhigh : n < byteLength a + c.utf8Size) : ¬ IsBoundary (a ++ c :: b) n := by
  rintro ⟨front, back, htext, rfl⟩
  rcases List.append_eq_append_iff.mp htext with ⟨more, rfl, hmore⟩ | ⟨more, rfl, -⟩
  · cases more with
    | nil => simp at hlow
    | cons d more =>
        obtain ⟨rfl, -⟩ := List.cons.inj hmore
        rw [byteLength_append, byteLength_cons] at hhigh
        omega
  · rw [byteLength_append] at hlow
    omega

/-- A text between two texts is what stands between their offsets. -/
theorem slice?_within (a b c : List Char) :
    slice? (byteLength a) (byteLength (a ++ b)) (a ++ (b ++ c)) = some b := by
  have hwidth : byteLength (a ++ b) - byteLength a = byteLength b := by
    rw [byteLength_append]
    omega
  rw [slice?, if_pos (by rw [byteLength_append]; omega), splitAtByte?_append, Option.bind_some,
    hwidth]
  show (splitAtByte? (byteLength b) (b ++ c)).map _ = _
  rw [splitAtByte?_append]
  rfl

theorem slice?_of_text {text a b c : List Char} {start stop : Nat} (htext : text = a ++ (b ++ c))
    (hstart : start = byteLength a) (hstop : stop = byteLength (a ++ b)) :
    slice? start stop text = some b := by
  rw [htext, hstart, hstop]
  exact slice?_within a b c

theorem utf8Size_ascii {c : Char} (h : isAscii c = true) : c.utf8Size = 1 := by
  rw [← String.length_utf8EncodeChar, utf8EncodeChar_ascii h]
  rfl

theorem byteLength_ascii {cs : List Char} (h : ∀ c ∈ cs, isAscii c = true) :
    byteLength cs = cs.length := by
  induction cs with
  | nil => rfl
  | cons c cs ih =>
      rw [byteLength_cons, utf8Size_ascii (h c List.mem_cons_self),
        ih fun d hd => h d (List.mem_cons_of_mem c hd), List.length_cons]
      omega

/-- In a text of ASCII each offset is a boundary. -/
theorem isBoundary_ascii {text : List Char} (h : ∀ c ∈ text, isAscii c = true) {n : Nat}
    (hn : n ≤ byteLength text) : IsBoundary text n := by
  refine ⟨text.take n, text.drop n, (List.take_append_drop n text).symm, ?_⟩
  rw [byteLength_ascii fun c hc => h c (List.mem_of_mem_take hc), List.length_take]
  rw [byteLength_ascii h] at hn
  omega

/-! ## The two bytes in front of a word -/

/-- The last two bytes begin inside the character `d`. -/
theorem not_isBoundary_lastTwo {d : Char} {rest : List Char} (tail after : List Char)
    (hlow : byteLength tail < 2) (hhigh : 2 < byteLength tail + d.utf8Size) :
    2 ≤ byteLength (tail.reverse ++ d :: rest) ∧
      ¬ IsBoundary ((tail.reverse ++ d :: rest).reverse ++ after)
        (byteLength (tail.reverse ++ d :: rest) - 2) := by
  simp only [byteLength_append, byteLength_cons, byteLength_reverse]
  refine ⟨by omega, ?_⟩
  have htext : (tail.reverse ++ d :: rest).reverse ++ after =
      rest.reverse ++ d :: (tail ++ after) := by simp
  rw [htext]
  refine not_isBoundary ?_ ?_ <;> (rw [byteLength_reverse]; omega)

/-- The last two bytes are whole characters. -/
theorem isBoundary_lastTwo (tail rest after : List Char)
    (htail : byteLength tail = 2) :
    IsBoundary ((tail.reverse ++ rest).reverse ++ after)
      (byteLength (tail.reverse ++ rest) - 2) := by
  refine ⟨rest.reverse, tail ++ after, by simp, ?_⟩
  simp only [byteLength_append, byteLength_reverse]
  omega

/-- The last two bytes begin inside a character where there is no boundary before them. -/
theorem lastBytes_cut_iff (before after : List Char) : lastBytes before = .cut ↔
    2 ≤ byteLength before ∧ ¬ IsBoundary (before.reverse ++ after) (byteLength before - 2) := by
  unfold lastBytes
  match before with
  | [] => simp
  | [c] =>
      have hpos := Char.utf8Size_pos c
      by_cases hc : c.utf8Size ≤ 2
      · simp only [hc, if_true, reduceCtorEq, false_iff, not_and, not_not]
        intro htwo
        refine isBoundary_lastTwo [c] [] after ?_
        simp only [byteLength_cons, byteLength_nil] at htwo ⊢
        omega
      · simp only [hc, if_false, true_iff]
        exact not_isBoundary_lastTwo [] after (by simp) (by simp; omega)
  | c :: d :: rest =>
      have hc := Char.utf8Size_pos c
      have hd := Char.utf8Size_pos d
      by_cases hcolon : c = ':' ∧ d = ':'
      · obtain ⟨rfl, rfl⟩ := hcolon
        simp only [decide_true, Bool.and_self, if_true, reduceCtorEq, false_iff, not_and, not_not]
        exact fun _ => isBoundary_lastTwo [':', ':'] rest after rfl
      · have hseparator : ¬ (decide (c = ':') && decide (d = ':')) = true := by
          rwa [Bool.and_eq_true, decide_eq_true_eq, decide_eq_true_eq]
        dsimp only
        rw [if_neg hseparator]
        by_cases hone : c.utf8Size = 1
        · -- the two bytes reach into the character before the last
          rw [if_pos hone]
          by_cases hsingle : d.utf8Size = 1
          · simp only [hsingle, if_true, reduceCtorEq, false_iff, not_and, not_not]
            exact fun _ =>
              isBoundary_lastTwo [d, c] rest after (by simp [hone, hsingle])
          · simp only [hsingle, if_false, true_iff]
            exact not_isBoundary_lastTwo [c] after (by simp [hone])
              (by simp [hone]; omega)
        · -- the two bytes lie in the last character
          rw [if_neg hone]
          by_cases htwo : c.utf8Size = 2
          · simp only [htwo, if_true, reduceCtorEq, false_iff, not_and, not_not]
            exact fun _ => isBoundary_lastTwo [c] (d :: rest) after (by simp [htwo])
          · simp only [htwo, if_false, true_iff]
            exact not_isBoundary_lastTwo [] after (by simp) (by simp; omega)

theorem formBefore_error_iff {before : List Char} {abort : Abort} :
    formBefore before = .error abort ↔ abort = .cutCharacter ∧ lastBytes before = .cut := by
  unfold formBefore
  split
  · next hlast =>
      rw [hlast, Except.error.injEq, eq_comm]
      simp
  · next hlast =>
      rw [hlast]
      dsimp only
      split <;> simp
  · next hlast =>
      rw [hlast]
      split <;> simp

theorem candidateAt_error_iff {before word : List Char} {rest : List Lexeme} {abort : Abort} :
    candidateAt before word rest = .error abort ↔
      abort = .cutCharacter ∧ isCalled before word rest = true ∧ lastBytes before = .cut := by
  rw [candidateAt_eq]
  by_cases hcalled : isCalled before word rest = true
  · rw [if_pos hcalled]
    have hmap : (formBefore before).map (Option.map (candidateOf before word rest)) =
        .error abort ↔ formBefore before = .error abort := by
      cases formBefore before with
      | error e => simp [Except.map]
      | ok found => simp [Except.map]
    rw [hmap, formBefore_error_iff]
    simp [hcalled]
  · simp [hcalled]

/-- Among lexemes is a word that is called where the last two bytes in front of it are cut. -/
def HasCutCall (before : List Char) (ls : List Lexeme) : Prop :=
  ∃ front w rest, ls = front ++ .word w :: rest ∧
    isCalled ((textOf front).reverse ++ before) w rest = true ∧
    lastBytes ((textOf front).reverse ++ before) = .cut

/-- The word is the first lexeme, or a later one. -/
theorem hasCutCall_cons {before : List Char} {l : Lexeme} {ls : List Lexeme} :
    HasCutCall before (l :: ls) ↔
      (∃ w, l = .word w ∧ isCalled before w ls = true ∧ lastBytes before = .cut) ∨
        HasCutCall (l.text.reverse ++ before) ls := by
  have hbefore : ∀ front : List Lexeme, (textOf (l :: front)).reverse ++ before =
      (textOf front).reverse ++ (l.text.reverse ++ before) := by
    intro front
    rw [textOf_cons, List.reverse_append, List.append_assoc]
  constructor
  · rintro ⟨front, w, rest, hls, hcalled, hcut⟩
    cases front with
    | nil =>
        obtain ⟨rfl, rfl⟩ := List.cons.inj hls
        exact Or.inl ⟨w, rfl, hcalled, hcut⟩
    | cons k front =>
        obtain ⟨rfl, hrest⟩ := List.cons.inj hls
        rw [hbefore] at hcalled hcut
        exact Or.inr ⟨front, w, rest, hrest, hcalled, hcut⟩
  · rintro (⟨w, rfl, hcalled, hcut⟩ | ⟨front, w, rest, rfl, hcalled, hcut⟩)
    · exact ⟨[], w, ls, rfl, hcalled, hcut⟩
    · exact ⟨l :: front, w, rest, rfl, by rwa [hbefore], by rwa [hbefore]⟩

/-- A scan fails at a word. -/
theorem scanFrom_error_iff (ls : List Lexeme) {before : List Char} {abort : Abort} :
    scanFrom before ls = .error abort ↔ abort = .cutCharacter ∧ HasCutCall before ls := by
  induction ls generalizing before with
  | nil => simp [scanFrom, HasCutCall]
  | cons l ls ih =>
      rw [hasCutCall_cons]
      by_cases hl : ∃ w, l = .word w
      · obtain ⟨w, rfl⟩ := hl
        have hhere : (∃ w', Lexeme.word w = .word w' ∧ isCalled before w' ls = true ∧
            lastBytes before = .cut) ↔ isCalled before w ls = true ∧ lastBytes before = .cut := by
          simp
        rw [scanFrom_word, hhere, and_or_left, ← candidateAt_error_iff, ← ih]
        show _ ↔ _ ∨ scanFrom (w.reverse ++ before) ls = _
        cases hfound : candidateAt before w ls with
        | error e =>
            show Except.error e = _ ↔ _
            rw [Except.error.injEq, Except.error.injEq]
            refine ⟨Or.inl, fun h => h.elim id fun hrest => ?_⟩
            -- both errors are the same one
            rw [(candidateAt_error_iff.mp hfound).1, (ih.mp hrest).1]
        | ok found =>
            cases scanFrom (w.reverse ++ before) ls <;> simp [Except.bind, Except.map]
      · have hnone :
            ¬ ∃ w, l = .word w ∧ isCalled before w ls = true ∧ lastBytes before = .cut := by
          rintro ⟨w, hw, -⟩
          exact hl ⟨w, hw⟩
        rw [scanFrom_other before fun w hw => hl ⟨w, hw⟩, ih, or_iff_right hnone]

/-! ## Calls in a text -/

/-- The word behind `front` and before `after` is called: it is a lexeme of the body and no keyword,
blanks and an opening parenthesis follow, and neither is it on the line of a definition nor does the
word `class` stand in front of it. -/
structure IsCall (body front word after : List Char) : Prop where
  lexeme : ∃ before behind, lexemes body = before ++ .word word :: behind ∧
    front = textOf before ∧ after = textOf behind
  paren : ∃ gap inside, after = gap ++ '(' :: inside ∧ ∀ c ∈ gap, isGap c = true
  no_keyword : String.ofList word ∉ keywords
  no_definition : isDefLine (lineAround front.reverse (word ++ after)) = false
  no_class : followsClass front.reverse = false

/-- Blanks and the parenthesis behind a word are lexemes of their own. -/
theorem afterParen?_lexemes {gap : List Char} (hgap : ∀ c ∈ gap, isGap c = true)
    (inside : List Char) : (afterParen? (lexemes (gap ++ '(' :: inside))).isSome = true := by
  induction gap with
  | nil =>
      have hparen : takeLexeme '(' inside = (.mark '(', inside) := rfl
      rw [List.nil_append, lexemes, hparen]
      rfl
  | cons c gap ih =>
      have hblank : takeLexeme c (gap ++ '(' :: inside) = (.mark c, gap ++ '(' :: inside) ∧
          c ≠ '(' := by
        have hc := hgap c List.mem_cons_self
        rw [isGap, Bool.or_eq_true, beq_iff_eq, beq_iff_eq] at hc
        rcases hc with rfl | rfl
        · exact ⟨rfl, by decide⟩
        · exact ⟨rfl, by decide⟩
      rw [List.cons_append, lexemes, hblank.1]
      show (afterParen? (.mark c :: lexemes (gap ++ '(' :: inside))).isSome = true
      rw [afterParen?, if_neg hblank.2, if_pos (hgap c List.mem_cons_self)]
      exact ih fun d hd => hgap d (List.mem_cons_of_mem c hd)

theorem isCall_iff {body : List Char} {before behind : List Lexeme} {word : List Char}
    (hbody : lexemes body = before ++ .word word :: behind) :
    IsCall body (textOf before) word (textOf behind) ↔
      isCalled (textOf before).reverse word behind = true := by
  have hbehind : lexemes (textOf behind) = behind := by
    refine lexemes_of_standing ?_
    have hall := standing_lexemes body
    rw [hbody] at hall
    exact (standing_append.mp hall).2.2
  rw [isCalled_iff]
  constructor
  · rintro ⟨-, ⟨gap, inside, hafter, hgap⟩, hkeyword, hdefinition, hclass⟩
    refine ⟨?_, by simpa using hkeyword, hdefinition, hclass⟩
    rw [← hbehind, hafter]
    exact afterParen?_lexemes hgap inside
  · rintro ⟨hparen, hkeyword, hdefinition, hclass⟩
    refine ⟨⟨before, behind, hbody, rfl, rfl⟩, ?_, by simpa using hkeyword, hdefinition, hclass⟩
    obtain ⟨inside, hinside⟩ := Option.isSome_iff_exists.mp hparen
    obtain ⟨gap, rfl, hgap⟩ := afterParen?_split hinside
    exact ⟨gap, textOf inside, by simp [textOf_marks, Lexeme.text], hgap⟩

/-- **A scan fails at the first called word that is looked at from inside a character.** -/
theorem scan_error_iff {body : String} {abort : Abort} : scan body = .error abort ↔
    abort = .cutCharacter ∧ ∃ front word after, IsCall body.toList front word after ∧
      2 ≤ byteLength front ∧ ¬ IsBoundary body.toList (byteLength front - 2) := by
  have hcut : ∀ before word behind, lexemes body.toList = before ++ .word word :: behind →
      (lastBytes (textOf before).reverse = .cut ↔ 2 ≤ byteLength (textOf before) ∧
        ¬ IsBoundary body.toList (byteLength (textOf before) - 2)) := by
    intro before word behind hbody
    have htext : body.toList = (textOf before).reverse.reverse ++ (word ++ textOf behind) := by
      rw [← text_lexemes body.toList, hbody, List.reverse_reverse, textOf_append, textOf_cons]
      rfl
    rw [lastBytes_cut_iff _ (word ++ textOf behind), ← htext, byteLength_reverse]
  unfold scan
  rw [scanFrom_error_iff]
  refine and_congr_right fun _ => ⟨?_, ?_⟩
  · rintro ⟨before, word, behind, hbody, hcalled, hlast⟩
    rw [List.append_nil] at hcalled hlast
    exact ⟨_, word, _, (isCall_iff hbody).mpr hcalled, (hcut _ _ _ hbody).mp hlast⟩
  · rintro ⟨front, word, after, hcall, hlow, hinside⟩
    obtain ⟨before, behind, hbody, rfl, rfl⟩ := hcall.lexeme
    refine ⟨before, word, behind, hbody, ?_, ?_⟩
    · rw [List.append_nil]
      exact (isCall_iff hbody).mp hcall
    · rw [List.append_nil]
      exact (hcut _ _ _ hbody).mpr ⟨hlow, hinside⟩

/-! ## Slices -/

/-- The form is what the bytes in front of the name tell when they are walked back, and its text is
cut out of the body. -/
def Form.Cuts (body front : List Char) (start : Nat) : Form → Prop
  | .bare => start = byteLength front
  | .attribute receiver =>
      (∃ before, (utf8 front).reverse = byte '.' :: before ∧
        chainBytes? before = some (utf8 receiver.toList).reverse) ∧
      slice? start (byteLength front - 1) body = some receiver.toList
  | .qualified file =>
      (∃ before, (utf8 front).reverse = byte ':' :: byte ':' :: before ∧
        fileBytes before = (utf8 file.toList).reverse) ∧
      slice? start (byteLength front - 2) body = some file.toList

/-- The texts that are cut out of the body for a candidate: what stands before its name, the name,
the text of its form, and the arguments, up to where the bytes tell that they end. -/
structure Candidate.Cuts (c : Candidate) (body front gap inside after : List Char) : Prop where
  text : body = front ++ (c.name.toList ++ (gap ++ '(' :: inside))
  blanks : ∀ d ∈ gap, isGap d = true
  before : slice? 0 (byteLength front) body = some front
  name : slice? (byteLength front) c.stop body = some c.name.toList
  form : c.form.Cuts body front c.start
  args_end : closingBytes 1 (utf8 inside) = utf8 after
  args : slice? (byteLength body - byteLength inside) (byteLength body - byteLength after) body =
    some c.args.toList

theorem formCuts_of_formBefore {before : List Char} {form : Form} {width : Nat}
    (h : formBefore before = .ok (some (form, width))) (after : List Char) :
    form.Cuts (before.reverse ++ after) before.reverse (byteLength before - width) := by
  have hbytes : (utf8 before.reverse).reverse = utf8Back before := by
    rw [← utf8Back_reverse, List.reverse_reverse]
  have hstands := formBefore_standsIn h
  -- nothing stands in front of the word, or a receiver and a dot, or a file and two colons
  rcases form with _ | receiver | file
  · obtain rfl : width = 0 := hstands
    exact (byteLength_reverse _).symm
  · obtain ⟨_, chain, rfl, hchain, rfl, rfl⟩ := hstands
    obtain ⟨rest, rfl, -⟩ := chainBefore?_spec hchain
    have hdot : ('.' : Char).utf8Size = 1 := rfl
    refine ⟨⟨utf8Back (chain ++ rest), ?_, ?_⟩,
      slice?_of_text (a := rest.reverse) (c := '.' :: after) ?_ ?_ ?_⟩
    · rw [hbytes, utf8Back_cons_ascii rfl]
    · rw [chainBytes?_back, hchain, String.toList_ofList, ← utf8Back_reverse,
        List.reverse_reverse]
      rfl
    · rw [String.toList_ofList]
      simp
    · simp only [byteLength_cons, byteLength_reverse, byteLength_append, hdot]
      omega
    · simp only [byteLength_cons, byteLength_reverse, byteLength_append, hdot,
        String.toList_ofList]
      omega
  · obtain ⟨path, rest, rfl, -, hall, hrest, rfl, rfl⟩ := hstands
    have hcolon : (':' : Char).utf8Size = 1 := rfl
    have htake : (path ++ rest).takeWhile (fun c => !isFileBoundary c) = path :=
      (takeWhile_stretch (fun c hc => by rw [hall c hc]; rfl)
        fun c hc => by rw [hrest c hc]; rfl).1
    refine ⟨⟨utf8Back (path ++ rest), ?_, ?_⟩,
      slice?_of_text (a := rest.reverse) (c := ':' :: ':' :: after) ?_ ?_ ?_⟩
    · rw [hbytes, utf8Back_cons_ascii rfl, utf8Back_cons_ascii rfl]
    · rw [fileBytes_back, htake, String.toList_ofList, ← utf8Back_reverse,
        List.reverse_reverse]
    · rw [String.toList_ofList]
      simp
    · simp only [byteLength_cons, byteLength_reverse, byteLength_append, hcolon]
      omega
    · simp only [byteLength_cons, byteLength_reverse, byteLength_append, hcolon,
        String.toList_ofList]
      omega

/-- The texts of a candidate are cut out between characters. -/
theorem cuts_of_scan {body : String} {cands : List Candidate} (hscan : scan body = .ok cands)
    {c : Candidate} (hc : c ∈ cands) :
    ∃ front gap inside after, c.Cuts body.toList front gap inside after := by
  obtain ⟨before, w, behind, hlexemes, hfound⟩ := mem_scanFrom hscan hc
  rw [List.append_nil] at hfound
  obtain ⟨gap, inside, rfl, hgap, hargs⟩ := candidateAt_inside hfound
  obtain ⟨-, hname, -, hstop, qualifier, rest', hsplit, hstart, -, -, hform⟩ :=
    candidateAt_spec hfound
  have hstanding : Standing inside [] := by
    have hall := standing_lexemes body.toList
    rw [hlexemes] at hall
    exact (standing_append.mp (standing_append.mp hall).2.2).2.2
  -- behind the parenthesis one bracket is open
  obtain ⟨after, hinside, hclosing⟩ := closingBytes_utf8 hstanding 1
  have htext : body.toList = textOf before ++ (w ++ (gap ++ '(' :: textOf inside)) := by
    rw [← text_lexemes body.toList, hlexemes]
    simp [textOf_marks, Lexeme.text]
  have hw : c.name.toList = w := by rw [hname, String.toList_ofList]
  have hwidth := congrArg byteLength htext
  have hparen : ('(' : Char).utf8Size = 1 := rfl
  simp only [byteLength_append, byteLength_cons, hparen] at hwidth
  have hargsWidth := congrArg byteLength hinside
  rw [byteLength_append] at hargsWidth
  refine ⟨textOf before, gap, textOf inside, after, ?_, hgap, ?_, ?_, ?_, hclosing, ?_⟩
  · rw [hw, htext]
  · exact slice?_of_text (a := []) htext rfl rfl
  · refine slice?_of_text (c := gap ++ '(' :: textOf inside) ?_ rfl ?_
    · rw [hw, htext]
    · rw [hstop, hw, byteLength_append, byteLength_reverse]
  · have hcuts := formCuts_of_formBefore hform (w ++ (gap ++ '(' :: textOf inside))
    have hoffset : byteLength (textOf before).reverse - byteLength qualifier = c.start := by
      rw [hsplit, byteLength_append, hstart]
      omega
    rwa [hoffset, List.reverse_reverse, ← htext] at hcuts
  · have hargsText : c.args.toList = argsText 1 inside := by rw [hargs, String.toList_ofList]
    refine slice?_of_text (a := textOf before ++ w ++ gap ++ ['(']) (c := after) ?_ ?_ ?_
    · rw [hargsText, ← hinside, htext]
      simp
    · simp only [byteLength_append, byteLength_cons, byteLength_nil, hparen]
      omega
    · rw [hargsText]
      simp only [byteLength_append, byteLength_cons, byteLength_nil, hparen]
      omega

/-! ## The qualified body -/

/-- From an offset on the qualified body is put together of ids and of texts that are cut out of the
body. -/
inductive Copied (body : List Char) : Nat → List Entry → List Char → Prop where
  | done {offset : Nat} {text : List Char}
      (cut : slice? offset (byteLength body) body = some text) : Copied body offset [] text
  | unknown {offset : Nat} {out : List Char} {c : Candidate} {others : List Entry}
      (rest : Copied body offset others out) : Copied body offset ((c, none) :: others) out
  | known {offset : Nat} {kept out : List Char} {c : Candidate} {id : String} {others : List Entry}
      (cut : slice? offset c.start body = some kept) (rest : Copied body c.stop others out) :
      Copied body offset ((c, some id) :: others) (kept ++ id.toList ++ out)

theorem Rendered.copied {offset : Nat} {text out : List Char} {entries : List Entry}
    (h : Rendered offset text entries out) (past : List Char) (hpast : byteLength past = offset) :
    Copied (past ++ text) offset entries out := by
  induction h generalizing past with
  | done offset text =>
      exact .done (slice?_of_text (c := []) (by rw [List.append_nil]) hpast.symm rfl)
  | unknown _ ih => exact .unknown (ih past hpast)
  | @known offset kept text out c id others start_eq stop_eq _ ih =>
      refine .known (slice?_of_text (c := c.text ++ text) ?_ hpast.symm ?_) ?_
      · rw [List.append_assoc]
      · rw [byteLength_append, start_eq, hpast]
      · have hrest := ih (past ++ kept ++ c.text) (by
          rw [byteLength_append, byteLength_append, stop_eq, start_eq, hpast])
        simpa using hrest

/-- **Only the two bytes in front of a called word are ever looked at from inside a character.** The
bytes of a body tell the same words as its characters. A scan fails when two bytes before a called
word there is a byte, but no character begins there; it fails in no other case. When it does not
fail, each text that is cut out for a candidate is cut between characters, and qualification
succeeds whatever is in scope, with the text around the known calls cut out of the body too. In
particular no body of ASCII fails. -/
theorem scan_cut_iff (body : String) :
    tokens (utf8 body.toList) = ((lexemes body.toList).map fun l => utf8 l.text) ∧
    (∀ abort, scan body = .error abort ↔
      abort = .cutCharacter ∧ ∃ front word after, IsCall body.toList front word after ∧
        2 ≤ byteLength front ∧ ¬ IsBoundary body.toList (byteLength front - 2)) ∧
    (∀ cands, scan body = .ok cands →
      (∀ c ∈ cands, ∃ front gap inside after, c.Cuts body.toList front gap inside after) ∧
      ∀ tree scope startLine, ∃ rendered,
        qualify tree scope startLine body =
          .ok (cands.map fun c => c.site startLine (scope.resolve? tree c), rendered) ∧
        Copied body.toList 0 (cands.map fun c => (c, scope.resolve? tree c)) rendered.toList) ∧
    ((∀ c ∈ body.toList, isAscii c = true) → ∃ cands, scan body = .ok cands) := by
  refine ⟨tokens_utf8 body.toList, fun abort => scan_error_iff, fun cands hscan => ?_,
    fun hascii => ?_⟩
  · refine ⟨fun c hc => cuts_of_scan hscan hc, fun tree scope startLine => ?_⟩
    obtain ⟨rendered, hqualify, hrendered⟩ := qualify_rendered hscan tree scope startLine
    exact ⟨rendered, hqualify, hrendered.copied [] rfl⟩
  · cases hscan : scan body with
    | ok cands => exact ⟨cands, rfl⟩
    | error abort =>
        obtain ⟨-, front, word, after, hcall, -, hinside⟩ := scan_error_iff.mp hscan
        obtain ⟨before, behind, hbody, rfl, -⟩ := hcall.lexeme
        refine absurd (isBoundary_ascii hascii ?_) hinside
        have hwidth := congrArg (fun ls => byteLength (textOf ls)) hbody
        simp only [text_lexemes, textOf_append, byteLength_append] at hwidth
        omega

/-! ## A letter beyond ASCII

Two bytes before the name is the second byte of a letter. -/

theorem isCall_wide : IsCall "é f(x)".toList ['é', ' '] ['f'] ['(', 'x', ')'] where
  lexeme := ⟨[.word ['é'], .mark ' '], [.mark '(', .word ['x'], .mark ')'], by cbv, rfl, rfl⟩
  paren := ⟨[], ['x', ')'], rfl, fun _ hc => absurd hc List.not_mem_nil⟩
  no_keyword := by decide
  no_definition := by decide
  no_class := by decide

theorem scan_cut_iff_wide : scan "é f(x)" = .error .cutCharacter := by
  obtain ⟨-, herror, -, -⟩ := scan_cut_iff "é f(x)"
  refine (herror .cutCharacter).mpr ⟨rfl, ['é', ' '], ['f'], ['(', 'x', ')'], isCall_wide, ?_, ?_⟩
  · decide
  · exact not_isBoundary (a := []) (b := " f(x)".toList) (c := 'é') (by decide) (by decide)

end ChangeScope.Call
