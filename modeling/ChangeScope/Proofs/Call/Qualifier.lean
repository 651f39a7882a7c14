import ChangeScope.Proofs.Call.Lexing
import ChangeScope.Proofs.Result

/-!
# Qualifiers and candidates

What stands in front of a called word, read backwards: the qualifier is a stretch of characters of
its own, without blanks, parentheses, quotes or ends of lines (`formBefore_spec`). A word is a
candidate when it is called and has such a qualifier (`candidateAt_eq`). A receiver has word
characters and dots only (`receiver_of_scan`).
-/

set_option autoImplicit false

namespace ChangeScope.Call

open ChangeScope.Text

/-! ## Characters of a qualifier -/

/-- A blank within a line or the parenthesis of a call: what follows a called word. -/
def isBreak (c : Char) : Bool := c == '(' || isGap c

/-- A character that may stand in a qualifier. -/
def InQualifier (c : Char) : Prop := isBreak c = false ∧ isQuote c = false ∧ c ≠ '\n'

theorem isFileBoundary_of_break {c : Char} (h : isBreak c = true) : isFileBoundary c = true := by
  simp only [isBreak, isGap, Bool.or_eq_true, beq_iff_eq] at h
  rcases h with rfl | rfl | rfl <;> rfl

theorem isFileBoundary_of_quote {c : Char} (h : isQuote c = true) : isFileBoundary c = true := by
  simp only [isQuote, Bool.or_eq_true, beq_iff_eq] at h
  rcases h with rfl | rfl <;> rfl

theorem inQualifier_of_not_boundary {c : Char} (h : isFileBoundary c = false) : InQualifier c := by
  refine ⟨?_, ?_, ?_⟩
  · by_contra hbreak
    rw [Bool.not_eq_false] at hbreak
    rw [isFileBoundary_of_break hbreak] at h
    exact absurd h (by decide)
  · by_contra hquote
    rw [Bool.not_eq_false] at hquote
    rw [isFileBoundary_of_quote hquote] at h
    exact absurd h (by decide)
  · rintro rfl
    exact absurd h (by decide)

theorem isNumberPart_of_boundary {c : Char} (h : isFileBoundary c = true) :
    isNumberPart c = false := by
  simp only [isFileBoundary, Bool.or_eq_true, beq_iff_eq, List.contains_iff_mem] at h
  rcases h with ((((rfl | rfl) | rfl) | rfl) | rfl) | h
  · rfl
  · rfl
  · rfl
  · rfl
  · rfl
  · have hall : ("()[]\x7b\x7d,;=+*%<>!&|^~@\"'".toList.all fun c => !isNumberPart c) = true := by
      decide
    simpa using List.all_eq_true.mp hall c h

theorem isWordPart_of_boundary {c : Char} (h : isFileBoundary c = true) :
    isWordPart c = false ∧ c ≠ '.' := by
  have hpart := isNumberPart_of_boundary h
  rw [isNumberPart, Bool.or_eq_false_iff, beq_eq_false_iff_ne] at hpart
  exact hpart

theorem isWordPart_ne {c d : Char} (hc : isWordPart c = true) (hd : isWordPart d = false) :
    c ≠ d := by
  rintro rfl
  rw [hc] at hd
  exact absurd hd (by decide)

theorem inQualifier_of_wordPart {c : Char} (h : isWordPart c = true) : InQualifier c := by
  refine ⟨?_, ?_, isWordPart_ne h (by decide)⟩
  · simp only [isBreak, isGap, Bool.or_eq_false_iff, beq_eq_false_iff_ne]
    exact ⟨isWordPart_ne h (by decide), isWordPart_ne h (by decide), isWordPart_ne h (by decide)⟩
  · simp only [isQuote, Bool.or_eq_false_iff, beq_eq_false_iff_ne]
    exact ⟨isWordPart_ne h (by decide), isWordPart_ne h (by decide)⟩

/-! ## Chains of names -/

theorem isWordStart_of_part {c : Char} (h : isWordPart c = true) (hd : isAsciiDigit c = false) :
    isWordStart c = true := by
  rwa [isWordPart, hd, Bool.or_false] at h

theorem isNumberPart_eq_false {c : Char} (h : isWordPart c = false) (hdot : c ≠ '.') :
    isNumberPart c = false := by
  rw [isNumberPart, h, Bool.false_or, beq_eq_false_iff_ne]
  exact hdot

/-- The first character after a stretch of word characters is none. -/
theorem isWordPart_head_dropWhile {before : List Char} {c : Char}
    (h : (before.dropWhile isWordPart).head? = some c) : isWordPart c = false := by
  have hhead := List.head?_dropWhile_not isWordPart before
  rw [h] at hhead
  simpa using hhead

/-- A chain of names is a whole stretch of word characters and dots that begins like a word. -/
theorem chainBefore?_spec {before chain : List Char} (h : chainBefore? before = some chain) :
    ∃ rest, before = chain ++ rest ∧ (∀ c ∈ chain, isWordPart c = true ∨ c = '.') ∧
      (∃ first, chain.getLast? = some first ∧ isWordStart first = true) ∧
      ∀ c, rest.head? = some c → isNumberPart c = false := by
  fun_induction chainBefore? before generalizing chain with
  | case1 before word => exact absurd h (by simp)
  | case2 before word first hlast => exact absurd h (by simp)
  | case3 before word first hlast hdigit rest hdrop =>
      rename_i ih
      obtain ⟨chain, hchain, rfl⟩ := Option.map_eq_some_iff.mp h
      obtain ⟨after, rfl, hall, ⟨start, hstart, hword⟩, hafter⟩ := ih hchain
      -- a dot stands in front of the name, and the chain goes on before it
      refine ⟨after, ?_, ?_, ⟨start, ?_, hword⟩, hafter⟩
      · rw [← List.takeWhile_append_dropWhile (p := isWordPart) (l := before), hdrop,
          List.append_assoc, List.cons_append]
      · intro c hc
        rcases List.mem_append.mp hc with hc | hc
        · exact Or.inl (List.mem_takeWhile_imp hc)
        · rcases List.mem_cons.mp hc with rfl | hc
          · exact Or.inr rfl
          · exact hall c hc
      · rw [List.getLast?_append, List.getLast?_cons, hstart]
        rfl
  | case4 before word first hlast hdigit c rest hdot hdrop => exact absurd h (by simp)
  | case5 before word first hlast hdigit c rest hdot hdrop =>
      cases h
      rw [Bool.not_eq_true] at hdigit
      -- another character ends the chain
      refine ⟨before.dropWhile isWordPart, (List.takeWhile_append_dropWhile).symm, ?_,
        ⟨first, hlast, ?_⟩, ?_⟩
      · exact fun c hc => Or.inl (List.mem_takeWhile_imp hc)
      · exact isWordStart_of_part (List.mem_takeWhile_imp (List.mem_of_getLast? hlast)) hdigit
      · intro d hd
        refine isNumberPart_eq_false (isWordPart_head_dropWhile hd) ?_
        rintro rfl
        rw [hdrop, List.head?_cons, Option.some.injEq] at hd
        exact hdot hd
  | case6 before word first hlast hdigit =>
      rename_i hdrop
      cases h
      rw [Bool.not_eq_true] at hdigit
      refine ⟨[], ?_, ?_, ⟨first, hlast, ?_⟩, fun d hd => absurd hd (by simp)⟩
      · rw [← hdrop]
        exact (List.takeWhile_append_dropWhile).symm
      · exact fun c hc => Or.inl (List.mem_takeWhile_imp hc)
      · exact isWordStart_of_part (List.mem_takeWhile_imp (List.mem_of_getLast? hlast)) hdigit

theorem chainBefore?_eq (before : List Char) : chainBefore? before =
    match (before.takeWhile isWordPart).getLast? with
    | none => none
    | some first =>
        if isAsciiDigit first then none
        else
          match before.dropWhile isWordPart with
          | '.' :: rest => (chainBefore? rest).map fun chain =>
              before.takeWhile isWordPart ++ '.' :: chain
          | c :: _ =>
              if c == ')' || c == ']' || c == '"' || c == '\'' then none
              else some (before.takeWhile isWordPart)
          | [] => some (before.takeWhile isWordPart) := by
  rw [chainBefore?.eq_def]
  cases hlast : (before.takeWhile isWordPart).getLast? with
  | none => simp only [hlast]
  | some first =>
      simp only [hlast]
      split
      · rfl
      · split
        · next heq =>
            rw [heq]
            rfl
        · next hdot heq =>
            rw [heq]
            symm
            split
            · next hcons => exact absurd (List.cons.inj hcons).1 hdot
            · next hcons =>
                obtain ⟨rfl, rfl⟩ := List.cons.inj hcons
                rfl
            · next hcons => exact absurd hcons (List.cons_ne_nil _ _)
        · next heq => rw [heq]

/-- A chain of names stays behind the boundary before it. -/
theorem chainBefore?_congr {d : Char} (hd : isFileBoundary d = true) (x y : List Char)
    {u : List Char} (hu : d ∈ u) : chainBefore? (u ++ x) = chainBefore? (u ++ y) := by
  obtain ⟨hpart, hdot'⟩ := isWordPart_of_boundary hd
  induction hn : u.length using Nat.strong_induction_on generalizing u with
  | _ n ih =>
      obtain ⟨htakex, hdropx, hmem⟩ := takeWhile_within hu (p := isWordPart) hpart x
      obtain ⟨htakey, hdropy, -⟩ := takeWhile_within hu (p := isWordPart) hpart y
      rw [chainBefore?_eq, chainBefore?_eq, htakex, htakey, hdropx, hdropy]
      cases hdrop : u.dropWhile isWordPart with
      | nil =>
          rw [hdrop] at hmem
          exact absurd hmem List.not_mem_nil
      | cons c rest =>
          rw [hdrop] at hmem
          have hlength := (List.dropWhile_suffix isWordPart (l := u)).length_le
          rw [hdrop, List.length_cons] at hlength
          by_cases hdot : c = '.'
          · subst hdot
            have hrest : d ∈ rest := (List.mem_cons.mp hmem).resolve_left hdot'
            simp only [List.cons_append, ih rest.length (by omega) hrest rfl]
          · simp only [List.cons_append]

/-! ## The form of a call -/

/-- The form is read from the reversed qualifier, and what is before it is no part of it. -/
def Form.Reads (qualifier rest : List Char) : Form → Prop
  | .bare => qualifier = []
  | .attribute receiver => ∃ chain first, qualifier = '.' :: chain ∧
      receiver = String.ofList chain.reverse ∧ chain.getLast? = some first ∧
      isWordStart first = true ∧ ∀ c, rest.head? = some c → isNumberPart c = false
  | .qualified file => ∃ path, qualifier = ':' :: ':' :: path ∧
      file = String.ofList path.reverse ∧ path ≠ [] ∧ (∀ c ∈ path, isFileBoundary c = false) ∧
      ∀ c, rest.head? = some c → isFileBoundary c = true

/-- A qualifier does not begin inside a word or a number. -/
theorem Form.Reads.next {form : Form} {qualifier rest : List Char} (h : form.Reads qualifier rest)
    (hne : qualifier ≠ []) {c : Char} (hc : rest.head? = some c) : isNumberPart c = false := by
  match form, h with
  | .bare, h => exact absurd h hne
  | .attribute _, ⟨_, _, _, _, _, _, hnext⟩ => exact hnext c hc
  | .qualified _, ⟨_, _, _, _, _, hnext⟩ => exact isNumberPart_of_boundary (hnext c hc)

/-- The form tells the qualifier. -/
theorem Form.Reads.unique {form : Form} {q q' rest rest' : List Char} (h : form.Reads q rest)
    (h' : form.Reads q' rest') : q = q' := by
  have hreverse : ∀ {a b : List Char}, String.ofList a.reverse = String.ofList b.reverse →
      a = b := by
    intro a b heq
    exact List.reverse_injective (String.ofList_injective heq)
  match form, h, h' with
  | .bare, h, h' => exact h.trans h'.symm
  | .attribute _, ⟨_, _, hq, hname, _⟩, ⟨_, _, hq', hname', _⟩ =>
      rw [hq, hq', hreverse (hname.symm.trans hname')]
  | .qualified _, ⟨_, hq, hfile, _⟩, ⟨_, hq', hfile', _⟩ =>
      rw [hq, hq', hreverse (hfile.symm.trans hfile')]

theorem lastBytes_separator {before : List Char} (h : lastBytes before = .separator) :
    ∃ rest, before = ':' :: ':' :: rest := by
  unfold lastBytes at h
  split at h
  · exact absurd h (by simp)
  · split at h <;> exact absurd h (by simp)
  · split at h
    · next c d rest hcd =>
        rw [Bool.and_eq_true, decide_eq_true_eq, decide_eq_true_eq] at hcd
        exact ⟨rest, by rw [hcd.1, hcd.2]⟩
    · split at h
      · split at h <;> exact absurd h (by simp)
      · split at h <;> exact absurd h (by simp)

/-- How the form stands in the reversed text before the word: a file stands between the boundary
before it and two colons, and a receiver is the chain of names before a dot. -/
def Form.StandsIn (before : List Char) (width : Nat) : Form → Prop
  | .bare => width = 0
  | .attribute receiver => ∃ rest chain, before = '.' :: rest ∧ chainBefore? rest = some chain ∧
      receiver = String.ofList chain.reverse ∧ width = byteLength chain + 1
  | .qualified file => ∃ path rest, before = ':' :: ':' :: (path ++ rest) ∧ path ≠ [] ∧
      (∀ c ∈ path, isFileBoundary c = false) ∧
      (∀ c, rest.head? = some c → isFileBoundary c = true) ∧
      file = String.ofList path.reverse ∧ width = byteLength path + 2

/-- A form that is found stands in the text. -/
theorem formBefore_standsIn {before : List Char} {form : Form} {width : Nat}
    (h : formBefore before = .ok (some (form, width))) : form.StandsIn before width := by
  unfold formBefore at h
  split at h
  · exact absurd h (by simp)
  · next hlast =>
      -- behind two colons the file reaches back to a boundary
      obtain ⟨rest, rfl⟩ := lastBytes_separator hlast
      simp only [List.drop_succ_cons, List.drop_zero] at h
      split at h
      · cases h
        rfl
      · next hfile =>
          simp only [Except.ok.injEq, Option.some.injEq, Prod.mk.injEq] at h
          obtain ⟨rfl, rfl⟩ := h
          refine ⟨rest.takeWhile (fun c => !isFileBoundary c),
            rest.dropWhile (fun c => !isFileBoundary c), ?_, ?_, ?_, ?_, rfl, rfl⟩
          · rw [List.takeWhile_append_dropWhile]
          · simpa [List.isEmpty_iff] using hfile
          · intro c hc
            simpa using List.mem_takeWhile_imp hc
          · intro c hc
            have hhead := List.head?_dropWhile_not (fun c => !isFileBoundary c) rest
            rw [hc] at hhead
            simpa using hhead
  · split at h
    · next rest hlast =>
        simp only [Except.ok.injEq, Option.map_eq_some_iff, Prod.mk.injEq] at h
        obtain ⟨chain, hchain, rfl, rfl⟩ := h
        exact ⟨rest, chain, rfl, hchain, rfl, rfl⟩
    · cases h
      rfl

/-- A qualifier is a stretch of its own in front of the word. -/
theorem formBefore_spec {before : List Char} {form : Form} {width : Nat}
    (h : formBefore before = .ok (some (form, width))) :
    ∃ qualifier rest, before = qualifier ++ rest ∧ byteLength qualifier = width ∧
      (∀ c ∈ qualifier, InQualifier c) ∧ form.Reads qualifier rest := by
  have hstands := formBefore_standsIn h
  rcases form with _ | receiver | file
  · obtain rfl : width = 0 := hstands
    exact ⟨[], before, rfl, rfl, fun c hc => absurd hc List.not_mem_nil, rfl⟩
  · obtain ⟨_, chain, rfl, hchain, rfl, rfl⟩ := hstands
    obtain ⟨after, rfl, hall, ⟨first, hfirst, hstart⟩, hafter⟩ := chainBefore?_spec hchain
    refine ⟨'.' :: chain, after, rfl, ?_, ?_, chain, first, rfl, rfl, hfirst, hstart, hafter⟩
    · rw [byteLength_cons]
      exact Nat.add_comm _ _
    · intro c hc
      rcases List.mem_cons.mp hc with rfl | hc
      · exact ⟨rfl, rfl, by decide⟩
      · rcases hall c hc with hword | rfl
        · exact inQualifier_of_wordPart hword
        · exact ⟨rfl, rfl, by decide⟩
  · obtain ⟨path, rest, rfl, hne, hall, hrest, rfl, rfl⟩ := hstands
    refine ⟨':' :: ':' :: path, rest, rfl, ?_, ?_, path, rfl, rfl, hne, hall, hrest⟩
    · simp only [byteLength_cons]
      have hcolon : (':' : Char).utf8Size = 1 := rfl
      omega
    · intro c hc
      rcases List.mem_cons.mp hc with rfl | hc
      · exact inQualifier_of_not_boundary rfl
      · rcases List.mem_cons.mp hc with rfl | hc
        · exact inQualifier_of_not_boundary rfl
        · exact inQualifier_of_not_boundary (hall c hc)

/-- The form is looked for behind the boundary before it, beyond one more character. -/
theorem formBefore_congr {d : Char} (hd : isFileBoundary d = true) (x y : List Char)
    {u : List Char} (hu : d ∈ u) (hlength : 2 ≤ u.length) :
    formBefore (u ++ x) = formBefore (u ++ y) := by
  obtain ⟨c, e, more, rfl⟩ : ∃ c e more, u = c :: e :: more := by
    match u, hlength with
    | c :: e :: more, _ => exact ⟨c, e, more, rfl⟩
  have hlast : lastBytes (c :: e :: more ++ x) = lastBytes (c :: e :: more ++ y) := rfl
  -- a boundary is no colon, so it is none of the two that are passed over
  have hcolon : d ≠ ':' := by
    rintro rfl
    exact absurd hd (by decide)
  unfold formBefore
  rw [hlast]
  split
  · rfl
  · next hseparator =>
      obtain ⟨rest, hrest⟩ := lastBytes_separator (hlast ▸ hseparator)
      obtain ⟨rfl, hmore⟩ := List.cons.inj hrest
      obtain ⟨rfl, -⟩ := List.cons.inj hmore
      have hmem : d ∈ more := by simpa [hcolon] using hu
      have hstop : (!isFileBoundary d) = false := by rw [hd]; rfl
      have hx := (takeWhile_within (p := fun c => !isFileBoundary c) hmem hstop x).1
      have hy := (takeWhile_within (p := fun c => !isFileBoundary c) hmem hstop y).1
      simp only [List.cons_append, List.drop_succ_cons, List.drop_zero, hx, hy]
  · by_cases hdot : c = '.'
    · subst hdot
      have hmem : d ∈ e :: more :=
        (List.mem_cons.mp hu).resolve_left (isWordPart_of_boundary hd).2
      simp only [List.cons_append]
      rw [← List.cons_append, ← List.cons_append, chainBefore?_congr hd x y hmem]
    · simp only [List.cons_append]
      split
      · next hcons => exact absurd (List.cons.inj hcons).1 hdot
      · split
        · next hcons => exact absurd (List.cons.inj hcons).1 hdot
        · rfl

/-! ## Candidates -/

/-- The word at its place has a parenthesis behind it and is not left out. -/
def isCalled (before word : List Char) (rest : List Lexeme) : Bool :=
  (afterParen? rest).isSome && !keywords.contains (String.ofList word) &&
    !isDefLine (lineAround before (word ++ textOf rest)) && !followsClass before

/-- The candidate at a called word, from its form and the width of its qualifier. -/
def candidateOf (before word : List Char) (rest : List Lexeme) (form : Form × Nat) : Candidate :=
  { lineOffset := before.count '\n'
    column := byteLength (before.takeWhile (· != '\n')) + 1
    name := String.ofList word
    form := form.1
    start := byteLength before - form.2
    stop := byteLength before + byteLength word
    args := String.ofList (argsText 1 ((afterParen? rest).getD [])) }

theorem candidateAt_eq (before word : List Char) (rest : List Lexeme) :
    candidateAt before word rest =
      if isCalled before word rest then
        (formBefore before).map (Option.map (candidateOf before word rest))
      else .ok none := by
  unfold candidateAt isCalled
  cases hparen : afterParen? rest with
  | none => rfl
  | some inside =>
      cases keywords.contains (String.ofList word) with
      | true => rfl
      | false =>
          cases isDefLine (lineAround before (word ++ textOf rest)) with
          | true => rfl
          | false =>
              cases followsClass before with
              | true => rfl
              | false =>
                  cases formBefore before with
                  | error e => rfl
                  | ok found =>
                      cases found with
                      | none => rfl
                      | some form =>
                          show Except.ok _ = Except.ok (some (candidateOf before word rest form))
                          rw [candidateOf, hparen]
                          rfl

/-- What a candidate at a word is. -/
theorem candidateAt_spec {before word : List Char} {rest : List Lexeme} {c : Candidate}
    (h : candidateAt before word rest = .ok (some c)) :
    isCalled before word rest = true ∧ c.name = String.ofList word ∧
      c.lineOffset = before.count '\n' ∧ c.stop = byteLength before + byteLength word ∧
      ∃ qualifier rest', before = qualifier ++ rest' ∧ c.start = byteLength rest' ∧
        (∀ d ∈ qualifier, InQualifier d) ∧ c.form.Reads qualifier rest' ∧
        formBefore before = .ok (some (c.form, byteLength qualifier)) := by
  rw [candidateAt_eq] at h
  split at h
  · next hcalled =>
      obtain ⟨found, hform, hmap⟩ := ok_of_map h
      obtain ⟨⟨form, width⟩, rfl, rfl⟩ := Option.map_eq_some_iff.mp hmap
      obtain ⟨qualifier, rest', rfl, hwidth, hall, hreads⟩ := formBefore_spec hform
      refine ⟨hcalled, rfl, rfl, rfl, qualifier, rest', rfl, ?_, hall, hreads, ?_⟩
      · show byteLength (qualifier ++ rest') - width = byteLength rest'
        rw [byteLength_append, hwidth]
        omega
      · rw [hform, hwidth]
        rfl
  · exact absurd h (by simp)

/-- A candidate begins before its qualifier. -/
theorem candidateAt_start {qualifier before word : List Char} {rest : List Lexeme} {c : Candidate}
    (h : candidateAt (qualifier ++ before) word rest = .ok (some c))
    (hreads : c.form.Reads qualifier before) : c.start = byteLength before := by
  obtain ⟨-, -, -, -, qualifier', rest', htext, hstart, -, hreads', -⟩ := candidateAt_spec h
  rw [← hreads.unique hreads'] at htext
  rw [hstart, ← List.append_cancel_left htext]

theorem candidateAt_column {before word : List Char} {rest : List Lexeme} {c : Candidate}
    (h : candidateAt before word rest = .ok (some c)) :
    c.column = byteLength (before.takeWhile (· != '\n')) + 1 := by
  rw [candidateAt_eq] at h
  split at h
  · obtain ⟨found, -, hmap⟩ := ok_of_map h
    obtain ⟨form, -, rfl⟩ := Option.map_eq_some_iff.mp hmap
    rfl
  · exact absurd h (by simp)

/-- The expression of a call stands on one line. -/
theorem call_inLine {q w before : List Char} {rest : List Lexeme} {c : Candidate}
    (h : candidateAt (q.reverse ++ before) w rest = .ok (some c))
    (hreads : c.form.Reads q.reverse before) (hw : (Lexeme.word w).Shaped) : '\n' ∉ q ++ w := by
  obtain ⟨-, -, -, -, qualifier, rest', htext, -, hall, hreads', -⟩ := candidateAt_spec h
  have hq := hreads.unique hreads'
  intro hin
  rcases List.mem_append.mp hin with hin | hin
  · rw [← hq] at hall
    exact (hall '\n' (List.mem_reverse.mpr hin)).2.2 rfl
  · obtain ⟨d, more, rfl, hstart, hmore⟩ := hw
    rcases List.mem_cons.mp hin with rfl | hin
    · exact absurd hstart (by decide)
    · exact absurd (hmore '\n' hin) (by decide)

/-- The reversed text before a candidate goes back to the last blank or parenthesis before it. -/
theorem candidateAt_start_behind {u v word : List Char} {d : Char} {rest : List Lexeme}
    {c : Candidate} (h : candidateAt (u ++ d :: v) word rest = .ok (some c))
    (hd : isBreak d = true) : ∃ u', u' <:+ u ∧ c.start = byteLength (u' ++ d :: v) := by
  obtain ⟨-, -, -, -, qualifier, rest', htext, hstart, hall, -⟩ := candidateAt_spec h
  rcases List.append_eq_append_iff.mp htext with ⟨u', rfl, hu'⟩ | ⟨u', rfl, rfl⟩
  · cases u' with
    | nil => exact ⟨[], List.nil_suffix, hstart.trans (congrArg byteLength hu'.symm)⟩
    | cons e u' =>
        -- no blank and no parenthesis is part of a qualifier
        obtain ⟨rfl, -⟩ := List.cons.inj hu'
        obtain ⟨hbreak, -⟩ := hall d (by simp)
        rw [hd] at hbreak
        exact absurd hbreak (by decide)
  · exact ⟨u', List.suffix_append _ _, hstart⟩

/-- A called word has a blank or the parenthesis right behind it. -/
theorem afterParen?_isSome {rest : List Lexeme} (h : (afterParen? rest).isSome = true) :
    ∃ c more, rest = .mark c :: more ∧ isBreak c = true := by
  cases rest with
  | nil => exact absurd h (by decide)
  | cons l more =>
      cases l with
      | mark c =>
          rw [afterParen?] at h
          refine ⟨c, more, rfl, ?_⟩
          rw [isBreak]
          split at h
          · next hc => simp [hc]
          · split at h
            · next hgap => simp [hgap]
            · exact absurd h (by decide)
      | comment t => exact absurd h Bool.false_ne_true
      | literal t => exact absurd h Bool.false_ne_true
      | number t => exact absurd h Bool.false_ne_true
      | word t => exact absurd h Bool.false_ne_true

theorem isCalled_iff {before word : List Char} {rest : List Lexeme} :
    isCalled before word rest = true ↔
      (afterParen? rest).isSome = true ∧ keywords.contains (String.ofList word) = false ∧
        isDefLine (lineAround before (word ++ textOf rest)) = false ∧
        followsClass before = false := by
  unfold isCalled
  rw [Bool.and_eq_true, Bool.and_eq_true, Bool.and_eq_true, Bool.not_eq_true', Bool.not_eq_true',
    Bool.not_eq_true', and_assoc, and_assoc]

theorem isCalled_paren {before word : List Char} {rest : List Lexeme}
    (h : isCalled before word rest = true) : (afterParen? rest).isSome = true :=
  (isCalled_iff.mp h).1

/-! ## Scanning a part of a body -/

/-- The candidates among lexemes that others follow. -/
def scanPart (after : List Lexeme) : List Char → List Lexeme → Except Abort (List Candidate)
  | _, [] => .ok []
  | before, .word w :: rest =>
      (candidateAt before w (rest ++ after)).bind fun found =>
        (scanPart after (w.reverse ++ before) rest).map (found.toList ++ ·)
  | before, l :: rest => scanPart after (l.text.reverse ++ before) rest

theorem scanFrom_word (before w : List Char) (rest : List Lexeme) :
    scanFrom before (.word w :: rest) =
      (candidateAt before w rest).bind fun found =>
        (scanFrom (w.reverse ++ before) rest).map (found.toList ++ ·) := by
  rw [scanFrom]
  cases candidateAt before w rest with
  | error e => rfl
  | ok found =>
      cases scanFrom (w.reverse ++ before) rest with
      | error e => rfl
      | ok others => rfl

theorem scanFrom_other (before : List Char) {l : Lexeme} (hl : ∀ w, l ≠ .word w)
    (rest : List Lexeme) :
    scanFrom before (l :: rest) = scanFrom (l.text.reverse ++ before) rest := by
  cases l with
  | word w => exact absurd rfl (hl w)
  | comment t => rfl
  | literal t => rfl
  | number t => rfl
  | mark c => rfl

/-- A candidate stands at one of the words. -/
theorem mem_scanFrom {ls : List Lexeme} {before : List Char} {cands : List Candidate}
    (h : scanFrom before ls = .ok cands) {c : Candidate} (hc : c ∈ cands) :
    ∃ front w rest, ls = front ++ .word w :: rest ∧
      candidateAt ((textOf front).reverse ++ before) w rest = .ok (some c) := by
  induction ls generalizing before cands with
  | nil =>
      obtain rfl := Except.ok.inj h
      exact absurd hc List.not_mem_nil
  | cons l ls ih =>
      -- what is found behind the first lexeme is found behind a longer front
      have hlater : ∀ {cands'}, scanFrom (l.text.reverse ++ before) ls = .ok cands' → c ∈ cands' →
          ∃ front w rest, l :: ls = front ++ .word w :: rest ∧
            candidateAt ((textOf front).reverse ++ before) w rest = .ok (some c) := by
        intro cands' hscan hmem
        obtain ⟨front, w, rest, rfl, hfound⟩ := ih hscan hmem
        refine ⟨l :: front, w, rest, rfl, ?_⟩
        rwa [textOf_cons, List.reverse_append, List.append_assoc]
      by_cases hl : ∃ w, l = .word w
      · obtain ⟨w, rfl⟩ := hl
        rw [scanFrom_word] at h
        obtain ⟨found, hfound, h⟩ := ok_of_bind h
        obtain ⟨others, hothers, rfl⟩ := ok_of_map h
        rcases List.mem_append.mp hc with hhere | hmem
        · rw [Option.mem_toList] at hhere
          exact ⟨[], w, ls, rfl, hhere ▸ hfound⟩
        · exact hlater hothers hmem
      · rw [scanFrom_other before fun w hw => hl ⟨w, hw⟩] at h
        exact hlater h hc

theorem scanPart_other (after : List Lexeme) (before : List Char) {l : Lexeme}
    (hl : ∀ w, l ≠ .word w) (rest : List Lexeme) :
    scanPart after before (l :: rest) = scanPart after (l.text.reverse ++ before) rest := by
  cases l with
  | word w => exact absurd rfl (hl w)
  | comment t => rfl
  | literal t => rfl
  | number t => rfl
  | mark c => rfl

theorem scanPart_nil (ls : List Lexeme) : ∀ before : List Char,
    scanPart [] before ls = scanFrom before ls := by
  induction ls with
  | nil => intro before; rfl
  | cons l rest ih =>
      intro before
      by_cases hl : ∃ w, l = .word w
      · obtain ⟨w, rfl⟩ := hl
        rw [scanPart, scanFrom_word, List.append_nil]
        simp only [ih]
      · rw [scanPart_other [] before (fun w hw => hl ⟨w, hw⟩),
          scanFrom_other before (fun w hw => hl ⟨w, hw⟩), ih]

theorem scanPart_append (after b : List Lexeme) (a : List Lexeme) : ∀ before : List Char,
    scanPart after before (a ++ b) =
      (scanPart (b ++ after) before a).bind fun found =>
        (scanPart after ((textOf a).reverse ++ before) b).map (found ++ ·) := by
  induction a with
  | nil =>
      intro before
      rw [List.nil_append, textOf_nil, List.reverse_nil, List.nil_append]
      cases scanPart after before b <;> rfl
  | cons l rest ih =>
      intro before
      have hbefore : (textOf (l :: rest)).reverse ++ before =
          (textOf rest).reverse ++ (l.text.reverse ++ before) := by
        rw [textOf_cons, List.reverse_append, List.append_assoc]
      by_cases hl : ∃ w, l = .word w
      · obtain ⟨w, rfl⟩ := hl
        have hbefore : (textOf (.word w :: rest)).reverse ++ before =
            (textOf rest).reverse ++ (w.reverse ++ before) := hbefore
        rw [List.cons_append, scanPart, scanPart, ih, hbefore, List.append_assoc]
        cases candidateAt before w (rest ++ (b ++ after)) with
        | error e => rfl
        | ok found =>
            show ((scanPart (b ++ after) (w.reverse ++ before) rest).bind _).map _ = _
            cases scanPart (b ++ after) (w.reverse ++ before) rest with
            | error e => rfl
            | ok others =>
                show ((scanPart after _ b).map _).map _ = (scanPart after _ b).map _
                cases scanPart after ((textOf rest).reverse ++ (w.reverse ++ before)) b with
                | error e => rfl
                | ok last =>
                    show Except.ok (found.toList ++ (others ++ last)) = _
                    rw [← List.append_assoc]
                    rfl
      · rw [List.cons_append, scanPart_other after before (fun w hw => hl ⟨w, hw⟩),
          scanPart_other (b ++ after) before (fun w hw => hl ⟨w, hw⟩), ih, hbefore]

/-- Lexemes without a blank or an opening parenthesis among them. -/
def Quiet (ls : List Lexeme) : Prop := ∀ c, .mark c ∈ ls → isBreak c = false

/-- Quiet lexemes do not lead to a parenthesis. -/
theorem afterParen?_quiet {ls after : List Lexeme} (h : Quiet ls)
    (hafter : afterParen? after = none) :
    afterParen? (ls ++ after) = none := by
  cases ls with
  | nil => exact hafter
  | cons l rest =>
      by_contra hsome
      obtain ⟨c, more, hcons, hbreak⟩ := afterParen?_isSome (Option.isSome_iff_ne_none.mpr hsome)
      obtain ⟨rfl, -⟩ := List.cons.inj hcons
      rw [h c List.mem_cons_self] at hbreak
      exact absurd hbreak Bool.false_ne_true

/-- Quiet lexemes hold no candidate when a quiet one follows. -/
theorem scanPart_quiet {after : List Lexeme} (hafter : afterParen? after = none)
    {ls : List Lexeme} (h : Quiet ls) :
    ∀ before : List Char, scanPart after before ls = .ok [] := by
  induction ls with
  | nil => intro before; rfl
  | cons l rest ih =>
      intro before
      have hquiet : Quiet rest := fun c hc => h c (List.mem_cons_of_mem l hc)
      have ih := ih hquiet
      by_cases hl : ∃ w, l = .word w
      · obtain ⟨w, rfl⟩ := hl
        have hcalled : isCalled before w (rest ++ after) = false := by
          rw [isCalled, afterParen?_quiet hquiet hafter]
          rfl
        rw [scanPart, candidateAt_eq, hcalled, if_neg Bool.false_ne_true, ih]
        rfl
      · rw [scanPart_other after before (fun w hw => hl ⟨w, hw⟩), ih]

/-! ## Receivers -/

end ChangeScope.Call
