import ChangeScope.Proofs.Call.Alike

/-!
# The qualified body read again

The scan of the qualified body succeeds when no character of several bytes stands right before the
parenthesis that a plain name follows (`Clear`). It then finds each unknown call as it was, and
each id as one call, perhaps with more of the text before it taken for its file (`Cut.reread`).
-/

set_option autoImplicit false

namespace ChangeScope.Call

open ChangeScope.Text

variable {tree : FileTree} {scope : Scope}

/-! ## The parenthesis of a known call -/

/-- Where the second call is an unknown plain name right behind the parenthesis of the first one,
the id of the first ends in a single byte. -/
def Clear (a b : Entry) : Prop :=
  ∀ id d, a.2 = some id → b.2 = none → b.1.form = .bare → b.1.start = a.1.stop + 1 →
    id.toList.getLast? = some d → d.utf8Size = 1

theorem formBefore_paren {x : List Char} (h : ∀ d, x.head? = some d → d.utf8Size = 1) :
    formBefore ('(' :: x) = .ok (some (.bare, 0)) := by
  cases x with
  | nil => rfl
  | cons d x =>
      have hlast : lastBytes ('(' :: d :: x) = .other := by
        show (if ('(' : Char) = ':' ∧ d = ':' then LastBytes.separator
          else if d.utf8Size = 1 then .other else .cut) = .other
        rw [if_neg (fun hcolon => absurd hcolon.1 (by decide)), if_pos (h d rfl)]
      unfold formBefore
      rw [hlast]
      rfl

theorem formBefore_cut {x : List Char} {d : Char} (hd : x.head? = some d) (h : d.utf8Size ≠ 1) :
    formBefore ('(' :: x) = .error .cutCharacter := by
  cases x with
  | nil => exact absurd hd (by simp)
  | cons e x =>
      obtain rfl : e = d := Option.some.inj hd
      have hlast : lastBytes ('(' :: e :: x) = .cut := by
        show (if ('(' : Char) = ':' ∧ e = ':' then LastBytes.separator
          else if e.utf8Size = 1 then .other else .cut) = .cut
        rw [if_neg (fun hcolon => absurd hcolon.1 (by decide)), if_neg h]
      unfold formBefore
      rw [hlast]

/-! ## Unknown calls -/

/-- The candidates are the same call, perhaps at other columns. -/
structure SameCall (c c' : Candidate) : Prop where
  line : c'.lineOffset = c.lineOffset
  form : c'.form = c.form
  name : c'.name = c.name

/-- A word is the same candidate where it is called in both texts and has the same qualifier. -/
theorem candidateAt_alike {before before' w : List Char} {rest rest' : List Lexeme}
    {found : Option Candidate} (hcalled : isCalled before' w rest' = isCalled before w rest)
    (hform : formBefore before' = formBefore before)
    (hlines : before'.count '\n' = before.count '\n')
    (h : candidateAt before w rest = .ok found) :
    ∃ found', candidateAt before' w rest' = .ok found' ∧ Option.Rel SameCall found found' := by
  rw [candidateAt_eq] at h
  rw [candidateAt_eq, hcalled, hform]
  split at h
  · next hyes =>
      rw [if_pos hyes]
      obtain ⟨form, hread, rfl⟩ := ok_of_map h
      rw [hread]
      refine ⟨form.map (candidateOf before' w rest'), rfl, ?_⟩
      cases form with
      | none => exact .none
      | some form => exact .some ⟨hlines, rfl, rfl⟩
  · next hno =>
      rw [if_neg hno]
      obtain rfl : none = found := Except.ok.inj h
      exact ⟨none, rfl, .none⟩

/-- A word that is called right behind a parenthesis has no character of several bytes before
that. -/
theorem formBefore_of_candidateAt {x w : List Char} {rest : List Lexeme} {found : Option Candidate}
    (hcalled : isCalled ('(' :: x) w rest = true)
    (h : candidateAt ('(' :: x) w rest = .ok found) :
    formBefore ('(' :: x) = .ok (some (.bare, 0)) := by
  apply formBefore_paren
  intro e he
  by_contra hsize
  rw [candidateAt_eq, if_pos hcalled, formBefore_cut he hsize] at h
  obtain ⟨_, herror, -⟩ := ok_of_map h
  cases herror

/-- A call further away than the parenthesis of the one before it is clear of that. -/
theorem clear_of_far {before w : List Char} {rest : List Lexeme} {c : Candidate} {a : Entry}
    (hfar : ∀ id, a.2 = some id → a.1.stop + 1 < byteLength before)
    (hfound : candidateAt before w rest = .ok (some c)) : Clear a (c, none) := by
  rintro id d hknown - hbare hstart -
  exfalso
  -- a plain name begins at its own place
  obtain ⟨-, -, -, -, qualifier, rest', htext, hwhere, -, hreads, -⟩ := candidateAt_spec hfound
  rw [hbare] at hreads
  obtain rfl : qualifier = [] := hreads
  have hlate := hfar id hknown
  rw [htext, List.nil_append] at hlate
  have hstart' : c.start = a.1.stop + 1 := hstart
  omega

/-- A word right behind the parenthesis of a known call is found again, unless the id ends in a
character of several bytes. -/
theorem candidateAt_behind_id {x y w : List Char} {rest rest' : List Lexeme} {a : Candidate}
    {id : String} {found : Option Candidate} (hid : id.toList ≠ [])
    (hstop : byteLength x = a.stop)
    (hcalled : isCalled ('(' :: (id.toList.reverse ++ y)) w rest' = isCalled ('(' :: x) w rest)
    (hlines : ('(' :: (id.toList.reverse ++ y)).count '\n' = ('(' :: x).count '\n')
    (hfound : candidateAt ('(' :: x) w rest = .ok found) :
    (∃ found', candidateAt ('(' :: (id.toList.reverse ++ y)) w rest' = .ok found' ∧
        Option.Rel SameCall found found' ∧ ∀ c, found = some c → Clear (a, some id) (c, none)) ∨
      ∃ c, found = some c ∧ ¬ Clear (a, some id) (c, none) ∧
        candidateAt ('(' :: (id.toList.reverse ++ y)) w rest' = .error .cutCharacter := by
  by_cases hyes : isCalled ('(' :: x) w rest = true
  · have hbare := formBefore_of_candidateAt hyes hfound
    obtain ⟨d, hd⟩ := Option.ne_none_iff_exists'.mp (mt List.getLast?_eq_none_iff.mp hid)
    have hhead : (id.toList.reverse ++ y).head? = some d := by
      rw [List.head?_append, List.head?_reverse, hd]
      rfl
    -- the last two bytes are the parenthesis and the last byte of the id
    by_cases hsize : d.utf8Size = 1
    · left
      have hform : formBefore ('(' :: (id.toList.reverse ++ y)) = formBefore ('(' :: x) := by
        rw [hbare]
        apply formBefore_paren
        intro e he
        rw [hhead] at he
        rw [← Option.some.inj he, hsize]
      obtain ⟨found', hfound', hrel⟩ := candidateAt_alike hcalled hform hlines hfound
      refine ⟨found', hfound', hrel, ?_⟩
      rintro c - id' d' hknown - - - hd'
      obtain rfl : id = id' := Option.some.inj hknown
      rw [hd] at hd'
      rw [← Option.some.inj hd', hsize]
    · right
      rw [candidateAt_eq, if_pos hyes, hbare] at hfound
      have hsome : some (candidateOf ('(' :: x) w rest (.bare, 0)) = found := Except.ok.inj hfound
      refine ⟨_, hsome.symm, ?_, ?_⟩
      · intro hclear
        refine hsize (hclear id d rfl rfl rfl ?_ hd)
        show byteLength ('(' :: x) - 0 = a.stop + 1
        have hparen : ('(' : Char).utf8Size = 1 := rfl
        rw [byteLength_cons, hstop, hparen]
        omega
      · rw [candidateAt_eq, hcalled, if_pos hyes, formBefore_cut hhead hsize]
        rfl
  · left
    rw [candidateAt_eq, if_neg hyes] at hfound
    obtain rfl : none = found := Except.ok.inj hfound
    refine ⟨none, ?_, .none, fun c hc => absurd hc (by simp)⟩
    rw [candidateAt_eq, hcalled, if_neg hyes]

/-- A word that is no known call is found again, unless the id before it ends in a character of
several bytes that is cut. -/
theorem Alike.candidate {last : Option Entry} {w before before' : List Char} {ps : List Piece}
    {cs : List Entry} {found : Option Candidate}
    (h : Alike last (.word w :: sourceOf ps) before before')
    (hcut : Cut (scope.resolve? tree) [] before (.plain (.word w) :: ps) cs)
    (hids : AllReadable cs) (hs : Standing (.word w :: sourceOf ps) [])
    (hfound : candidateAt before w (sourceOf ps) = .ok found) :
    (∃ found', candidateAt before' w (targetOf ps) = .ok found' ∧
        Option.Rel SameCall found found' ∧
        ∀ c, found = some c → ∀ a, last = some a → Clear a (c, none)) ∨
      ∃ c a, found = some c ∧ last = some a ∧ ¬ Clear a (c, none) ∧
        candidateAt before' w (targetOf ps) = .error .cutCharacter := by
  have hcalled := h.isCalled_eq hcut hids hs
  rcases h.beside.form with ⟨hform, hfar⟩ | ⟨a, id, x, y, rfl, hid, rfl, hstop, rfl⟩
  · obtain ⟨found', hfound', hrel⟩ := candidateAt_alike hcalled hform h.lines hfound
    refine .inl ⟨found', hfound', hrel, ?_⟩
    rintro c rfl ⟨a, known⟩ rfl
    refine clear_of_far ?_ hfound
    rintro id rfl
    exact hfar a id rfl
  · rcases candidateAt_behind_id hid hstop hcalled h.lines hfound with
      ⟨found', hfound', hrel, hclear⟩ | ⟨c, hsome, hnot, herror⟩
    · exact .inl ⟨found', hfound', hrel, fun c hc a' ha' => Option.some.inj ha' ▸ hclear c hc⟩
    · exact .inr ⟨c, _, hsome, rfl, hnot, herror⟩

/-! ## Known calls -/

/-- The character that ends before a byte offset. -/
def charBefore? (offset : Nat) (body : List Char) : Option Char :=
  (splitAtByte? offset body).bind fun (front, _) => front.getLast?

/-- What stands right before the called expression cannot belong to a file. -/
def IsBounded (body : List Char) (c : Candidate) : Prop :=
  ∀ d, charBefore? c.start body = some d → isFileBoundary d = true

/-- What a candidate of the body is in the qualified body. -/
inductive Again (body : List Char) : Entry → Candidate → Prop
  /-- An unknown call is the same call. -/
  | unknown {c c' : Candidate} (hsame : SameCall c c') : Again body (c, none) c'
  /-- An id is a call with its file in front, and perhaps more in front of that. -/
  | known {c c' : Candidate} {id : String} {file name extra : List Char}
      (hid : ReadsAs id file name) (hline : c'.lineOffset = c.lineOffset)
      (hform : c'.form = .qualified (String.ofList (extra ++ file)))
      (hname : c'.name = String.ofList name) (hextra : extra = [] ↔ IsBounded body c) :
      Again body (c, some id) c'

/-- What precedes an id is no part of it where it is a boundary. -/
theorem extra_eq_nil_iff {before before' after : List Char} {c : Candidate}
    (hhead : before'.head? = before.head?) (hstart : c.start = byteLength before) :
    (before'.takeWhile fun d => !isFileBoundary d).reverse = [] ↔
      IsBounded (before.reverse ++ after) c := by
  have hchar : charBefore? c.start (before.reverse ++ after) = before'.head? := by
    unfold charBefore?
    rw [hstart, ← byteLength_reverse, splitAtByte?_append, hhead]
    exact List.getLast?_reverse
  unfold IsBounded
  rw [hchar, List.reverse_eq_nil_iff]
  cases before' with
  | nil => simp
  | cons d more =>
      rw [List.takeWhile_cons]
      cases hd : isFileBoundary d with
      | true => simp [hd]
      | false => simp [hd]

/-- The id of a known call is scanned like one word. -/
theorem ReadsAs.scanFrom_eq {id : String} {file name : List Char} (h : ReadsAs id file name)
    (before : List Char) (rest : List Lexeme) :
    scanFrom before (lexemes id.toList ++ rest) =
      (candidateAt (':' :: ':' :: (file.reverse ++ before)) name rest).bind fun found =>
        (scanFrom (id.toList.reverse ++ before) rest).map (found.toList ++ ·) := by
  -- neither the lexemes of the file nor the two colons hold a candidate
  have hquiet : Quiet (lexemes file) := by
    apply quiet_of_text
    rw [text_lexemes]
    exact fun d hd => (inQualifier_of_not_boundary (h.file_plain d hd).1).1
  have htext : id.toList.reverse ++ before =
      name.reverse ++ (':' :: ':' :: (file.reverse ++ before)) := by
    rw [h.text]
    simp
  rw [h.lexemes_eq, List.append_assoc, ← scanPart_nil, scanPart_append,
    scanPart_quiet (by rfl) hquiet, text_lexemes, htext]
  have hmarks : scanPart [] (file.reverse ++ before)
      (.mark ':' :: .mark ':' :: .word name :: rest) =
        scanFrom (':' :: ':' :: (file.reverse ++ before)) (.word name :: rest) := by
    rw [scanPart_nil]
    rfl
  show (scanPart [] (file.reverse ++ before)
    (.mark ':' :: .mark ':' :: .word name :: rest)).map _ = _
  rw [hmarks, scanFrom_word]
  cases candidateAt (':' :: ':' :: (file.reverse ++ before)) name rest with
  | error e => rfl
  | ok found =>
      show ((scanFrom (name.reverse ++ (':' :: ':' :: (file.reverse ++ before))) rest).map
        _).map _ = (scanFrom (name.reverse ++ (':' :: ':' :: (file.reverse ++ before))) rest).map _
      cases scanFrom (name.reverse ++ (':' :: ':' :: (file.reverse ++ before))) rest with
      | error e => rfl
      | ok others => rfl

/-- In front of the name of an id stands its file, with what is no boundary before it. -/
theorem formBefore_file {file : List Char} (hne : file ≠ [])
    (hplain : ∀ c ∈ file, isFileBoundary c = false) (before : List Char) :
    formBefore (':' :: ':' :: (file.reverse ++ before)) =
      .ok (some (.qualified (String.ofList
          ((before.takeWhile fun d => !isFileBoundary d).reverse ++ file)),
        byteLength (file.reverse ++ before.takeWhile fun d => !isFileBoundary d) + 2)) := by
  have htake : (file.reverse ++ before).takeWhile (fun d => !isFileBoundary d) =
      file.reverse ++ before.takeWhile fun d => !isFileBoundary d := by
    apply List.takeWhile_append_of_pos
    intro c hc
    rw [hplain c (List.mem_reverse.mp hc)]
    rfl
  have hne' : (file.reverse ++ before.takeWhile fun d => !isFileBoundary d).isEmpty = false := by
    rw [List.isEmpty_eq_false_iff]
    simp [hne]
  unfold formBefore
  show (if ((file.reverse ++ before).takeWhile fun d => !isFileBoundary d).isEmpty = true then
      Except.ok (some (Form.bare, 0))
    else .ok (some (.qualified
      (String.ofList ((file.reverse ++ before).takeWhile fun d => !isFileBoundary d).reverse),
      byteLength ((file.reverse ++ before).takeWhile fun d => !isFileBoundary d) + 2))) = _
  rw [htake, hne', if_neg Bool.false_ne_true, List.reverse_append, List.reverse_reverse]

/-- An id before a parenthesis is found as a call. -/
theorem ReadsAs.candidate {id : String} {file name before : List Char} (h : ReadsAs id file name)
    {rest : List Lexeme} (hparen : (afterParen? rest).isSome = true)
    (hbefore : isDefLine (before.takeWhile (· != '\n')).reverse = false) :
    ∃ c, candidateAt (':' :: ':' :: (file.reverse ++ before)) name rest = .ok (some c) ∧
      c.lineOffset = before.count '\n' ∧ c.name = String.ofList name ∧
      c.form = .qualified (String.ofList
        ((before.takeWhile fun d => !isFileBoundary d).reverse ++ file)) := by
  obtain ⟨-, hidline⟩ := h.inLine
  have hfront : '\n' ∉ file ++ [':', ':'] := by
    intro hin
    apply hidline
    rw [h.text]
    simp only [List.mem_append, List.mem_cons] at hin ⊢
    rcases hin with hin | hin | hin | hin
    · exact Or.inl hin
    · exact Or.inr (Or.inl hin)
    · exact Or.inr (Or.inr (Or.inl hin))
    · exact absurd hin List.not_mem_nil
  have hreverse : ':' :: ':' :: (file.reverse ++ before) =
      (file ++ [':', ':']).reverse ++ before := by
    simp
  have hcalled : isCalled (':' :: ':' :: (file.reverse ++ before)) name rest = true := by
    have hdef : isDefLine (lineAround (':' :: ':' :: (file.reverse ++ before))
        (name ++ textOf rest)) = false := by
      have htext : (file ++ [':', ':']) ++ (name ++ textOf rest) = id.toList ++ textOf rest := by
        rw [h.text]
        simp
      rw [hreverse, lineAround_append hfront, htext]
      exact h.isDefLine_eq hbefore _
    exact isCalled_iff.mpr ⟨hparen, h.name_called, hdef, followsClass_colon _⟩
  have hlines : (':' :: ':' :: (file.reverse ++ before)).count '\n' = before.count '\n' := by
    rw [hreverse, List.count_append, List.count_eq_zero.mpr, Nat.zero_add]
    exact fun hin => hfront (List.mem_reverse.mp hin)
  rw [candidateAt_eq, if_pos hcalled,
    formBefore_file h.file_ne (fun c hc => (h.file_plain c hc).1) before]
  exact ⟨_, rfl, hlines, rfl, rfl⟩

/-! ## The whole body -/

theorem chain_clear_cons {last : Option Entry} {e : Entry} {cs : List Entry} :
    (last.toList ++ e :: cs).IsChain Clear ↔
      (∀ a, last = some a → Clear a e) ∧ ((some e).toList ++ cs).IsChain Clear := by
  cases last with
  | none => simp
  | some a =>
      show (a :: e :: cs).IsChain Clear ↔ _ ∧ (e :: cs).IsChain Clear
      rw [List.isChain_cons_cons]
      simp

/-- What follows the last call is read again: the scan succeeds exactly when each id is clear of the
plain name behind it, and then finds the same calls. -/
structure IsReread (body : List Char) (last : Option Entry) (cs : List Entry)
    (scanned : Except Abort (List Candidate)) : Prop where
  found : (last.toList ++ cs).IsChain Clear →
    ∃ cands, scanned = .ok cands ∧ List.Forall₂ (Again body) cs cands
  clear : ∀ cands, scanned = .ok cands → (last.toList ++ cs).IsChain Clear

/-- A call that is found again, in front of more of them. -/
theorem IsReread.cons {body : List Char} {last : Option Entry} {e : Entry} {cs : List Entry}
    {c : Candidate} {scanned : Except Abort (List Candidate)}
    (h : IsReread body (some e) cs scanned) (hagain : Again body e c)
    (hclear : ∀ a, last = some a → Clear a e) :
    IsReread body last (e :: cs) (scanned.map (c :: ·)) where
  found hchain := by
    obtain ⟨cands, rfl, hall⟩ := h.found (chain_clear_cons.mp hchain).2
    exact ⟨c :: cands, rfl, .cons hagain hall⟩
  clear cands hscan := by
    obtain ⟨others, hothers, -⟩ := ok_of_map hscan
    exact chain_clear_cons.mpr ⟨hclear, h.clear others hothers⟩

/-- Where a plain name is not clear of the id before it, nothing is found. -/
theorem isReread_cut {body : List Char} {a e : Entry} (h : ¬ Clear a e) (cs : List Entry)
    (abort : Abort) : IsReread body (some a) (e :: cs) (.error abort) where
  found hchain := absurd ((chain_clear_cons.mp hchain).1 a rfl) h
  clear cands hscan := by cases hscan

theorem body_behind {body before : List Char} {l : Lexeme} {rest : List Lexeme}
    (h : body = before.reverse ++ textOf (l :: rest)) :
    body = (l.text.reverse ++ before).reverse ++ textOf rest := by
  rw [h, textOf_cons, List.reverse_append, List.reverse_reverse, List.append_assoc]

/-- What is no call is none again. -/
theorem Alike.scanFrom_plain {last : Option Entry} {before before' : List Char} {l : Lexeme}
    {ps : List Piece} {cs : List Entry}
    (h : Alike last (sourceOf (.plain l :: ps)) before before')
    (hcut : Cut (scope.resolve? tree) [] before (.plain l :: ps) cs) (hids : AllReadable cs)
    (hs : Standing (sourceOf (.plain l :: ps)) [])
    (hnone : ∀ w, l = .word w → candidateAt before w (sourceOf ps) = .ok none) :
    scanFrom before' (targetOf (.plain l :: ps)) =
      scanFrom (l.text.reverse ++ before') (targetOf ps) := by
  by_cases hword : ∃ w, l = .word w
  · obtain ⟨w, rfl⟩ := hword
    have hnone' : candidateAt before' w (targetOf ps) = .ok none := by
      rcases h.candidate hcut hids hs (hnone w rfl) with
        ⟨found', hfound', hrel, -⟩ | ⟨c, a, hsome, -⟩
      · cases hrel
        exact hfound'
      · exact absurd hsome (by simp)
    rw [targetOf_plain, scanFrom_word, hnone']
    show (scanFrom (w.reverse ++ before') (targetOf ps)).map _ = scanFrom (w.reverse ++ _) _
    cases scanFrom (w.reverse ++ before') (targetOf ps) <;> rfl
  · rw [targetOf_plain, scanFrom_other before' fun w hw => hword ⟨w, hw⟩]

/-- An unknown call is the same call again, unless it cuts the id before it. -/
theorem Alike.reread_unknown {last : Option Entry} {before before' w : List Char}
    {ps : List Piece} {cs : List Entry} {c : Candidate} {body : List Char}
    (h : Alike last (sourceOf (.plain (.word w) :: ps)) before before')
    (hcut : Cut (scope.resolve? tree) [] before (.plain (.word w) :: ps) ((c, none) :: cs))
    (hids : AllReadable ((c, none) :: cs)) (hs : Standing (sourceOf (.plain (.word w) :: ps)) [])
    (hfound : candidateAt before w (sourceOf ps) = .ok (some c))
    (hrest : IsReread body (some (c, none)) cs (scanFrom (w.reverse ++ before') (targetOf ps))) :
    IsReread body last ((c, none) :: cs)
      (scanFrom before' (targetOf (.plain (.word w) :: ps))) := by
  rw [targetOf_plain, scanFrom_word]
  rcases h.candidate hcut hids hs hfound with
    ⟨found', hagain, hrel, hclear⟩ | ⟨c', a, hsome, rfl, hnot, herror⟩
  · obtain ⟨c', rfl, hsame⟩ : ∃ c', found' = some c' ∧ SameCall c c' := by
      cases hrel with
      | some hsame => exact ⟨_, rfl, hsame⟩
    rw [hagain]
    exact hrest.cons (.unknown hsame) (hclear c rfl)
  · obtain rfl : c = c' := Option.some.inj hsome
    rw [herror]
    exact isReread_cut hnot cs _

/-- The id of a known call is a call again. -/
theorem Alike.again_known {last : Option Entry} {q rest : List Lexeme}
    {w before before' : List Char} {c : Candidate} {id : String} {file name : List Char}
    (h : Alike last (q ++ .word w :: rest) before before') (hid : ReadsAs id file name)
    (hq : Quiet q) (hfound : candidateAt ((textOf q).reverse ++ before) w rest = .ok (some c))
    (hreads : c.form.Reads (textOf q).reverse before) (hw : (Lexeme.word w).Shaped)
    {target : List Lexeme} (hparen : (afterParen? target).isSome = true) (after : List Char) :
    ∃ c', candidateAt (':' :: ':' :: (file.reverse ++ before')) name target = .ok (some c') ∧
      Again (before.reverse ++ after) (c, some id) c' := by
  obtain ⟨-, -, hlines, -⟩ := candidateAt_spec hfound
  have hdef := h.isDefLine_before (isDefLine_call hfound hreads hw)
  obtain ⟨c', hfound', hlines', hname', hform'⟩ := hid.candidate hparen hdef
  refine ⟨c', hfound', .known hid ?_ hform' hname' ?_⟩
  · have hline := call_inLine hfound hreads hw
    have hnone : (textOf q).reverse.count '\n' = 0 :=
      List.count_eq_zero.mpr fun hin => hline (List.mem_append_left _ (List.mem_reverse.mp hin))
    rw [hlines', hlines, h.lines, List.count_append, hnone, Nat.zero_add]
  · have hhead := h.beside.head (afterParen?_quiet hq rfl)
    exact extra_eq_nil_iff hhead (candidateAt_start hfound hreads)

/-- **The qualified body is read again where the ids can be read**: the scan succeeds exactly when
all ids are clear of the plain names behind them, and finds the same calls. -/
theorem Cut.reread {before : List Char} {ps : List Piece} {cs : List Entry}
    (h : Cut (scope.resolve? tree) [] before ps cs) {body : List Char}
    (hbody : body = before.reverse ++ textOf (sourceOf ps)) (hids : AllReadable cs)
    (hs : Standing (sourceOf ps) []) {last : Option Entry} {before' : List Char}
    (ha : Alike last (sourceOf ps) before before') :
    IsReread body last cs (scanFrom before' (targetOf ps)) := by
  -- induction on the pieces; that both texts look alike behind each of them carries it
  induction h generalizing last before' with
  | nil =>
      refine ⟨fun _ => ⟨[], rfl, .nil⟩, fun cands _ => ?_⟩
      rw [List.append_nil]
      cases last <;> simp
  | @skip before l ps cs hnone hrest ih =>
      have ⟨hl, hsource⟩ := hs
      have hstep : Alike last (sourceOf ps) (l.text.reverse ++ before)
          (l.text.reverse ++ before') := ha.step (Lexeme.Stands.text_ne hl) (Or.inl rfl)
      rw [ha.scanFrom_plain (.skip hnone hrest) hids hs fun w hw => by simpa using hnone w hw]
      exact ih (body_behind hbody) hids hsource hstep
  | @unknown before w ps cs c hfound hid hrest ih =>
      have ⟨hw, hsource⟩ := hs
      have hstep : Alike (some (c, none)) (sourceOf ps) (w.reverse ++ before)
          (w.reverse ++ before') :=
        ha.step (Lexeme.Stands.text_ne hw) (Or.inr ⟨⟨w, rfl⟩, by simp⟩)
      have hagain := ih (body_behind hbody) hids.tail hsource hstep
      rw [List.append_nil] at hfound
      exact ha.reread_unknown (.unknown (by rwa [List.append_nil]) hid hrest) hids hs hfound hagain
  | @known before w q id ps cs c hq hfound hreads hid hrest ih =>
      rw [sourceOf_call] at hs ha hbody
      obtain ⟨-, hw, hsource⟩ := standing_append.mp hs
      obtain ⟨file, name, hid'⟩ := hids c id List.mem_cons_self
      rw [List.append_nil] at hfound
      obtain ⟨hcalled, -⟩ := candidateAt_spec hfound
      have hshaped := hw.shaped_fits.1
      have hbody' : body =
          (w.reverse ++ ((textOf q).reverse ++ before)).reverse ++ textOf (sourceOf ps) := by
        rw [hbody, textOf_call]
        simp
      have hparen : (afterParen? (targetOf ps)).isSome = true := by
        rw [hrest.afterParen?_target hids.tail]
        exact isCalled_paren hcalled
      obtain ⟨c', hfound', hagain⟩ :=
        ha.again_known hid' hq hfound hreads hshaped hparen (textOf (q ++ .word w :: sourceOf ps))
      rw [← hbody] at hagain
      rw [targetOf_call, hid'.scanFrom_eq, hfound']
      have hothers := ih hbody' hids.tail hsource (ha.call hid' hfound hreads hshaped)
      exact hothers.cons hagain fun a _ _ _ _ hnone => absurd hnone (by simp)

end ChangeScope.Call
