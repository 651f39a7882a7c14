import ChangeScope.Proofs.Call.Geometry
import ChangeScope.Proofs.Call.Place

/-!
# The text between the parentheses of a call

The arguments of a candidate are the text behind its opening parenthesis, up to the first closing
bracket behind which no bracket is open, or all of it (`Delimits`). As the lexemes of the whole body
and the places of the text behind any parenthesis tell the same literals and comments, the arguments
of two candidates lie one in the other or one behind the other (`delimited_and_nested`).
-/

set_option autoImplicit false

namespace ChangeScope.Call

open ChangeScope.Text

/-! ## Depth behind a parenthesis -/

/-- The depth behind the first `n` characters, from a depth on. -/
def depthAt (depth : Int) (ps : List (Place × Char)) (n : Nat) : Int := depth + depthOf (ps.take n)

@[simp] theorem depthAt_zero (depth : Int) (ps : List (Place × Char)) :
    depthAt depth ps 0 = depth := by simp [depthAt]

@[simp] theorem depthAt_nil (depth : Int) (n : Nat) : depthAt depth [] n = depth := by
  simp [depthAt]

@[simp] theorem depthAt_cons (depth : Int) (p : Place × Char) (ps : List (Place × Char)) (n : Nat) :
    depthAt depth (p :: ps) (n + 1) = depthAt (depth + turn p) ps n := by
  simp [depthAt, Int.add_assoc]

/-- Nothing changes before the end of characters that are no brackets in code. -/
theorem depthAt_flat {depth : Int} {a : List (Place × Char)} (ha : ∀ p ∈ a, turn p = 0)
    (b : List (Place × Char)) (n : Nat) :
    depthAt depth (a ++ b) n = depthAt depth b (n - a.length) := by
  have htake : depthOf (a.take n) = 0 := depthOf_flat fun p hp => ha p (List.mem_of_mem_take hp)
  rw [depthAt, depthAt, List.take_append, depthOf_append, htake, zero_add]

/-- The depth behind the first `n` characters behind an opening parenthesis. -/
def depthBehind (inside : List Char) (n : Nat) : Int := depthAt 1 (places inside) n

/-- The arguments behind an opening parenthesis end right before the first closing bracket behind
which all brackets are closed, or with the text when there is none. -/
inductive Delimits (inside : List Char) : List Char → Prop
  | closed {args after : List Char} {closer : Char} (split : inside = args ++ closer :: after)
      (closes_eq : closes closer = true) (returns : depthBehind inside (args.length + 1) = 0)
      (first : ∀ n ≤ args.length, 0 < depthBehind inside n) : Delimits inside args
  | unclosed (never : ∀ n, 0 < depthBehind inside n) : Delimits inside inside

/-! ## Arguments among lexemes -/

/-- Where the arguments among lexemes inside some brackets end. -/
inductive ArgsEnd (depth : Int) (ls : List Lexeme) : List Char → Prop
  | closed {inner after : List Lexeme} {closer : Char} (split : ls = inner ++ .mark closer :: after)
      (closes_eq : closes closer = true)
      (returns : depthAt depth (placesOf ls) ((textOf inner).length + 1) = 0)
      (first : ∀ n ≤ (textOf inner).length, 0 < depthAt depth (placesOf ls) n) :
      ArgsEnd depth ls (textOf inner)
  | unclosed (never : ∀ n, 0 < depthAt depth (placesOf ls) n) : ArgsEnd depth ls (textOf ls)

/-- A lexeme on one depth is passed over. -/
theorem ArgsEnd.flat {depth : Int} {l : Lexeme} {ls : List Lexeme} {args : List Char}
    (hl : ∀ p ∈ l.places, turn p = 0) (h : ArgsEnd depth ls args) :
    ArgsEnd depth (l :: ls) (l.text ++ args) := by
  have hlength := l.length_places
  cases h with
  | @closed inner after closer split closes_eq returns first =>
      rw [← textOf_cons]
      refine .closed (by rw [split]; rfl) closes_eq ?_ fun n hn => ?_
      · rw [placesOf_cons, depthAt_flat hl, ← returns, textOf_cons, List.length_append]
        congr 1
        omega
      · rw [placesOf_cons, depthAt_flat hl]
        rw [textOf_cons, List.length_append] at hn
        exact first _ (by omega)
  | unclosed never =>
      rw [← textOf_cons]
      refine .unclosed fun n => ?_
      rw [placesOf_cons, depthAt_flat hl]
      exact never _

/-- A bracket that does not close all brackets is passed over. -/
theorem ArgsEnd.bracket {depth next : Int} {c : Char} {ls : List Lexeme} {args : List Char}
    (hdepth : 0 < depth) (hnext : depth + turn (.code, c) = next) (h : ArgsEnd next ls args) :
    ArgsEnd depth (.mark c :: ls) (c :: args) := by
  have hplaces : placesOf (.mark c :: ls) = (.code, c) :: placesOf ls := rfl
  -- the depth inside the rest is the depth here one place further
  have hstep : ∀ n, depthAt depth (placesOf (.mark c :: ls)) (n + 1) =
      depthAt next (placesOf ls) n := by
    intro n
    rw [hplaces, depthAt_cons, hnext]
  cases h with
  | @closed inner after closer split closes_eq returns first =>
      show ArgsEnd depth _ (textOf (.mark c :: inner))
      refine .closed (by rw [split]; rfl) closes_eq ?_ fun n hn => ?_
      · exact (hstep _).trans returns
      · cases n with
        | zero => simpa using hdepth
        | succ n =>
            rw [hstep]
            exact first n (Nat.le_of_succ_le_succ hn)
  | unclosed never =>
      show ArgsEnd depth _ (textOf (.mark c :: ls))
      refine .unclosed fun n => ?_
      cases n with
      | zero => simpa using hdepth
      | succ n =>
          rw [hstep]
          exact never n

theorem argsText_other (depth : Nat) {l : Lexeme} (hl : ∀ c, l ≠ .mark c) (ls : List Lexeme) :
    argsText depth (l :: ls) = l.text ++ argsText depth ls := by
  cases l with
  | mark c => exact absurd rfl (hl c)
  | comment t => rfl
  | literal t => rfl
  | number t => rfl
  | word t => rfl

theorem not_opens_of_closes {c : Char} (h : closes c = true) : opens c = false := by
  simp only [closes, Bool.or_eq_true, beq_iff_eq] at h
  rcases h with (rfl | rfl) | rfl <;> rfl

/-- The arguments are found where the depth returns. -/
theorem argsEnd_argsText {ls : List Lexeme} (hls : ∀ l ∈ ls, l.Shaped) {depth : Nat}
    (hdepth : 0 < depth) : ArgsEnd depth ls (argsText depth ls) := by
  induction ls generalizing depth with
  | nil =>
      refine .unclosed fun n => ?_
      rw [placesOf_nil, depthAt_nil]
      exact_mod_cast hdepth
  | cons l ls ih =>
      have ih : ∀ {next : Nat}, 0 < next → ArgsEnd next ls (argsText next ls) :=
        ih fun k hk => hls k (List.mem_cons_of_mem l hk)
      have hpos : (0 : Int) < depth := by exact_mod_cast hdepth
      by_cases hl : ∃ c, l = .mark c
      · obtain ⟨c, rfl⟩ := hl
        by_cases hopens : opens c = true
        · rw [argsText, if_pos hopens]
          refine .bracket hpos ?_ (ih (Nat.succ_pos depth))
          simp [turn, hopens]
        · by_cases hcloses : closes c = true
          · rw [argsText, if_neg hopens, if_pos hcloses]
            by_cases hlast : depth ≤ 1
            · -- the bracket that closes all of them
              obtain rfl : depth = 1 := by omega
              rw [if_pos hlast]
              refine @ArgsEnd.closed _ _ [] ls c rfl hcloses ?_ fun n hn => ?_
              · simp [turn, Lexeme.places, not_opens_of_closes hcloses, hcloses]
              · obtain rfl : n = 0 := by simpa using hn
                simp
            · rw [if_neg hlast]
              refine .bracket hpos ?_ (ih (show 0 < depth - 1 by omega))
              simp only [turn, hopens, hcloses]
              push_cast [show 1 ≤ depth by omega]
              rfl
          · rw [argsText, if_neg hopens, if_neg hcloses]
            refine .bracket hpos ?_ (ih hdepth)
            simp [turn, hopens, hcloses]
      · have hl : ∀ c, l ≠ .mark c := fun c hc => hl ⟨c, hc⟩
        rw [argsText_other depth hl]
        exact (ih hdepth).flat ((hls l List.mem_cons_self).flat hl)

/-- What the lexemes behind a parenthesis tell of the arguments, their text does. -/
theorem delimits_argsText {ls : List Lexeme} (h : Standing ls []) :
    Delimits (textOf ls) (String.ofList (argsText 1 ls)).toList := by
  have hplaces : places (textOf ls) = placesOf ls := by
    have := places_textOf h
    rwa [List.append_nil, places_nil, List.append_nil] at this
  have hend := argsEnd_argsText h.shaped Nat.one_pos
  rw [String.toList_ofList]
  generalize argsText 1 ls = args at hend
  cases hend with
  | @closed inner after closer split closes_eq returns first =>
      refine @Delimits.closed _ _ (textOf after) closer ?_ closes_eq ?_ ?_
      · rw [split, textOf_append, textOf_cons]
        rfl
      · rw [depthBehind, hplaces]
        exact returns
      · intro n hn
        rw [depthBehind, hplaces]
        exact first n hn
  | unclosed never =>
      refine .unclosed fun n => ?_
      rw [depthBehind, hplaces]
      exact never n

/-! ## Arguments inside arguments -/

/-- Inside more brackets the arguments end no sooner. -/
theorem argsText_deeper {depth : Nat} (hdepth : 0 < depth) (more : Nat) (ls : List Lexeme) :
    argsText depth ls <+: argsText (depth + more) ls := by
  induction ls generalizing depth with
  | nil => exact List.prefix_rfl
  | cons l ls ih =>
      by_cases hl : ∃ c, l = .mark c
      · obtain ⟨c, rfl⟩ := hl
        rw [argsText, argsText]
        by_cases hopens : opens c = true
        · rw [if_pos hopens, if_pos hopens, Nat.add_right_comm]
          exact (List.prefix_cons_inj c).mpr (ih (Nat.succ_pos depth))
        · rw [if_neg hopens, if_neg hopens]
          by_cases hcloses : closes c = true
          · rw [if_pos hcloses, if_pos hcloses]
            by_cases hlast : depth ≤ 1
            · -- with fewer brackets open the text ends here
              rw [if_pos hlast]
              exact List.nil_prefix
            · rw [if_neg hlast, if_neg (by omega), Nat.sub_add_comm (by omega)]
              exact (List.prefix_cons_inj c).mpr (ih (by omega))
          · rw [if_neg hcloses, if_neg hcloses]
            exact (List.prefix_cons_inj c).mpr (ih hdepth)
      · have hl : ∀ c, l ≠ .mark c := fun c hc => hl ⟨c, hc⟩
        rw [argsText_other _ hl, argsText_other _ hl]
        exact (List.prefix_append_right_inj l.text).mpr (ih hdepth)

/-- The arguments end among the first lexemes, or these are all part of them. -/
theorem argsText_append {depth : Nat} (hdepth : 0 < depth) (a b : List Lexeme) :
    argsText depth (a ++ b) <+: textOf a ∨
      ∃ next, 0 < next ∧ argsText depth (a ++ b) = textOf a ++ argsText next b := by
  induction a generalizing depth with
  | nil => exact Or.inr ⟨depth, hdepth, rfl⟩
  | cons l a ih =>
      -- one lexeme is passed over, to another depth
      have hpass : ∀ {next : Nat}, 0 < next →
          argsText depth (l :: (a ++ b)) = l.text ++ argsText next (a ++ b) →
          argsText depth (l :: (a ++ b)) <+: textOf (l :: a) ∨
            ∃ final, 0 < final ∧
              argsText depth (l :: (a ++ b)) = textOf (l :: a) ++ argsText final b := by
        intro next hnext hargs
        rw [hargs, textOf_cons]
        rcases ih hnext with hwithin | ⟨final, hfinal, heq⟩
        · exact Or.inl ((List.prefix_append_right_inj l.text).mpr hwithin)
        · exact Or.inr ⟨final, hfinal, by rw [heq, List.append_assoc]⟩
      rw [List.cons_append]
      by_cases hl : ∃ c, l = .mark c
      · obtain ⟨c, rfl⟩ := hl
        by_cases hopens : opens c = true
        · exact hpass (Nat.succ_pos depth) (by rw [argsText, if_pos hopens]; rfl)
        · by_cases hcloses : closes c = true
          · by_cases hlast : depth ≤ 1
            · left
              rw [argsText, if_neg hopens, if_pos hcloses, if_pos hlast]
              exact List.nil_prefix
            · refine hpass (show 0 < depth - 1 by omega) ?_
              rw [argsText, if_neg hopens, if_pos hcloses, if_neg hlast]
              rfl
          · exact hpass hdepth (by rw [argsText, if_neg hopens, if_neg hcloses]; rfl)
      · exact hpass hdepth (argsText_other depth (fun c hc => hl ⟨c, hc⟩) (a ++ b))

/-! ## The region of a candidate -/

/-- Behind the name of a candidate stand blanks, its opening parenthesis and the text. -/
def Candidate.OpensOn (c : Candidate) (body inside : List Char) : Prop :=
  ∃ front gap, body = front ++ (gap ++ '(' :: inside) ∧ (∀ d ∈ gap, isGap d = true) ∧
    c.stop = byteLength front

/-- The arguments of a candidate stand right behind its opening parenthesis, from one byte offset
to another. -/
structure Candidate.Region (c : Candidate) (body inside : List Char) (start stop : Nat) : Prop where
  opening : c.OpensOn body inside
  args : c.args.toList <+: inside
  start_eq : start + byteLength inside = byteLength body
  stop_eq : stop = start + byteLength c.args.toList

/-- There is one opening parenthesis. -/
theorem Candidate.OpensOn.unique {c : Candidate} {body inside inside' : List Char}
    (h : c.OpensOn body inside) (h' : c.OpensOn body inside') : inside = inside' := by
  obtain ⟨front, gap, hbody, hgap, hstop⟩ := h
  obtain ⟨front', gap', hbody', hgap', hstop'⟩ := h'
  have hsplit := splitAtByte?_append front (gap ++ '(' :: inside)
  have hsplit' := splitAtByte?_append front' (gap' ++ '(' :: inside')
  rw [← hbody, ← hstop] at hsplit
  rw [← hbody', ← hstop', hsplit, Option.some.injEq, Prod.mk.injEq] at hsplit'
  have hparen : ∀ (rest : List Char) (d : Char), ('(' :: rest).head? = some d →
      isGap d = false := by
    intro rest d hd
    obtain rfl := Option.some.inj hd
    rfl
  have hdrop := (takeWhile_stretch hgap (hparen inside)).2
  have hdrop' := (takeWhile_stretch hgap' (hparen inside')).2
  rw [hsplit'.2, hdrop', List.cons.injEq] at hdrop
  exact hdrop.2.symm

/-- The lexemes behind the parenthesis of a candidate, which its arguments are taken from. -/
theorem candidateAt_inside {before word : List Char} {rest : List Lexeme} {c : Candidate}
    (h : candidateAt before word rest = .ok (some c)) :
    ∃ (gap : List Char) (inside : List Lexeme), rest = gap.map .mark ++ .mark '(' :: inside ∧
      (∀ d ∈ gap, isGap d = true) ∧ c.args = String.ofList (argsText 1 inside) := by
  rw [candidateAt_eq] at h
  split at h
  · next hcalled =>
      obtain ⟨found, -, hmap⟩ := ok_of_map h
      obtain ⟨form, -, rfl⟩ := Option.map_eq_some_iff.mp hmap
      obtain ⟨inside, hinside⟩ := Option.isSome_iff_exists.mp (isCalled_paren hcalled)
      obtain ⟨gap, hrest, hgap⟩ := afterParen?_split hinside
      refine ⟨gap, inside, hrest, hgap, ?_⟩
      rw [candidateOf, hinside]
      rfl
  · exact absurd h (by simp)

/-- The text behind the parenthesis of a candidate at a word. -/
theorem opensOn_candidateAt {before word gap : List Char} {inside : List Lexeme} {c : Candidate}
    (h : candidateAt before word (gap.map .mark ++ .mark '(' :: inside) = .ok (some c))
    (hgap : ∀ d ∈ gap, isGap d = true) {body : List Char}
    (hbody : body = before.reverse ++ (word ++ (gap ++ '(' :: textOf inside))) :
    c.OpensOn body (textOf inside) := by
  obtain ⟨-, -, -, hstop, -⟩ := candidateAt_spec h
  refine ⟨before.reverse ++ word, gap, ?_, hgap, ?_⟩
  · rw [hbody, List.append_assoc]
  · rw [hstop, byteLength_append, byteLength_reverse]

/-- A candidate of a scanned body has lexemes of the body behind its parenthesis. -/
theorem opened_of_scan {body : String} {cands : List Candidate} (hscan : scan body = .ok cands)
    {c : Candidate} (hc : c ∈ cands) :
    ∃ before inside, lexemes body.toList = before ++ .mark '(' :: inside ∧ Standing inside [] ∧
      c.OpensOn body.toList (textOf inside) ∧ c.args = String.ofList (argsText 1 inside) := by
  obtain ⟨front, w, rest, hlexemes, hfound⟩ := mem_scanFrom hscan hc
  rw [List.append_nil] at hfound
  obtain ⟨gap, inside, rfl, hgap, hargs⟩ := candidateAt_inside hfound
  have hsplit : lexemes body.toList =
      (front ++ .word w :: gap.map .mark) ++ .mark '(' :: inside := by
    rw [hlexemes]
    simp
  have hstanding := standing_lexemes body.toList
  rw [hsplit] at hstanding
  refine ⟨_, inside, hsplit, (standing_append.mp hstanding).2.2,
    opensOn_candidateAt hfound hgap ?_, hargs⟩
  rw [← text_lexemes body.toList, hlexemes]
  simp [textOf_marks, Lexeme.text]

/-- The arguments of a candidate, behind its parenthesis in the body. -/
theorem delimits_of_scan {body : String} {cands : List Candidate} (hscan : scan body = .ok cands)
    {c : Candidate} (hc : c ∈ cands) :
    ∃ inside, c.OpensOn body.toList inside ∧ Delimits inside c.args.toList := by
  obtain ⟨before, inside, -, hstanding, hopens, hargs⟩ := opened_of_scan hscan hc
  refine ⟨textOf inside, hopens, ?_⟩
  rw [hargs]
  exact delimits_argsText hstanding

theorem Delimits.begins {inside args : List Char} (h : Delimits inside args) : args <+: inside := by
  cases h with
  | closed split => exact ⟨_, split.symm⟩
  | unclosed => exact List.prefix_rfl

/-- The region of a candidate. -/
theorem region_of_scan {body : String} {cands : List Candidate} (hscan : scan body = .ok cands)
    {c : Candidate} (hc : c ∈ cands) :
    ∃ inside start stop, c.Region body.toList inside start stop ∧
      Delimits inside c.args.toList := by
  obtain ⟨inside, hopens, hdelimits⟩ := delimits_of_scan hscan hc
  obtain ⟨front, gap, hbody, -⟩ := id hopens
  refine ⟨inside, byteLength (front ++ gap) + 1, _, ⟨hopens, hdelimits.begins, ?_, rfl⟩, hdelimits⟩
  rw [hbody]
  simp only [byteLength_append, byteLength_cons]
  rw [show ('(' : Char).utf8Size = 1 from rfl]
  omega

/-! ## Two regions -/

/-- The arguments of a candidate that is found later lie inside the arguments of the one before, or
behind them. -/
theorem nested_of_mem_scanFrom {before w : List Char} {ls : List Lexeme} {a b : Candidate}
    {others : List Candidate} (hhere : candidateAt before w ls = .ok (some a))
    (hothers : scanFrom (w.reverse ++ before) ls = .ok others) (hb : b ∈ others) :
    ∃ skipped inside, a.OpensOn (before.reverse ++ (w ++ textOf ls)) (skipped ++ '(' :: inside) ∧
      b.OpensOn (before.reverse ++ (w ++ textOf ls)) inside ∧
      (a.args.toList <+: skipped ∨ skipped ++ '(' :: b.args.toList <+: a.args.toList) := by
  obtain ⟨gap, insideA, rfl, hgapA, hargsA⟩ := candidateAt_inside hhere
  obtain ⟨front, w', rest, hls, hfound⟩ := mem_scanFrom hothers hb
  obtain ⟨gapB, insideB, rfl, hgapB, hargsB⟩ := candidateAt_inside hfound
  -- the name of the later one stands behind the parenthesis of the one before
  obtain ⟨skipped, rfl, rfl⟩ := split_behind_paren hls.symm
  refine ⟨textOf (skipped ++ .word w' :: gapB.map .mark), textOf insideB, ?_, ?_, ?_⟩
  · have hopens := opensOn_candidateAt hhere hgapA rfl
    simpa [textOf_marks, Lexeme.text] using hopens
  · refine opensOn_candidateAt hfound hgapB ?_
    simp [textOf_marks, Lexeme.text]
  · rw [hargsA, hargsB, String.toList_ofList, String.toList_ofList]
    have hinside : skipped ++ .word w' :: (gapB.map .mark ++ .mark '(' :: insideB) =
        (skipped ++ .word w' :: gapB.map .mark) ++ .mark '(' :: insideB := by simp
    rw [hinside]
    rcases argsText_append Nat.one_pos (skipped ++ .word w' :: gapB.map .mark)
      (.mark '(' :: insideB) with hwithin | ⟨next, hnext, heq⟩
    · exact Or.inl hwithin
    · right
      have hparen : argsText next (.mark '(' :: insideB) = '(' :: argsText (next + 1) insideB := by
        rw [argsText, if_pos (show opens '(' = true from rfl)]
      have hdeeper : argsText 1 insideB <+: argsText (next + 1) insideB := by
        rw [Nat.add_comm]
        exact argsText_deeper Nat.one_pos next insideB
      rw [heq, hparen]
      exact (List.prefix_append_right_inj _).mpr ((List.prefix_cons_inj '(').mpr hdeeper)

/-- Byte offsets of regions in a body, one opening parenthesis behind the other. -/
theorem Candidate.Region.nested {a b : Candidate} {body insideA insideB skipped : List Char}
    {startA stopA startB stopB : Nat} (ha : a.Region body insideA startA stopA)
    (hb : b.Region body insideB startB stopB) (hinside : insideA = skipped ++ '(' :: insideB)
    (h : a.args.toList <+: skipped ∨ skipped ++ '(' :: b.args.toList <+: a.args.toList) :
    startA < startB ∧ (stopA < startB ∨ stopB ≤ stopA) := by
  have hstart : startB = startA + byteLength skipped + 1 := by
    have hstartA := ha.start_eq
    have hstartB := hb.start_eq
    rw [hinside, byteLength_append, byteLength_cons, show ('(' : Char).utf8Size = 1 from rfl]
      at hstartA
    omega
  have hstopA := ha.stop_eq
  have hstopB := hb.stop_eq
  refine ⟨by omega, ?_⟩
  rcases h with ⟨more, hmore⟩ | ⟨more, hmore⟩
  · left
    have hlength := congrArg byteLength hmore
    rw [byteLength_append] at hlength
    omega
  · right
    have hlength := congrArg byteLength hmore
    rw [byteLength_append, byteLength_append, byteLength_cons,
      show ('(' : Char).utf8Size = 1 from rfl] at hlength
    omega

/-- **Regions nest.** The arguments of each candidate of a scanned body stand right behind its
opening parenthesis and end before the first closing bracket behind which no bracket is open, with
literals and comments skipped as they are found when the text is read from the parenthesis on; or
they are all the text, as there is no such bracket. The arguments of a later candidate lie inside
those of an earlier one, or behind them. -/
theorem delimited_and_nested {body : String} {cands : List Candidate}
    (hscan : scan body = .ok cands) :
    (∀ c ∈ cands, ∃ inside start stop, c.Region body.toList inside start stop ∧
      Delimits inside c.args.toList) ∧
    cands.Pairwise fun a b => ∀ {insideA insideB startA stopA startB stopB},
      a.Region body.toList insideA startA stopA → b.Region body.toList insideB startB stopB →
        (startA < startB ∧ stopB ≤ stopA) ∨ stopA < startB := by
  refine ⟨fun c hc => region_of_scan hscan hc, ?_⟩
  refine pairwise_of_scanFrom (lexemes body.toList)
    (fun front w rest a others b hls hhere hothers hb => ?_) hscan
  obtain ⟨skipped, inside, hopensA, hopensB, hnested⟩ := nested_of_mem_scanFrom hhere hothers hb
  have hbody : ((textOf front).reverse ++ []).reverse ++ (w ++ textOf rest) = body.toList := by
    rw [← text_lexemes body.toList, hls]
    simp [Lexeme.text]
  rw [hbody] at hopensA hopensB
  intro insideA insideB startA stopA startB stopB ha hb
  have hinsideA := ha.opening.unique hopensA
  have hinsideB := hb.opening.unique hopensB
  obtain ⟨hstart, hstop⟩ := ha.nested hb (hinsideB ▸ hinsideA) hnested
  rcases hstop with hbehind | hwithin
  · exact Or.inr hbehind
  · exact Or.inl ⟨hstart, hwithin⟩

/-! ## Brackets that do not count

A literal and a comment hold brackets, and the last call is not closed. -/

namespace Quoted

def body : String := "f(g('('), # )\n  h(1))\nk(["

def candidates : List Candidate :=
  [⟨0, 1, "f", .bare, 0, 1, "g('('), # )\n  h(1)"⟩, ⟨0, 3, "g", .bare, 2, 3, "'('"⟩,
    ⟨1, 3, "h", .bare, 16, 17, "1"⟩, ⟨2, 1, "k", .bare, 22, 23, "["⟩]

theorem scan_body : scan body = .ok candidates := by
  have hlexemes : lexemes body.toList =
      [.word ['f'], .mark '(', .word ['g'], .mark '(', .literal "'('".toList, .mark ')', .mark ',',
        .mark ' ', .comment "# )".toList, .mark '\n', .mark ' ', .mark ' ', .word ['h'], .mark '(',
        .number ['1'], .mark ')', .mark ')', .mark '\n', .word ['k'], .mark '(', .mark '['] := by
    cbv
  unfold scan
  rw [hlexemes]
  rfl

end Quoted

theorem delimited_and_nested_quoted :
    scan Quoted.body = .ok Quoted.candidates ∧
      (∀ c ∈ Quoted.candidates, ∃ inside start stop,
        c.Region Quoted.body.toList inside start stop ∧ Delimits inside c.args.toList) ∧
      Quoted.candidates.Pairwise fun a b => ∀ {insideA insideB startA stopA startB stopB},
        a.Region Quoted.body.toList insideA startA stopA →
          b.Region Quoted.body.toList insideB startB stopB →
            (startA < startB ∧ stopB ≤ stopA) ∨ stopA < startB :=
  ⟨Quoted.scan_body, delimited_and_nested Quoted.scan_body⟩

end ChangeScope.Call
