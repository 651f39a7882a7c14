import ChangeScope.Json.Tree
import ChangeScope.Proofs.Json.Written

/-!
# Texts that spell a value

A text spells a value without binary64 numbers when it is written like the compact form, but with
blanks wherever they may stand (`Spells`). It is read as the tree of the value
(`ofText_of_spells`), and the compact form is such a text (`spells_write`).
-/

set_option autoImplicit false

namespace ChangeScope.Json

open ChangeScope.Text (isAsciiDigit)

/-! ## Strings -/

/-- A written character is read in one step. -/
theorem readString_escapeChar (steps : Nat) (chars : List Char) (c : Char) (rest : List Char) :
    readString (steps + 1) ⟨chars, none, none⟩ (escapeChar c ++ rest) =
      readString steps ⟨c :: chars, none, none⟩ rest := by
  have hcontrol : ∀ n < 0x20,
      readString (steps + 1) ⟨chars, none, none⟩ (escapeChar (Char.ofNat n) ++ rest) =
        readString steps ⟨Char.ofNat n :: chars, none, none⟩ rest := by
    intro n hn
    interval_cases n <;> rfl
  by_cases hc : c.toNat < 0x20
  · have hcode := hcontrol c.toNat hc
    rwa [Char.ofNat_toNat] at hcode
  · by_cases hquote : c = '"'
    · subst hquote
      rfl
    · by_cases hslash : c = '\\'
      · subst hslash
        rfl
      · have hplain : escapeChar c = [c] := by
          unfold escapeChar
          split <;> simp_all
        rw [hplain, List.singleton_append, readString, if_neg hc]
        · rfl
        all_goals simp_all

/-- The reader goes through a written string and stops behind its quote, with a step for each
character. -/
theorem readString_written (s rest : List Char) : ∀ (chars : List Char) (steps : Nat),
    s.length + 1 ≤ steps →
      readString steps ⟨chars, none, none⟩ (s.flatMap escapeChar ++ '"' :: rest) =
        .done (.ok (chars.reverse ++ s)) rest := by
  induction s with
  | nil =>
      intro chars steps hsteps
      obtain ⟨steps, rfl⟩ := Nat.exists_eq_add_of_le' (Nat.one_le_of_lt hsteps)
      rw [List.append_nil]
      rfl
  | cons c s ih =>
      intro chars steps hsteps
      obtain ⟨steps, rfl⟩ := Nat.exists_eq_add_of_le' (Nat.one_le_of_lt hsteps)
      rw [List.flatMap_cons, List.append_assoc, readString_escapeChar, ih, List.reverse_cons,
        List.append_assoc, List.singleton_append]
      simpa using hsteps

/-- No written character is empty. -/
theorem length_le_escaped (s : List Char) : s.length ≤ (s.flatMap escapeChar).length := by
  induction s with
  | nil => exact Nat.le_refl 0
  | cons c s ih =>
      have hone : 1 ≤ (escapeChar c).length := by
        unfold escapeChar
        split <;> try decide
        split <;> simp
      rw [List.flatMap_cons, List.length_append, List.length_cons]
      omega

/-- **A written string is read up to its closing quote.** -/
theorem stringAt_written (s rest : List Char) :
    stringAt (s.flatMap escapeChar ++ '"' :: rest) = .done (.ok s) rest := by
  have hlength := length_le_escaped s
  refine readString_written s rest [] _ ?_
  rw [List.length_append]
  omega

/-! ## Integers -/

/-- The integers that are read as such. -/
def IsExactInt (n : Int) : Prop := -0x8000000000000000 ≤ n ∧ n < 0x10000000000000000

/-- What follows does not go on with a number. -/
def EndsNumber (r : List Char) : Prop :=
  ∀ c ∈ r.head?, isAsciiDigit c = false ∧ c ≠ '.' ∧ c ≠ 'e' ∧ c ≠ 'E'

theorem EndsNumber.head?_any {r : List Char} (h : EndsNumber r) :
    r.head?.any isAsciiDigit = false := by
  cases hr : r.head? with
  | none => rfl
  | some c => exact (h c hr).1

theorem le_ofDigitChars (cs : List Char) (n : Nat) : n ≤ Nat.ofDigitChars 10 cs n := by
  induction cs generalizing n with
  | nil => rw [Nat.ofDigitChars_nil]
  | cons c rest ih =>
      rw [Nat.ofDigitChars_cons]
      have hstep := ih (10 * n + (c.toNat - '0'.toNat))
      omega

/-- Digits whose value fits the significand are taken. -/
theorem takeDigits_digits {cs r : List Char} (hcs : Text.IsDigits cs) (hr : EndsNumber r) :
    ∀ {n : Nat}, Nat.ofDigitChars 10 cs n < 0x10000000000000000 →
      takeDigits n (cs ++ r) = (Nat.ofDigitChars 10 cs n, cs.length, r) := by
  induction cs with
  | nil =>
      intro n _
      rw [List.nil_append, Nat.ofDigitChars_nil, List.length_nil]
      cases r with
      | nil => rfl
      | cons c r => simp [takeDigits, (hr c rfl).1]
  | cons c rest ih =>
      intro n hvalue
      have hdigit : isAsciiDigit c = true := hcs c List.mem_cons_self
      have hnext : n * 10 + digitValue c = 10 * n + (c.toNat - '0'.toNat) := by
        rw [digitValue, Nat.mul_comm]
      rw [Nat.ofDigitChars_cons] at hvalue ⊢
      have hfits := lt_of_le_of_lt (le_ofDigitChars rest _) hvalue
      rw [List.cons_append, takeDigits, hdigit, Bool.true_and, hnext,
        if_pos (decide_eq_true hfits), ih (fun d hd => hcs d (List.mem_cons_of_mem _ hd)) hvalue]
      rfl

/-- A number other than 0 does not begin with a 0. -/
theorem toDigits_head_ne {n : Nat} (hn : 0 < n) :
    ∀ c ∈ (Nat.toDigits 10 n).head?, c ≠ '0' := by
  induction n using Nat.strongRecOn with
  | _ n ih =>
      by_cases hlt : n < 10
      · rw [Nat.toDigits_of_lt_base hlt]
        intro c hc
        rw [List.head?_cons, Option.mem_some_iff] at hc
        rw [← hc, Ne, Nat.digitChar_eq_zero]
        omega
      · have hsplit := Nat.toDigits_of_base_le (b := 10) (n := n) (by norm_num) (by omega)
        rw [hsplit, List.head?_append_of_ne_nil _ Nat.toDigits_ne_nil]
        exact ih (n / 10) (by omega) (by omega)

theorem readAfterDigits_end {r : List Char} (hr : EndsNumber r) (negative : Bool) (n : Nat) :
    readAfterDigits negative n 0 r =
      if !negative then .int n r
      else if n != 0 && n ≤ 0x8000000000000000 then .int (-(n : Int)) r
      else .float (Binary64.ofNat n).neg r := by
  cases r with
  | nil => rfl
  | cons c r =>
      obtain ⟨-, hpoint, he, hE⟩ := hr c rfl
      unfold readAfterDigits
      split
      · next heq => exact absurd (List.cons.inj heq).1 hpoint
      · next heq => exact absurd (List.cons.inj heq).1 he
      · next heq => exact absurd (List.cons.inj heq).1 hE
      · rfl

theorem readDigits_toDigits {n : Nat} (hn : n < 0x10000000000000000) {r : List Char}
    (hr : EndsNumber r) (negative : Bool) :
    readDigits negative (Nat.toDigits 10 n ++ r) = readAfterDigits negative n 0 r := by
  rcases Nat.eq_zero_or_pos n with rfl | hpos
  · rw [Nat.toDigits_zero, List.singleton_append, readDigits, hr.head?_any,
      if_neg Bool.false_ne_true]
  · obtain ⟨c, rest, hcons⟩ := List.exists_cons_of_ne_nil (Nat.toDigits_ne_nil (b := 10) (n := n))
    have hdigits : Text.IsDigits (c :: rest) := hcons ▸ Text.isDigits_toDigits n
    have hc : isAsciiDigit c = true := hdigits c List.mem_cons_self
    have hzero : c ≠ '0' := toDigits_head_ne hpos c (by rw [hcons]; rfl)
    -- the first digit is read by itself, and the others go on from its value
    have hvalue : Nat.ofDigitChars 10 rest (digitValue c) = n := by
      have hall : Nat.ofDigitChars 10 (Nat.toDigits 10 n) 0 = n := Nat.ofDigitChars_ten_toDigits
      rw [hcons, Nat.ofDigitChars_cons, Nat.mul_zero, Nat.zero_add] at hall
      exact hall
    have htake : takeDigits (digitValue c) (rest ++ r) = (n, rest.length, r) := by
      have hrest : Text.IsDigits rest := fun d hd => hdigits d (List.mem_cons_of_mem _ hd)
      rw [takeDigits_digits hrest hr (by rw [hvalue]; exact hn), hvalue]
    have hstop : r.takeWhile isAsciiDigit = [] ∧ r.dropWhile isAsciiDigit = r := by
      cases r with
      | nil => exact ⟨rfl, rfl⟩
      | cons d r =>
          have hd := (hr d rfl).1
          exact ⟨List.takeWhile_cons_of_neg (by simp [hd]),
            List.dropWhile_cons_of_neg (by simp [hd])⟩
    rw [hcons, List.cons_append]
    unfold readDigits
    split
    · next heq => exact absurd heq (List.cons_ne_nil _ _)
    · next heq => exact absurd (List.cons.inj heq).1 hzero
    · next heq =>
        obtain ⟨rfl, rfl⟩ := List.cons.inj heq
        rw [if_pos hc, htake]
        simp only [hstop.1, hstop.2, List.length_nil]

/-- **A written integer is read back.** -/
theorem readNumber_writeInt {n : Int} (hn : IsExactInt n) {r : List Char} (hr : EndsNumber r) :
    readNumber (writeInt n ++ r) = .int n r := by
  obtain ⟨hlow, hhigh⟩ := hn
  by_cases hneg : n < 0
  · have hsize : n.natAbs < 0x10000000000000000 := by omega
    have hread : readNumber (writeInt n ++ r) =
        readDigits true (Nat.toDigits 10 n.natAbs ++ r) := by
      rw [writeInt, if_pos hneg]
      rfl
    have hfits : (n.natAbs != 0 && decide (n.natAbs ≤ 0x8000000000000000)) = true := by
      simp only [Bool.and_eq_true, bne_iff_ne, decide_eq_true_eq]
      omega
    rw [hread, readDigits_toDigits hsize hr, readAfterDigits_end hr, Bool.not_true,
      if_neg Bool.false_ne_true, if_pos hfits]
    congr 1
    omega
  · have hsize : n.natAbs < 0x10000000000000000 := by omega
    obtain ⟨c, rest, hcons⟩ :=
      List.exists_cons_of_ne_nil (Nat.toDigits_ne_nil (b := 10) (n := n.natAbs))
    have hminus : c ≠ '-' := by
      rintro rfl
      have hdigit := Text.isDigits_toDigits n.natAbs '-' (by rw [hcons]; exact List.mem_cons_self)
      exact absurd hdigit (by decide)
    have hread : readNumber (writeInt n ++ r) =
        readDigits false (Nat.toDigits 10 n.natAbs ++ r) := by
      rw [writeInt, if_neg hneg, hcons, List.cons_append]
      unfold readNumber
      split
      · next heq => exact absurd (List.cons.inj heq).1 hminus
      · rfl
    rw [hread, readDigits_toDigits hsize hr, readAfterDigits_end hr, Bool.not_false, if_pos rfl]
    congr 1
    omega

/-! ## Spelling -/

/-- Nothing but blanks between tokens. -/
def IsGap (gap : List Char) : Prop := ∀ c ∈ gap, isSpace c = true

theorem isGap_nil : IsGap [] := fun _ h => absurd h List.not_mem_nil

theorem skipSpace_gap {gap : List Char} (h : IsGap gap) (cs : List Char) :
    skipSpace (gap ++ cs) = skipSpace cs := by
  rw [skipSpace, List.dropWhile_append_of_pos h]
  rfl

theorem skipSpace_cons {c : Char} (h : isSpace c = false) (cs : List Char) :
    skipSpace (c :: cs) = c :: cs := List.dropWhile_cons_of_neg (by simp [h])

theorem skipSpace_gap_cons {gap : List Char} (h : IsGap gap) {c : Char} (hc : isSpace c = false)
    (cs : List Char) : skipSpace (gap ++ c :: cs) = c :: cs := by
  rw [skipSpace_gap h, skipSpace_cons hc]

mutual

/-- The text spells the value. -/
inductive Spells : Json → List Char → Prop where
  | null {gap : List Char} : IsGap gap → Spells .null (gap ++ write .null)
  | bool {gap : List Char} (b : Bool) : IsGap gap → Spells (.bool b) (gap ++ write (.bool b))
  | int {gap : List Char} {n : Int} : IsGap gap → IsExactInt n →
      Spells (.int n) (gap ++ writeInt n)
  | str {gap : List Char} (s : String) : IsGap gap → Spells (.str s) (gap ++ writeString s.toList)
  | emptyArr {gap inner : List Char} : IsGap gap → IsGap inner →
      Spells (.arr []) (gap ++ '[' :: (inner ++ [']']))
  | arr {gap cs ds : List Char} {item : Json} {items : List Json} : IsGap gap → Spells item cs →
      SpellsItems items ds → Spells (.arr (item :: items)) (gap ++ '[' :: (cs ++ ds))
  | emptyObj {gap inner : List Char} : IsGap gap → IsGap inner →
      Spells (.obj []) (gap ++ '\x7b' :: (inner ++ ['\x7d']))
  | obj {gap before behind cs ds : List Char} {key : String} {value : Json}
      {members : List (String × Json)} : IsGap gap → IsGap before → IsGap behind →
      Spells value cs → SpellsMembers members ds →
      Spells (.obj ((key, value) :: members))
        (gap ++ '\x7b' :: (before ++ (writeString key.toList ++ (behind ++ ':' :: (cs ++ ds)))))

/-- The text spells the items behind another one, and ends the array. -/
inductive SpellsItems : List Json → List Char → Prop where
  | close {gap : List Char} : IsGap gap → SpellsItems [] (gap ++ [']'])
  | next {gap cs ds : List Char} {item : Json} {items : List Json} : IsGap gap → Spells item cs →
      SpellsItems items ds → SpellsItems (item :: items) (gap ++ ',' :: (cs ++ ds))

/-- The text spells the members behind another one, and ends the object. -/
inductive SpellsMembers : List (String × Json) → List Char → Prop where
  | close {gap : List Char} : IsGap gap → SpellsMembers [] (gap ++ ['\x7d'])
  | next {gap before behind cs ds : List Char} {key : String} {value : Json}
      {members : List (String × Json)} : IsGap gap → IsGap before → IsGap behind →
      Spells value cs → SpellsMembers members ds →
      SpellsMembers ((key, value) :: members)
        (gap ++ ',' :: (before ++ (writeString key.toList ++ (behind ++ ':' :: (cs ++ ds)))))

end

/-- A text that spells a value begins with blanks and then with no bracket that closes. -/
theorem Spells.exists_core {a : Json} {cs : List Char} (h : Spells a cs) :
    ∃ gap c rest, cs = gap ++ c :: rest ∧ IsGap gap ∧ Spells a (c :: rest) ∧ isSpace c = false ∧
      c ≠ ']' := by
  cases h with
  | null hgap => exact ⟨_, _, _, rfl, hgap, .null isGap_nil, by decide, by decide⟩
  | bool b hgap =>
      cases b <;> exact ⟨_, _, _, rfl, hgap, .bool _ isGap_nil, by decide, by decide⟩
  | @int _ n hgap hn =>
      have hne : writeInt n ≠ [] := by
        rw [writeInt]
        split
        · exact List.cons_ne_nil _ _
        · exact Nat.toDigits_ne_nil
      obtain ⟨c, rest, hcons⟩ := List.exists_cons_of_ne_nil hne
      have hnumeric := isNumeric_writeInt n c (by rw [hcons]; exact List.mem_cons_self)
      have hcore : Spells (.int n) (c :: rest) := hcons ▸ .int isGap_nil hn
      refine ⟨_, c, rest, by rw [hcons], hgap, hcore, ?_, ?_⟩
      · by_contra hspace
        rw [Bool.not_eq_false, isSpace] at hspace
        simp only [Bool.or_eq_true, beq_iff_eq] at hspace
        rcases hspace with ((rfl | rfl) | rfl) | rfl <;> exact absurd hnumeric (by decide)
      · rintro rfl
        exact absurd hnumeric (by decide)
  | str s hgap => exact ⟨_, _, _, rfl, hgap, .str s isGap_nil, by decide, by decide⟩
  | emptyArr hgap hinner =>
      exact ⟨_, _, _, rfl, hgap, .emptyArr isGap_nil hinner, by decide, by decide⟩
  | arr hgap hitem hitems =>
      exact ⟨_, _, _, rfl, hgap, .arr isGap_nil hitem hitems, by decide, by decide⟩
  | emptyObj hgap hinner =>
      exact ⟨_, _, _, rfl, hgap, .emptyObj isGap_nil hinner, by decide, by decide⟩
  | obj hgap hbefore hbehind hvalue hmembers =>
      exact ⟨_, _, _, rfl, hgap, .obj isGap_nil hbefore hbehind hvalue hmembers, by decide,
        by decide⟩

/-! ## Reading what is spelled -/

theorem readValue_gap {gap : List Char} (h : IsGap gap) (steps : Nat) (cs : List Char) :
    readValue steps (gap ++ cs) = readValue steps cs := by
  cases steps with
  | zero => rfl
  | succ steps => rw [readValue, readValue, skipSpace_gap h]

theorem readValue_arr {steps : Nat} {cs rest : List Char} {items : List Tree}
    (h : readItems steps true cs = (items, .ok rest)) :
    readValue (steps + 1) ('[' :: cs) = (.arr items none, .ok rest) := by
  rw [readValue, skipSpace_cons (by decide)]
  simp only [h]

theorem readValue_obj {steps : Nat} {cs rest : List Char}
    {members : List (Except Flaw String × Tree)}
    (h : readMembers steps true cs = (members, .ok rest)) :
    readValue (steps + 1) ('\x7b' :: cs) = (.obj members none, .ok rest) := by
  rw [readValue, skipSpace_cons (by decide)]
  simp only [h]

theorem readItems_close {gap : List Char} (h : IsGap gap) (steps : Nat) (first : Bool)
    (rest : List Char) : readItems (steps + 1) first (gap ++ ']' :: rest) = ([], .ok rest) := by
  rw [readItems, skipSpace_gap_cons h (by decide)]
  rfl

theorem readItem_eq {steps : Nat} {cs rest : List Char} {item : Tree}
    (h : readValue steps cs = (item, .ok rest)) :
    readItem (steps + 1) cs =
      (item :: (readItems steps false rest).1, (readItems steps false rest).2) := by
  rw [readItem, h]

theorem readItem_gap {gap : List Char} (h : IsGap gap) (steps : Nat) (cs : List Char) :
    readItem (steps + 1) (gap ++ cs) = readItem (steps + 1) cs := by
  rw [readItem, readItem, readValue_gap h]

theorem Spells.readItems_first {a : Json} {cs : List Char} (h : Spells a cs) (steps : Nat)
    (rest : List Char) :
    readItems (steps + 2) true (cs ++ rest) = readItem (steps + 1) (cs ++ rest) := by
  obtain ⟨gap, c, core, rfl, hgap, -, hspace, hc⟩ := h.exists_core
  rw [List.append_assoc, readItem_gap hgap, List.cons_append, readItems,
    skipSpace_gap_cons hgap hspace]
  simp

theorem Spells.readItems_comma {a : Json} {cs : List Char} (h : Spells a cs) {gap : List Char}
    (hgap : IsGap gap) (steps : Nat) (rest : List Char) :
    readItems (steps + 2) false (gap ++ ',' :: (cs ++ rest)) =
      readItem (steps + 1) (cs ++ rest) := by
  obtain ⟨behind, c, core, rfl, hbehind, -, hspace, hc⟩ := h.exists_core
  rw [List.append_assoc, readItem_gap hbehind, List.cons_append, readItems,
    skipSpace_gap_cons hgap (by decide)]
  simp only [Char.isValue, Char.reduceEq, imp_self, Bool.false_eq_true, reduceIte,
    skipSpace_gap_cons hbehind hspace]
  split
  · next heq => exact absurd heq (List.cons_ne_nil _ _)
  · next heq => exact absurd (List.cons.inj heq).1 hc
  · rfl

theorem readMembers_close {gap : List Char} (h : IsGap gap) (steps : Nat) (first : Bool)
    (rest : List Char) :
    readMembers (steps + 1) first (gap ++ '\x7d' :: rest) = ([], .ok rest) := by
  rw [readMembers, skipSpace_gap_cons h (by decide)]
  rfl

theorem readMembers_first {gap : List Char} (h : IsGap gap) (steps : Nat) (cs : List Char) :
    readMembers (steps + 1) true (gap ++ '"' :: cs) = readMember steps cs := by
  rw [readMembers, skipSpace_gap_cons h (by decide)]
  simp

theorem readMembers_comma {gap behind : List Char} (h : IsGap gap) (hbehind : IsGap behind)
    (steps : Nat) (cs : List Char) :
    readMembers (steps + 1) false (gap ++ ',' :: (behind ++ '"' :: cs)) = readMember steps cs := by
  rw [readMembers, skipSpace_gap_cons h (by decide)]
  simp [skipSpace_gap_cons hbehind (show isSpace '"' = false by decide)]

theorem readMember_eq {steps : Nat} {gap cs rest : List Char} {value : Tree} (hgap : IsGap gap)
    (key : List Char) (h : readValue steps cs = (value, .ok rest)) :
    readMember (steps + 1) (key.flatMap escapeChar ++ '"' :: (gap ++ ':' :: cs)) =
      ((.ok (String.ofList key), value) :: (readMembers steps false rest).1,
        (readMembers steps false rest).2) := by
  rw [readMember, stringAt_written]
  simp only [skipSpace_gap_cons hgap (show isSpace ':' = false by decide), h]
  rfl

theorem readValue_number {c : Char} (hc : (c == '-' || isAsciiDigit c) = true) (steps : Nat)
    (cs : List Char) : readValue (steps + 1) (c :: cs) = numberReading (c :: cs) := by
  have hne : ∀ d ∈ [' ', '\n', '\t', '\r', 'n', 't', 'f', '"', '[', '\x7b'], c ≠ d := by
    rintro d hd rfl
    simp only [List.mem_cons, List.not_mem_nil, or_false] at hd
    rcases hd with rfl | rfl | rfl | rfl | rfl | rfl | rfl | rfl | rfl | rfl <;>
      exact absurd hc (by decide)
  simp only [List.mem_cons, List.not_mem_nil, or_false, forall_eq_or_imp, forall_eq] at hne
  obtain ⟨h1, h2, h3, h4, h5, h6, h7, h8, h9, h10⟩ := hne
  have hspace : isSpace c = false := by simp [isSpace, h1, h2, h3, h4]
  rw [readValue, skipSpace_cons hspace]
  simp [hc]

theorem readValue_writeInt {n : Int} (hn : IsExactInt n) {rest : List Char}
    (hrest : EndsNumber rest) (steps : Nat) :
    readValue (steps + 1) (writeInt n ++ rest) = (.int n, .ok rest) := by
  have hread : numberReading (writeInt n ++ rest) = (.int n, .ok rest) := by
    rw [numberReading, readNumber_writeInt hn hrest]
  have hhead : ∃ c cs, writeInt n = c :: cs ∧ (c == '-' || isAsciiDigit c) = true := by
    rw [writeInt]
    split
    · exact ⟨_, _, rfl, rfl⟩
    · obtain ⟨c, cs, hcons⟩ :=
        List.exists_cons_of_ne_nil (Nat.toDigits_ne_nil (b := 10) (n := n.natAbs))
      have hc : isAsciiDigit c = true :=
        Text.isDigits_toDigits n.natAbs c (by rw [hcons]; exact List.mem_cons_self)
      exact ⟨c, cs, hcons, by rw [hc, Bool.or_true]⟩
  obtain ⟨c, cs, hcons, hc⟩ := hhead
  rw [← hread, hcons, List.cons_append, readValue_number hc]

theorem readValue_writeString (s : String) (steps : Nat) (rest : List Char) :
    readValue (steps + 1) (writeString s.toList ++ rest) = (.str s, .ok rest) := by
  rw [writeString, List.append_assoc, List.singleton_append, List.cons_append, readValue,
    skipSpace_cons (by decide)]
  simp only [stringAt_written, String.ofList_toList]

/-- White space does not go on with a number. -/
theorem IsGap.endsNumber {gap : List Char} (h : IsGap gap) : EndsNumber gap := by
  intro c hc
  have hspace := h c (List.mem_of_mem_head? hc)
  simp only [isSpace, Bool.or_eq_true, beq_iff_eq] at hspace
  rcases hspace with ((rfl | rfl) | rfl) | rfl <;> decide

theorem endsNumber_gap {gap : List Char} (h : IsGap gap) {c : Char}
    (hc : c = ',' ∨ c = ']' ∨ c = '\x7d') (cs : List Char) : EndsNumber (gap ++ c :: cs) := by
  cases gap with
  | nil =>
      intro d hd
      obtain rfl : c = d := by simpa using hd
      rcases hc with rfl | rfl | rfl <;> decide
  | cons b gap => exact h.endsNumber

theorem SpellsItems.endsNumber {items : List Json} {ds : List Char} (h : SpellsItems items ds)
    (rest : List Char) : EndsNumber (ds ++ rest) := by
  cases h with
  | close hgap =>
      rw [List.append_assoc]
      exact endsNumber_gap hgap (by simp) _
  | next hgap =>
      rw [List.append_assoc]
      exact endsNumber_gap hgap (by simp) _

theorem SpellsMembers.endsNumber {members : List (String × Json)} {ds : List Char}
    (h : SpellsMembers members ds) (rest : List Char) : EndsNumber (ds ++ rest) := by
  cases h with
  | close hgap =>
      rw [List.append_assoc]
      exact endsNumber_gap hgap (by simp) _
  | next hgap =>
      rw [List.append_assoc]
      exact endsNumber_gap hgap (by simp) _

mutual

/-- **A text that spells a value is read as the tree of the value.** -/
theorem readValue_spells : ∀ (a : Json) {cs rest : List Char} {steps : Nat}, Spells a cs →
    EndsNumber rest → 3 * (cs ++ rest).length + 3 ≤ steps →
    readValue steps (cs ++ rest) = (toTree a, .ok rest)
  | .null, _, rest, steps, h, _, hsteps => by
      obtain ⟨steps, rfl⟩ := Nat.exists_eq_add_of_le' (Nat.one_le_of_lt hsteps)
      cases h with
      | null hgap =>
          rw [List.append_assoc, readValue_gap hgap]
          rfl
  | .bool b, _, rest, steps, h, _, hsteps => by
      obtain ⟨steps, rfl⟩ := Nat.exists_eq_add_of_le' (Nat.one_le_of_lt hsteps)
      cases h with
      | bool b hgap =>
          rw [List.append_assoc, readValue_gap hgap]
          cases b <;> rfl
  | .int n, _, rest, steps, h, hrest, hsteps => by
      obtain ⟨steps, rfl⟩ := Nat.exists_eq_add_of_le' (Nat.one_le_of_lt hsteps)
      cases h with
      | int hgap hn =>
          rw [List.append_assoc, readValue_gap hgap, readValue_writeInt hn hrest]
          rfl
  | .str s, _, rest, steps, h, _, hsteps => by
      obtain ⟨steps, rfl⟩ := Nat.exists_eq_add_of_le' (Nat.one_le_of_lt hsteps)
      cases h with
      | str s hgap =>
          rw [List.append_assoc, readValue_gap hgap, readValue_writeString]
          rfl
  | .float x, _, _, _, h, _, _ => nomatch h
  | .arr [], _, rest, steps, h, _, hsteps => by
      obtain ⟨steps, rfl⟩ := Nat.exists_eq_add_of_le' (show 2 ≤ steps by omega)
      cases h with
      | emptyArr hgap hinner =>
          rw [List.append_assoc, readValue_gap hgap, List.cons_append, List.append_assoc]
          exact readValue_arr (readItems_close hinner steps true rest)
  | .arr (item :: items), _, rest, steps, h, _, hsteps => by
      cases h with
      | @arr gap cs ds _ _ hgap hitem hitems =>
          simp only [List.length_append, List.length_cons] at hsteps
          -- the bracket and the item take steps of their own before those of its value
          obtain ⟨steps, rfl⟩ := Nat.exists_eq_add_of_le' (show 3 ≤ steps by omega)
          have hread : readValue steps (cs ++ (ds ++ rest)) = (toTree item, .ok (ds ++ rest)) :=
            readValue_spells item hitem (hitems.endsNumber rest)
              (by simp only [List.length_append]; omega)
          have hothers : readItems steps false (ds ++ rest) = (itemTrees items, .ok rest) :=
            readItems_spells items hitems (by simp only [List.length_append]; omega)
          have hall : readItems (steps + 2) true (cs ++ (ds ++ rest)) =
              (itemTrees (item :: items), .ok rest) := by
            rw [hitem.readItems_first, readItem_eq hread, hothers]
            rfl
          rw [List.append_assoc, readValue_gap hgap, List.cons_append, List.append_assoc]
          exact readValue_arr hall
  | .obj [], _, rest, steps, h, _, hsteps => by
      obtain ⟨steps, rfl⟩ := Nat.exists_eq_add_of_le' (show 2 ≤ steps by omega)
      cases h with
      | emptyObj hgap hinner =>
          rw [List.append_assoc, readValue_gap hgap, List.cons_append, List.append_assoc]
          exact readValue_obj (readMembers_close hinner steps true rest)
  | .obj ((key, value) :: members), _, rest, steps, h, _, hsteps => by
      cases h with
      | @obj gap before behind cs ds _ _ _ hgap hbefore hbehind hvalue hmembers =>
          simp only [List.length_append, List.length_cons] at hsteps
          obtain ⟨steps, rfl⟩ := Nat.exists_eq_add_of_le' (show 3 ≤ steps by omega)
          have hread : readValue steps (cs ++ (ds ++ rest)) = (toTree value, .ok (ds ++ rest)) :=
            readValue_spells value hvalue (hmembers.endsNumber rest)
              (by simp only [List.length_append]; omega)
          have hothers : readMembers steps false (ds ++ rest) = (memberTrees members, .ok rest) :=
            readMembers_spells members hmembers (by simp only [List.length_append]; omega)
          simp only [List.append_assoc, List.cons_append, writeString, List.nil_append]
          rw [readValue_gap hgap]
          refine readValue_obj ?_
          rw [readMembers_first hbefore, readMember_eq hbehind key.toList hread, hothers,
            String.ofList_toList]
          rfl

theorem readItems_spells : ∀ (items : List Json) {ds rest : List Char} {steps : Nat},
    SpellsItems items ds → 3 * (ds ++ rest).length + 2 ≤ steps →
    readItems steps false (ds ++ rest) = (itemTrees items, .ok rest)
  | [], _, rest, steps, h, hsteps => by
      obtain ⟨steps, rfl⟩ := Nat.exists_eq_add_of_le' (Nat.one_le_of_lt hsteps)
      cases h with
      | close hgap =>
          rw [List.append_assoc]
          exact readItems_close hgap steps false rest
  | item :: items, _, rest, steps, h, hsteps => by
      cases h with
      | @next gap cs ds _ _ hgap hitem hitems =>
          simp only [List.length_append, List.length_cons] at hsteps
          obtain ⟨steps, rfl⟩ := Nat.exists_eq_add_of_le' (show 2 ≤ steps by omega)
          have hread : readValue steps (cs ++ (ds ++ rest)) = (toTree item, .ok (ds ++ rest)) :=
            readValue_spells item hitem (hitems.endsNumber rest)
              (by simp only [List.length_append]; omega)
          have hothers : readItems steps false (ds ++ rest) = (itemTrees items, .ok rest) :=
            readItems_spells items hitems (by simp only [List.length_append]; omega)
          rw [List.append_assoc, List.cons_append, List.append_assoc, hitem.readItems_comma hgap,
            readItem_eq hread, hothers]
          rfl

theorem readMembers_spells : ∀ (members : List (String × Json)) {ds rest : List Char}
    {steps : Nat}, SpellsMembers members ds → 3 * (ds ++ rest).length + 2 ≤ steps →
    readMembers steps false (ds ++ rest) = (memberTrees members, .ok rest)
  | [], _, rest, steps, h, hsteps => by
      obtain ⟨steps, rfl⟩ := Nat.exists_eq_add_of_le' (Nat.one_le_of_lt hsteps)
      cases h with
      | close hgap =>
          rw [List.append_assoc]
          exact readMembers_close hgap steps false rest
  | (key, value) :: members, _, rest, steps, h, hsteps => by
      cases h with
      | @next gap before behind cs ds _ _ _ hgap hbefore hbehind hvalue hmembers =>
          simp only [List.length_append, List.length_cons] at hsteps
          obtain ⟨steps, rfl⟩ := Nat.exists_eq_add_of_le' (show 2 ≤ steps by omega)
          have hread : readValue steps (cs ++ (ds ++ rest)) = (toTree value, .ok (ds ++ rest)) :=
            readValue_spells value hvalue (hmembers.endsNumber rest)
              (by simp only [List.length_append]; omega)
          have hothers : readMembers steps false (ds ++ rest) = (memberTrees members, .ok rest) :=
            readMembers_spells members hmembers (by simp only [List.length_append]; omega)
          simp only [List.append_assoc, List.cons_append, writeString, List.nil_append]
          rw [readMembers_comma hgap hbefore, readMember_eq hbehind key.toList hread, hothers,
            String.ofList_toList]
          rfl

end

/-- A text that begins with a value is read up to what follows. -/
theorem readFirst_spells {a : Json} {cs rest : List Char} (h : Spells a cs)
    (hrest : EndsNumber rest) : readFirst (cs ++ rest) = (toTree a, .ok rest) :=
  readValue_spells a h hrest le_rfl

/-- The text of a value, up to blanks behind it. -/
theorem ofText_of_spells {a : Json} {cs gap : List Char} (h : Spells a cs) (hgap : IsGap gap) :
    Document.ofText (cs ++ gap) = ⟨toTree a, none⟩ := by
  have hblank : skipSpace gap = [] := by
    rw [← List.append_nil gap, skipSpace_gap hgap]
    rfl
  rw [Document.ofText, readFirst_spells h hgap.endsNumber]
  simp only [trailing?, hblank]

/-! ## The compact form -/

/-- All numbers in the value are integers that are read as such. -/
inductive IsPrecise : Json → Prop where
  | null : IsPrecise .null
  | bool (b : Bool) : IsPrecise (.bool b)
  | int {n : Int} : IsExactInt n → IsPrecise (.int n)
  | str (s : String) : IsPrecise (.str s)
  | arr {items : List Json} : (∀ item ∈ items, IsPrecise item) → IsPrecise (.arr items)
  | obj {members : List (String × Json)} : (∀ m ∈ members, IsPrecise m.2) → IsPrecise (.obj members)

theorem isPrecise_nat {n : Nat} (h : n < 2 ^ 64) : IsPrecise (.nat n) :=
  .int ⟨by omega, by omega⟩

theorem isPrecise_strings (values : List String) : IsPrecise (strings values) := by
  refine .arr fun item hitem => ?_
  obtain ⟨value, -, rfl⟩ := List.mem_map.mp hitem
  exact .str value

mutual

/-- **The compact form spells the value.** -/
theorem spells_write : ∀ a : Json, IsPrecise a → Spells a (write a)
  | .null, _ => .null isGap_nil
  | .bool b, _ => .bool b isGap_nil
  | .int _, h => by
      cases h with
      | int hn => exact .int isGap_nil hn
  | .str s, _ => .str s isGap_nil
  | .float _, h => nomatch h
  | .arr [], _ => .emptyArr isGap_nil isGap_nil
  | .arr (item :: items), h => by
      cases h with
      | arr hall =>
          obtain ⟨hitem, hitems⟩ := List.forall_mem_cons.mp hall
          rw [write, List.cons_append, writeItems_append]
          exact .arr isGap_nil (spells_write item hitem) (spellsItems_written items hitems)
  | .obj [], _ => .emptyObj isGap_nil isGap_nil
  | .obj ((key, value) :: members), h => by
      cases h with
      | obj hall =>
          obtain ⟨hvalue, hmembers⟩ := List.forall_mem_cons.mp hall
          rw [write, List.cons_append, writeMembers_append]
          exact .obj isGap_nil isGap_nil isGap_nil (spells_write value hvalue)
            (spellsMembers_written members hmembers)

theorem spellsItems_written : ∀ items : List Json, (∀ item ∈ items, IsPrecise item) →
    SpellsItems items (afterFirst writeItems ']' [] items)
  | [], _ => .close isGap_nil
  | item :: items, h => by
      obtain ⟨hitem, hitems⟩ := List.forall_mem_cons.mp h
      rw [afterFirst, writeItems_append]
      exact .next isGap_nil (spells_write item hitem) (spellsItems_written items hitems)

theorem spellsMembers_written : ∀ members : List (String × Json), (∀ m ∈ members, IsPrecise m.2) →
    SpellsMembers members (afterFirst writeMembers '\x7d' [] members)
  | [], _ => .close isGap_nil
  | (key, value) :: members, h => by
      obtain ⟨hvalue, hmembers⟩ := List.forall_mem_cons.mp h
      rw [afterFirst, writeMembers_append]
      exact .next isGap_nil isGap_nil isGap_nil (spells_write value hvalue)
        (spellsMembers_written members hmembers)

end

end ChangeScope.Json
