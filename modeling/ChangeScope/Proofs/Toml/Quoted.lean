import ChangeScope.Proofs.Text.Fields
import ChangeScope.Toml.Printer

/-!
# Written strings are read back

Whichever form the writer chooses for a string, the reader gives the string again
(`readString_writeString`). Between quotes every character stands for itself or is an escape
(`escaped_cases`). Between apostrophes a string ends where three of them stand in a row, so the
writer uses this form only for strings with shorter rows (`length_takeWhile_le_longest`).
-/

set_option autoImplicit false

namespace ChangeScope.Toml

variable {c : Char} {cs rest : List Char}

/-! ## Escapes -/

theorem hexNumber?_hexDigits4 : ∀ n < 0x80, hexNumber? (hexDigits4 n) = some n := by decide

theorem toNat_lt_of_control (h : isPlain c = false) : c.toNat < 0x80 := by
  simp only [isPlain, Bool.or_eq_false_iff, Bool.and_eq_false_iff, decide_eq_false_iff_not] at h
  omega

/-- A character is read from its number. -/
theorem escape?_number (h : isPlain c = false) (rest : List Char) :
    escape? ('u' :: (hexDigits4 c.toNat ++ rest)) = some (c, rest) := by
  have hscalar : scalar? c.toNat = some c := by
    rw [scalar?, if_pos (show c.toNat.isValidChar from c.valid), Char.ofNat_toNat]
  show numberedEscape? 4 _ = _
  have htake : (hexDigits4 c.toNat ++ rest).take 4 = hexDigits4 c.toNat := rfl
  have hdrop : (hexDigits4 c.toNat ++ rest).drop 4 = rest := rfl
  rw [numberedEscape?, if_neg (by simp [hexDigits4]), htake, hdrop,
    hexNumber?_hexDigits4 _ (toNat_lt_of_control h), Option.bind_some, hscalar]
  rfl

/-- What follows the backslash of an escape is no white space. -/
def BeginsCode (code : List Char) : Prop :=
  ∃ d ds, code = d :: ds ∧ isSpace d = false ∧ d ≠ '\n' ∧ d ≠ '\r'

/-- **Between quotes a character stands for itself or is an escape.** -/
theorem escaped_cases (lines : Bool) (c : Char) :
    (escaped lines c = [c] ∧ (isBasic c = true ∨ lines = true ∧ c = '\n')) ∨
      ∃ code, escaped lines c = '\\' :: code ∧ BeginsCode code ∧
        ∀ rest, escape? (code ++ rest) = some (c, rest) := by
  -- the named escapes have one character behind the backslash
  have hshort : ∀ d : Char, isSpace d = false ∧ d ≠ '\n' ∧ d ≠ '\r' → BeginsCode [d] :=
    fun d hd => ⟨d, [], rfl, hd⟩
  unfold escaped
  split
  · next hc => exact .inr ⟨['"'], rfl, hshort _ (by decide), fun rest => by rw [hc]; rfl⟩
  split
  · next hc => exact .inr ⟨['\\'], rfl, hshort _ (by decide), fun rest => by rw [hc]; rfl⟩
  split
  · next hc =>
    split
    · next hlines => exact .inl ⟨by rw [hc], .inr ⟨hlines, hc⟩⟩
    · exact .inr ⟨['n'], rfl, hshort _ (by decide), fun rest => by rw [hc]; rfl⟩
  split
  · next hc => exact .inr ⟨['t'], rfl, hshort _ (by decide), fun rest => by rw [hc]; rfl⟩
  split
  · next hc => exact .inr ⟨['b'], rfl, hshort _ (by decide), fun rest => by rw [hc]; rfl⟩
  split
  · next hc => exact .inr ⟨['f'], rfl, hshort _ (by decide), fun rest => by rw [hc]; rfl⟩
  split
  · next hc => exact .inr ⟨['r'], rfl, hshort _ (by decide), fun rest => by rw [hc]; rfl⟩
  split
  · next hquote hslash _ _ _ _ _ hplain =>
    exact .inl ⟨rfl, .inl (by simp [isBasic, hplain, hquote, hslash])⟩
  · next hplain =>
    exact .inr ⟨'u' :: hexDigits4 c.toNat, rfl, ⟨'u', _, rfl, by decide, by decide, by decide⟩,
      escape?_number (by simpa using hplain)⟩

theorem continuation?_code {code : List Char} (h : BeginsCode code) (rest : List Char) :
    continuation? (code ++ rest) = none := by
  obtain ⟨d, ds, rfl, hspace, hline, hreturn⟩ := h
  have hnone : newline? (d :: (ds ++ rest)) = none := by
    unfold newline?
    split
    · next heq => exact absurd (List.cons.inj heq).1 hline
    · next heq => exact absurd (List.cons.inj heq).1 hreturn
    · rfl
  rw [continuation?, List.cons_append, List.dropWhile_cons_of_neg (by simp [hspace]), hnone]
  rfl

/-! ## Between quotes -/

theorem isBasic_ne (h : isBasic c = true) : isPlain c = true ∧ c ≠ '"' ∧ c ≠ '\\' := by
  simpa [isBasic, and_assoc] using h

theorem readBasic_plain (h : isBasic c = true) (cs : List Char) :
    readBasic (c :: cs) = (readBasic cs).map fun (s, end_) => (c :: s, end_) := by
  obtain ⟨-, hquote, hslash⟩ := isBasic_ne h
  rw [readBasic.eq_4 c cs (fun heq => hquote heq) (fun heq => hslash heq), if_pos h]

theorem readBasic_escape {after : List Char} (h : escape? cs = some (c, after)) :
    readBasic ('\\' :: cs) = (readBasic after).map fun (s, end_) => (c :: s, end_) := by
  rw [readBasic]
  split
  · next hfound =>
    obtain ⟨rfl, rfl⟩ := Prod.mk.inj (Option.some.inj (hfound.symm.trans h))
    rfl
  · next hnone => exact absurd (hnone.symm.trans h) (by simp)

/-- A string between quotes is read back. -/
theorem readBasic_escaped (cs rest : List Char) :
    readBasic (cs.flatMap (escaped false) ++ '"' :: rest) = some (cs, rest) := by
  induction cs with
  | nil => rw [List.flatMap_nil, List.nil_append, readBasic]
  | cons c cs ih =>
    rw [List.flatMap_cons, List.append_assoc]
    rcases escaped_cases false c with ⟨hself, hbasic | ⟨hlines, -⟩⟩ | ⟨code, hcode, -, hescape⟩
    · rw [hself, List.singleton_append, readBasic_plain hbasic, ih]
      rfl
    · cases hlines
    · rw [hcode, List.cons_append, readBasic_escape (hescape _), ih]
      rfl

/-! ## Between three quotes -/

/-- A character of a string that goes over several lines without escapes. -/
def isLine (c : Char) : Bool := isPlain c || c == '\n'

theorem closing?_none {delimiter : Char} (h : (cs.takeWhile (· == delimiter)).length < 3) :
    closing? delimiter cs = none := by
  rw [closing?, if_pos]
  omega

theorem closing?_three {delimiter : Char} (h : rest.head? ≠ some delimiter) :
    closing? delimiter (delimiter :: delimiter :: delimiter :: rest) = some ([], rest) := by
  have hrest : ∀ c, rest.head? = some c → (c == delimiter) = false := by
    intro c hc
    rw [beq_eq_false_iff_ne]
    rintro rfl
    exact h hc
  have hcount : (delimiter :: delimiter :: delimiter :: rest).takeWhile (· == delimiter) =
      [delimiter, delimiter, delimiter] :=
    (Text.takeWhile_stretch (a := [delimiter, delimiter, delimiter]) (by simp) hrest).1
  rw [closing?, hcount]
  rfl

theorem closing?_of_ne {delimiter : Char} (h : c ≠ delimiter) (cs : List Char) :
    closing? delimiter (c :: cs) = none :=
  closing?_none (by rw [List.takeWhile_cons_of_neg (by simpa using h)]; decide)

theorem readBasicLines_plain (h : isBasic c = true ∨ c = '\n') (cs : List Char) :
    readBasicLines (c :: cs) = (readBasicLines cs).map fun (s, end_) => (c :: s, end_) := by
  have hquote : c ≠ '"' := by
    rcases h with h | rfl
    · exact (isBasic_ne h).2.1
    · decide
  have hslash : c ≠ '\\' := by
    rcases h with h | rfl
    · exact (isBasic_ne h).2.2
    · decide
  have hreturn : c ≠ '\r' := by
    rcases h with h | rfl
    · rintro rfl
      exact absurd (isBasic_ne h).1 (by decide)
    · decide
  have hline : isLine c = true := by
    rcases h with h | rfl
    · rw [isLine, (isBasic_ne h).1, Bool.true_or]
    · rfl
  rw [readBasicLines.eq_def, closing?_of_ne hquote]
  simp only
  split
  · next heq => cases heq
  · next heq => exact absurd (List.cons.inj heq).1 hslash
  · next heq => exact absurd (List.cons.inj heq).1 hreturn
  · next heq =>
    obtain ⟨rfl, rfl⟩ := List.cons.inj heq
    rw [← isLine.eq_def, if_pos hline]

theorem readBasicLines_escape {code : List Char} (hcode : BeginsCode code)
    (h : ∀ rest, escape? (code ++ rest) = some (c, rest)) (cs : List Char) :
    readBasicLines ('\\' :: (code ++ cs)) =
      (readBasicLines cs).map fun (s, end_) => (c :: s, end_) := by
  rw [readBasicLines.eq_def, closing?_of_ne (by decide)]
  simp only
  split
  · next hnext => exact absurd (hnext.symm.trans (continuation?_code hcode cs)) (by simp)
  · split
    · next hfound =>
      obtain ⟨rfl, rfl⟩ := Prod.mk.inj (Option.some.inj (hfound.symm.trans (h cs)))
      rfl
    · next hnone => exact absurd (hnone.symm.trans (h cs)) (by simp)

/-- A string between three quotes is read back. -/
theorem readBasicLines_escaped (hrest : rest.head? ≠ some '"') (cs : List Char) :
    readBasicLines (cs.flatMap (escaped true) ++ '"' :: '"' :: '"' :: rest) = some (cs, rest) := by
  induction cs with
  | nil => rw [List.flatMap_nil, List.nil_append, readBasicLines.eq_def, closing?_three hrest]
  | cons c cs ih =>
    rw [List.flatMap_cons, List.append_assoc]
    rcases escaped_cases true c with ⟨hself, hplain⟩ | ⟨code, hcode, hbegins, hescape⟩
    · rw [hself, List.singleton_append, readBasicLines_plain (hplain.imp_right And.right), ih]
      rfl
    · rw [hcode, List.cons_append, readBasicLines_escape hbegins hescape, ih]
      rfl

/-! ## Between apostrophes -/

theorem readLiteral_plain (h : cs.all isLiteral = true) (rest : List Char) :
    readLiteral (cs ++ '\'' :: rest) = some (cs, rest) := by
  induction cs with
  | nil => rfl
  | cons c cs ih =>
    obtain ⟨hc, hcs⟩ := (List.all_cons ▸ Bool.and_eq_true_iff).mp h
    have hquote : c ≠ '\'' := by
      rintro rfl
      cases hc
    rw [List.cons_append, readLiteral.eq_3 c _ hquote, if_pos hc, ih hcs]
    rfl

/-! ## Between three apostrophes -/

theorem longestApostrophes_le_iff {n : Nat} :
    longestApostrophes cs ≤ n ↔ ∀ row ∈ Text.fields (· != '\'') cs, row.length ≤ n := by
  have hfold : ∀ (lengths : List Nat) (m : Nat),
      lengths.foldl max m ≤ n ↔ m ≤ n ∧ ∀ k ∈ lengths, k ≤ n := by
    intro lengths
    induction lengths with
    | nil => simp
    | cons k lengths ih =>
      intro m
      rw [List.foldl_cons, ih, Nat.max_le, List.forall_mem_cons, and_assoc]
  rw [longestApostrophes, hfold, List.forall_mem_map]
  exact and_iff_right (Nat.zero_le n)

/-- The first row of apostrophes is the one that the text begins with. -/
theorem head?_fields (cs : List Char) :
    (Text.fields (· != '\'') cs).head? = some (cs.takeWhile (· == '\'')) := by
  induction cs with
  | nil => rfl
  | cons c cs ih =>
    obtain ⟨row, others, hrows, hcons⟩ := Text.fields_cons (p := (· != '\'')) c cs
    rw [hrows, List.head?_cons, Option.some.injEq] at ih
    rw [hcons, List.takeWhile_cons, ih]
    by_cases hc : c = '\''
    · simp [hc]
    · simp [hc]

theorem longestApostrophes_le_cons (c : Char) (cs : List Char) :
    longestApostrophes cs ≤ longestApostrophes (c :: cs) := by
  obtain ⟨row, others, hrows, hcons⟩ := Text.fields_cons (p := (· != '\'')) c cs
  have hlong : ∀ row ∈ Text.fields (· != '\'') (c :: cs),
      row.length ≤ longestApostrophes (c :: cs) := longestApostrophes_le_iff.mp (Nat.le_refl _)
  rw [longestApostrophes_le_iff]
  rw [hrows, List.forall_mem_cons]
  rw [hcons] at hlong
  split at hlong
  · exact List.forall_mem_cons.mp (List.forall_mem_cons.mp hlong).2
  · obtain ⟨hrow, hothers⟩ := List.forall_mem_cons.mp hlong
    exact ⟨Nat.le_of_succ_le hrow, hothers⟩

/-- No part behind begins with more apostrophes than the longest row has. -/
theorem length_takeWhile_le_longest {back : List Char} (h : back <:+ cs) :
    (back.takeWhile (· == '\'')).length ≤ longestApostrophes cs := by
  induction cs with
  | nil =>
    rw [List.suffix_nil.mp h]
    exact Nat.zero_le _
  | cons c cs ih =>
    rcases List.suffix_cons_iff.mp h with rfl | h
    · exact longestApostrophes_le_iff.mp (Nat.le_refl _) _ (List.mem_of_head? (head?_fields _))
    · exact (ih h).trans (longestApostrophes_le_cons c cs)

/-- A string between three apostrophes is read back, if no three of its own stand in a row and none
at its end. The induction goes through the parts behind, which keep both conditions. -/
theorem readLiteralLines_plain (hline : cs.all isLine = true)
    (hshort : longestApostrophes cs < 3) (hlast : cs.getLast? ≠ some '\'')
    (hrest : rest.head? ≠ some '\'') :
    readLiteralLines (cs ++ '\'' :: '\'' :: '\'' :: rest) = some (cs, rest) := by
  induction cs with
  | nil => rw [List.nil_append, readLiteralLines.eq_def, closing?_three hrest]
  | cons c cs ih =>
    obtain ⟨hc, hcs⟩ := (List.all_cons ▸ Bool.and_eq_true_iff).mp hline
    have hrow : ((c :: cs).takeWhile (· == '\'')).length < 3 :=
      Nat.lt_of_le_of_lt (length_takeWhile_le_longest List.suffix_rfl) hshort
    have hopen : closing? '\'' (c :: cs ++ '\'' :: '\'' :: '\'' :: rest) = none := by
      -- the last character is no apostrophe, so the row ends inside the string
      obtain ⟨last, hend⟩ : ∃ last, (c :: cs).getLast? = some last :=
        ⟨_, List.getLast?_eq_some_getLast (List.cons_ne_nil c cs)⟩
      have hquote : (last == '\'') = false := by
        rw [beq_eq_false_iff_ne]
        rintro rfl
        exact hlast hend
      refine closing?_none ?_
      rw [(Text.takeWhile_within (List.mem_of_getLast? hend) hquote _).1]
      exact hrow
    have hreturn : c ≠ '\r' := by
      rintro rfl
      exact absurd hc (by decide)
    have hbehind := ih hcs (Nat.lt_of_le_of_lt (longestApostrophes_le_cons c cs) hshort) (by
      intro hback
      cases cs with
      | nil => cases hback
      | cons d cs => exact hlast (by rw [List.getLast?_cons_cons]; exact hback))
    rw [readLiteralLines.eq_def, hopen, List.cons_append]
    simp only
    split
    · next heq => cases heq
    · next heq => exact absurd (List.cons.inj heq).1 hreturn
    · next heq =>
      obtain ⟨rfl, rfl⟩ := List.cons.inj heq
      rw [← isLine.eq_def, if_pos hc, hbehind]
      rfl

/-! ## Any form -/

/-- What follows a string begins with no quote of either form, which would be taken for a part of
its end. -/
structure EndsString (rest : List Char) : Prop where
  quote : rest.head? ≠ some '"'
  apostrophe : rest.head? ≠ some '\''

/-- What the writer knows of a string that it puts between apostrophes. -/
theorem of_prefersLiteral (h : prefersLiteral cs = true) :
    cs ≠ [] ∧ cs.all isLine = true ∧ longestApostrophes cs < 3 ∧ cs.getLast? ≠ some '\'' := by
  simp only [prefersLiteral, Bool.and_eq_true, Bool.or_eq_true, bne_iff_ne, decide_eq_true_eq,
    Bool.not_eq_true', List.any_eq_false, isControl] at h
  obtain ⟨⟨⟨hmark, hcontrol⟩, hshort⟩, hlast⟩ := h
  refine ⟨?_, ?_, hshort, hlast⟩
  · rintro rfl
    simp at hmark
  · rw [List.all_eq_true]
    intro c hc
    have hplain := hcontrol c hc
    by_cases h : isPlain c = true
    · rw [isLine, h, Bool.true_or]
    · simpa [isLine, h] using hplain

theorem dropNewline_line (h : isLine c = true) (hline : c ≠ '\n') (cs : List Char) :
    dropNewline (c :: cs) = c :: cs := by
  have hreturn : c ≠ '\r' := by
    rintro rfl
    exact absurd h (by decide)
  unfold dropNewline newline?
  split
  · next heq => exact absurd (List.cons.inj heq).1 hline
  · next heq => exact absurd (List.cons.inj heq).1 hreturn
  · rfl

theorem readString_basic {body : List Char} (h : ∀ more, body ≠ '"' :: '"' :: more) :
    readString ('"' :: body) = readBasic body := by
  rw [readString]
  intro more heq
  exact h more heq

theorem readString_literal {body : List Char} (h : ∀ more, body ≠ '\'' :: '\'' :: more) :
    readString ('\'' :: body) = readLiteral body := by
  rw [readString]
  intro more heq
  exact h more heq

/-- What stands behind an opening quote does not open a string of several lines. -/
theorem escaped_ne (h : EndsString rest) (cs more : List Char) :
    cs.flatMap (escaped false) ++ '"' :: rest ≠ '"' :: '"' :: more := by
  intro heq
  cases cs with
  | nil =>
    have hrest : rest = '"' :: more := (List.cons.inj heq).2
    exact h.quote (by rw [hrest]; rfl)
  | cons c cs =>
    rw [List.flatMap_cons, List.append_assoc] at heq
    rcases escaped_cases false c with ⟨hself, hbasic | ⟨hlines, -⟩⟩ | ⟨code, hcode, -⟩
    · rw [hself, List.singleton_append] at heq
      exact (isBasic_ne hbasic).2.1 (List.cons.inj heq).1
    · cases hlines
    · rw [hcode, List.cons_append] at heq
      exact absurd (List.cons.inj heq).1 (by decide)

theorem all_isLiteral (hline : cs.all isLine = true) (hbreak : '\n' ∉ cs) (hquote : '\'' ∉ cs) :
    cs.all isLiteral = true := by
  rw [List.all_eq_true] at hline ⊢
  intro c hc
  have hc' := hline c hc
  have hfeed : c ≠ '\n' := ne_of_mem_of_not_mem hc hbreak
  have hmark : c ≠ '\'' := ne_of_mem_of_not_mem hc hquote
  simpa [isLiteral, isLine, hmark, hfeed] using hc'

/-- **A written string is read back**, in whichever form it is written. -/
theorem readString_writeString (cs : List Char) (h : EndsString rest) :
    readString (writeString cs ++ rest) = some (cs, rest) := by
  unfold writeString between
  split
  · next hliteral =>
    obtain ⟨hne, hline, hshort, hlast⟩ := of_prefersLiteral hliteral
    have hlines := readLiteralLines_plain hline hshort hlast h.apostrophe
    split
    · -- the line feed behind the opening apostrophes is not read
      simpa [readString, dropNewline, newline?] using hlines
    · next hsingle =>
      have hbreak : '\n' ∉ cs := fun hin => hsingle (List.contains_iff_mem.mpr hin)
      obtain ⟨c, cs, rfl⟩ := List.exists_cons_of_ne_nil hne
      split
      · -- there is no line feed that could be dropped
        have hfirst : isLine c = true := List.all_eq_true.mp hline c List.mem_cons_self
        have hdrop := dropNewline_line hfirst (ne_of_mem_of_not_mem List.mem_cons_self hbreak)
        simpa [readString, hdrop] using hlines
      · next hplain =>
        have hquote : '\'' ∉ c :: cs := fun hin => hplain (List.contains_iff_mem.mpr hin)
        rw [List.append_assoc, List.append_assoc, List.singleton_append, List.singleton_append,
          readString_literal, readLiteral_plain (all_isLiteral hline hbreak hquote)]
        -- the string is not empty, so no second apostrophe stands behind the first
        intro more heq
        exact ne_of_mem_of_not_mem List.mem_cons_self hquote (List.cons.inj heq).1
  · split
    · have hlines := readBasicLines_escaped h.quote cs
      simpa [readString, dropNewline, newline?] using hlines
    · rw [List.append_assoc, List.append_assoc, List.singleton_append, List.singleton_append,
        readString_basic (escaped_ne h cs), readBasic_escaped]

end ChangeScope.Toml
