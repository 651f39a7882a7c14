import ChangeScope.Proofs.Call.Octets
import ChangeScope.Proofs.Call.Region

/-!
# Walks over bytes

The qualifier in front of a name is read back byte by byte, and the end of the arguments is looked
for byte by byte from the opening parenthesis on. Both walks stop between two characters, where the
walks over characters do (`chainBytes?_back`, `fileBytes_back`, `closingBytes_utf8`).
-/

set_option autoImplicit false

namespace ChangeScope.Call

open ChangeScope.Text

/-! ## Backwards -/

/-- The bytes of a reversed text, in reverse. -/
def utf8Back (before : List Char) : List UInt8 :=
  before.flatMap fun c => (String.utf8EncodeChar c).reverse

theorem utf8Back_reverse (cs : List Char) : utf8Back cs.reverse = (utf8 cs).reverse := by
  induction cs with
  | nil => rfl
  | cons c cs ih =>
      rw [utf8_cons, List.reverse_append, List.reverse_cons, ← ih]
      simp [utf8Back]

@[simp] theorem utf8Back_append (a b : List Char) : utf8Back (a ++ b) = utf8Back a ++ utf8Back b :=
  List.flatMap_append

theorem utf8Back_cons_ascii {c : Char} (hc : isAscii c = true) (before : List Char) :
    utf8Back (c :: before) = byte c :: utf8Back before := by
  show (String.utf8EncodeChar c).reverse ++ utf8Back before = _
  rw [utf8EncodeChar_ascii hc]
  rfl

theorem SameKind.back {p : Char → Bool} {q : UInt8 → Bool} (h : SameKind p q)
    (before : List Char) : (utf8Back before).takeWhile q = utf8Back (before.takeWhile p) ∧
      (utf8Back before).dropWhile q = utf8Back (before.dropWhile p) := by
  refine stretch_flatMap (fun c => ?_) (fun c b hb => h c b (List.mem_reverse.mp hb)) before
  rw [ne_eq, List.reverse_eq_nil_iff]
  exact utf8EncodeChar_ne_nil c

/-- A character that goes on no word is one byte. -/
theorem isAscii_of_not_wordPart {c : Char} (h : isWordPart c = false) : isAscii c = true := by
  by_contra hc
  rw [Bool.not_eq_true] at hc
  rw [isWordPart, isWordStart_wide hc, Bool.true_or] at h
  exact absurd h (by decide)

/-! ## Chains of names -/

/-- A byte that no chain hangs on. -/
def isChainEnd (b : UInt8) : Bool :=
  b == byte ')' || b == byte ']' || b == byte '"' || b == byte '\''

/-- The bytes of the chain of names before a dot, in reverse. -/
def chainBytes? (before : List UInt8) : Option (List UInt8) :=
  let word := before.takeWhile isWordByte
  if word.getLast?.all isDigitByte then none
  else
    match _h : before.dropWhile isWordByte with
    | [] => some word
    | b :: rest =>
        if b = byte '.' then (chainBytes? rest).map fun chain => word ++ b :: chain
        else if isChainEnd b then none
        else some word
  termination_by before.length
  decreasing_by
    have := (List.dropWhile_suffix isWordByte (l := before)).length_le
    rw [_h] at this
    simp only [List.length_cons] at this
    omega

theorem chainBytes?_eq (before : List UInt8) : chainBytes? before =
    if (before.takeWhile isWordByte).getLast?.all isDigitByte then none
    else
      match before.dropWhile isWordByte with
      | [] => some (before.takeWhile isWordByte)
      | b :: rest =>
          if b = byte '.' then
            (chainBytes? rest).map fun chain => before.takeWhile isWordByte ++ b :: chain
          else if isChainEnd b then none
          else some (before.takeWhile isWordByte) := by
  rw [chainBytes?]
  split
  · rfl
  · split
    · next heq => rw [heq]
    · next heq => rw [heq]

/-- The first byte of a word tells whether it begins with a digit. -/
theorem isDigitByte_first (word : List Char) :
    (utf8Back word).getLast?.all isDigitByte = word.getLast?.all isAsciiDigit := by
  rcases List.eq_nil_or_concat' word with rfl | ⟨more, c, rfl⟩
  · rfl
  · rw [List.getLast?_concat, Option.all_some]
    by_cases hc : isAscii c = true
    · rw [utf8Back_append, utf8Back_cons_ascii hc, ← isDigitByte_byte hc]
      show (utf8Back more ++ [byte c]).getLast?.all isDigitByte = _
      rw [List.getLast?_concat, Option.all_some]
    · rw [Bool.not_eq_true] at hc
      obtain ⟨b, rest, hbytes⟩ := List.exists_cons_of_ne_nil (utf8EncodeChar_ne_nil c)
      have hb : 128 ≤ b.toNat := wide_of_mem hc b (by rw [hbytes]; exact List.mem_cons_self)
      have hlast : (utf8Back (more ++ [c])).getLast? = some b := by
        rw [utf8Back_append, show utf8Back [c] = rest.reverse ++ [b] by simp [utf8Back, hbytes],
          ← List.append_assoc, List.getLast?_concat]
      rw [hlast, Option.all_some, isDigitByte_wide hb, (starts_word (isWordStart_wide hc)).2.2]

theorem isChainEnd_byte {c : Char} (hc : isAscii c = true) :
    isChainEnd (byte c) = (c == ')' || c == ']' || c == '"' || c == '\'') :=
  forall_ascii (p := fun c => isChainEnd (byte c) = (c == ')' || c == ']' || c == '"' || c == '\''))
    (by decide) hc

/-- The walk over characters, step by step like the one over bytes. -/
theorem chainBefore?_step (before : List Char) : chainBefore? before =
    if (before.takeWhile isWordPart).getLast?.all isAsciiDigit then none
    else
      match before.dropWhile isWordPart with
      | [] => some (before.takeWhile isWordPart)
      | c :: rest =>
          if c = '.' then
            (chainBefore? rest).map fun chain => before.takeWhile isWordPart ++ c :: chain
          else if c == ')' || c == ']' || c == '"' || c == '\'' then none
          else some (before.takeWhile isWordPart) := by
  rw [chainBefore?_eq]
  cases (before.takeWhile isWordPart).getLast? with
  | none => rfl
  | some first =>
      rw [Option.all_some]
      dsimp only
      split
      · rfl
      · cases before.dropWhile isWordPart with
        | nil => rfl
        | cons c rest =>
            by_cases hdot : c = '.'
            · subst hdot
              rfl
            · simp [hdot]

/-- **A chain of names is read back from its bytes.** -/
theorem chainBytes?_back (before : List Char) :
    chainBytes? (utf8Back before) = (chainBefore? before).map utf8Back := by
  induction hn : before.length using Nat.strong_induction_on generalizing before with
  | _ n ih =>
      obtain ⟨htake, hdrop⟩ := sameKind_word.back before
      rw [chainBytes?_eq, chainBefore?_step, htake, hdrop, isDigitByte_first]
      split
      · rfl
      · cases hrest : before.dropWhile isWordPart with
        | nil => rfl
        | cons c rest =>
            have hc : isAscii c = true :=
              isAscii_of_not_wordPart (@isWordPart_head_dropWhile before c (by rw [hrest]; rfl))
            have hlength := (List.dropWhile_suffix isWordPart (l := before)).length_le
            rw [hrest, List.length_cons] at hlength
            rw [utf8Back_cons_ascii hc]
            dsimp only
            simp only [byte_inj hc (show isAscii '.' = true from rfl), isChainEnd_byte hc]
            split
            · -- the chain goes on before the dot
              rw [ih rest.length (by omega) rest rfl, Option.map_map, Option.map_map]
              congr 1
              funext chain
              simp only [Function.comp_apply, utf8Back_append, utf8Back_cons_ascii hc]
            · split <;> rfl

/-! ## Files -/

/-- The byte of a character that ends a file. -/
def isFileBoundaryByte (b : UInt8) : Bool :=
  b == byte ' ' || b == byte '\t' || b == byte '\n' || b == byte '\x0c' || b == byte '\r' ||
    ("()[]\x7b\x7d,;=+*%<>!&|^~@\"'".toList.map byte).contains b

theorem isFileBoundary_wide {c : Char} (hc : isAscii c = false) : isFileBoundary c = false := by
  by_contra hboundary
  rw [Bool.not_eq_false] at hboundary
  have hpart := isNumberPart_of_boundary hboundary
  rw [isNumberPart, isWordPart, isWordStart_wide hc, Bool.true_or, Bool.true_or] at hpart
  exact absurd hpart (by decide)

theorem isFileBoundaryByte_wide {b : UInt8} (hb : 128 ≤ b.toNat) :
    isFileBoundaryByte b = false := by
  by_contra hboundary
  rw [Bool.not_eq_false] at hboundary
  have hall : ∀ c, isAscii c = true → b ≠ byte c := fun c hc => wide_ne_byte hb hc
  simp only [isFileBoundaryByte, Bool.or_eq_true, beq_iff_eq, List.contains_iff_mem,
    List.mem_map] at hboundary
  rcases hboundary with ((((h | h) | h) | h) | h) | ⟨c, hc, heq⟩
  · exact hall ' ' rfl h
  · exact hall '\t' rfl h
  · exact hall '\n' rfl h
  · exact hall '\x0c' rfl h
  · exact hall '\r' rfl h
  · have hascii : isAscii c = true := by
      by_contra hwide
      rw [Bool.not_eq_true] at hwide
      have hnone := isFileBoundary_wide hwide
      rw [isFileBoundary, List.contains_iff_mem.mpr hc, Bool.or_true] at hnone
      exact absurd hnone (by decide)
    exact hall c hascii heq.symm

theorem sameKind_file : SameKind (fun c => !isFileBoundary c) (fun b => !isFileBoundaryByte b) := by
  refine sameKind_of_ascii (fun c hc => ?_) (fun c hc => ?_) fun b hb => ?_
  · exact forall_ascii
      (p := fun c => (!isFileBoundaryByte (byte c)) = !isFileBoundary c) (by decide +kernel) hc
  · rw [isFileBoundary_wide hc]
    rfl
  · rw [isFileBoundaryByte_wide hb]
    rfl

/-- The bytes of the file before `::`, in reverse. -/
def fileBytes (before : List UInt8) : List UInt8 := before.takeWhile fun b => !isFileBoundaryByte b

theorem fileBytes_back (before : List Char) :
    fileBytes (utf8Back before) = utf8Back (before.takeWhile fun c => !isFileBoundary c) :=
  (sameKind_file.back before).1

/-! ## Arguments -/

/-- The byte of an opening bracket. -/
def isOpener (b : UInt8) : Bool := b == byte '(' || b == byte '[' || b == byte '\x7b'

/-- The byte of a closing bracket. -/
def isCloser (b : UInt8) : Bool := b == byte ')' || b == byte ']' || b == byte '\x7d'

/-- The bytes from the bracket on that closes the `depth` open ones; none where there is no such
bracket. -/
def closingBytes (depth : Nat) : List UInt8 → List UInt8
  | [] => []
  | b :: rest =>
      if b = byte '#' then closingBytes depth (rest.dropWhile (· != byte '\n'))
      else if b = byte '"' ∨ b = byte '\'' then closingBytes depth (behindLiteral b rest)
      else if isOpener b then closingBytes (depth + 1) rest
      else if isCloser b then if depth ≤ 1 then b :: rest else closingBytes (depth - 1) rest
      else closingBytes depth rest
  termination_by bs => bs.length
  decreasing_by
    · have := (List.dropWhile_suffix (· != byte '\n') (l := rest)).length_le
      simp only [List.length_cons]
      omega
    · have := length_behindLiteral_le b rest
      simp only [List.length_cons]
      omega
    all_goals simp

/-- The bytes of words and numbers are passed over. -/
theorem closingBytes_plain (depth : Nat) {bs : List UInt8} (h : ∀ b ∈ bs, isNumberByte b = true)
    (rest : List UInt8) : closingBytes depth (bs ++ rest) = closingBytes depth rest := by
  induction bs with
  | nil => rfl
  | cons b bs ih =>
      have hb := h b List.mem_cons_self
      have hne : ∀ c, isNumberByte (byte c) = false → b ≠ byte c := by
        rintro c hc rfl
        rw [hb] at hc
        exact absurd hc (by decide)
      have hopener : isOpener b = false := by
        simp [isOpener, hne '(' rfl, hne '[' rfl, hne '\x7b' rfl]
      have hcloser : isCloser b = false := by
        simp [isCloser, hne ')' rfl, hne ']' rfl, hne '\x7d' rfl]
      rw [List.cons_append, closingBytes, if_neg (hne '#' rfl),
        if_neg (not_or.mpr ⟨hne '"' rfl, hne '\'' rfl⟩), if_neg (by simp [hopener]),
        if_neg (by simp [hcloser]), ih fun d hd => h d (List.mem_cons_of_mem b hd)]

theorem isOpener_byte {c : Char} (hc : isAscii c = true) : isOpener (byte c) = opens c :=
  forall_ascii (p := fun c => isOpener (byte c) = opens c) (by decide) hc

theorem isCloser_byte {c : Char} (hc : isAscii c = true) : isCloser (byte c) = closes c :=
  forall_ascii (p := fun c => isCloser (byte c) = closes c) (by decide) hc

/-- The bytes of a lexeme that is no mark are passed over. -/
theorem Lexeme.Stands.closingBytes_eq {l : Lexeme} {after : List Char} (h : l.Stands after)
    (hl : ∀ c, l ≠ .mark c) (depth : Nat) :
    closingBytes depth (utf8 (l.text ++ after)) = closingBytes depth (utf8 after) := by
  have hplain : ∀ {t : List Char}, (∀ c ∈ t, isNumberPart c = true) →
      ∀ b ∈ utf8 t, isNumberByte b = true := by
    intro t ht b hb
    obtain ⟨c, hc, hb⟩ := List.mem_flatMap.mp hb
    rw [sameKind_number c b hb]
    exact ht c hc
  obtain ⟨hshape, hfits⟩ := h.shaped_fits
  cases l with
  | comment t =>
      obtain ⟨more, rfl, hmore⟩ := hshape
      obtain ⟨-, hdrop⟩ := stretch_iff.mpr ⟨hmore, hfits⟩
      show closingBytes depth (utf8 ('#' :: (more ++ after))) = _
      rw [utf8_cons, utf8EncodeChar_ascii rfl, List.cons_append, List.nil_append, closingBytes,
        if_pos rfl, sameKind_line.dropWhile, hdrop]
  | literal t =>
      obtain ⟨quote, more, rfl, hquote, htake⟩ := hshape.literal hfits
      have hascii : isAscii quote = true := by
        rcases isQuote_iff.mp hquote with rfl | rfl <;> rfl
      have hhash : byte quote ≠ byte '#' := by
        rcases isQuote_iff.mp hquote with rfl | rfl <;> decide
      have hbyte : byte quote = byte '"' ∨ byte quote = byte '\'' := by
        rcases isQuote_iff.mp hquote with rfl | rfl
        · exact Or.inl rfl
        · exact Or.inr rfl
      show closingBytes depth (utf8 (quote :: (more ++ after))) = _
      rw [utf8_cons, utf8EncodeChar_ascii hascii, List.cons_append, List.nil_append, closingBytes,
        if_neg hhash, if_pos hbyte, behindLiteral_utf8 hascii, htake]
  | number t =>
      rw [utf8_append]
      exact closingBytes_plain depth (hplain hshape.number) _
  | word t =>
      rw [utf8_append]
      exact closingBytes_plain depth (hplain hshape.word) _
  | mark c => exact absurd rfl (hl c)

/-- A mark is one byte, and the bytes go on at the depth behind it unless it ends the arguments. -/
theorem closingBytes_mark {c : Char} {after : List Char} (h : (Lexeme.mark c).Stands after)
    (depth : Nat) :
    closingBytes depth (utf8 (c :: after)) =
      if opens c then closingBytes (depth + 1) (utf8 after)
      else if closes c then
        if depth ≤ 1 then utf8 (c :: after) else closingBytes (depth - 1) (utf8 after)
      else closingBytes depth (utf8 after) := by
  obtain ⟨⟨hhash, hquote, -, hword⟩, -⟩ := h.shaped_fits
  -- a character beyond ASCII would begin a word
  have hc : isAscii c = true := by
    by_contra hwide
    rw [Bool.not_eq_true] at hwide
    rw [isWordStart_wide hwide] at hword
    exact absurd hword (by decide)
  have hhash' : byte c ≠ byte '#' := by rwa [ne_eq, byte_inj hc rfl]
  have hquote' : ¬ (byte c = byte '"' ∨ byte c = byte '\'') := by
    rw [byte_inj hc rfl, byte_inj hc rfl, ← isQuote_iff, hquote]
    decide
  rw [utf8_cons, utf8EncodeChar_ascii hc, List.cons_append, List.nil_append, closingBytes,
    if_neg hhash', if_neg hquote', isOpener_byte hc, isCloser_byte hc]

/-- **The end of the arguments is found among the bytes.** -/
theorem closingBytes_utf8 {ls : List Lexeme} (h : Standing ls []) (depth : Nat) :
    ∃ after, textOf ls = argsText depth ls ++ after ∧
      closingBytes depth (utf8 (textOf ls)) = utf8 after := by
  induction ls generalizing depth with
  | nil => exact ⟨[], rfl, by rw [textOf_nil, utf8_nil, closingBytes]⟩
  | cons l ls ih =>
      obtain ⟨hl, hls⟩ := h
      have ih := ih hls
      rw [List.append_nil] at hl
      by_cases hmark : ∃ c, l = .mark c
      · obtain ⟨c, rfl⟩ := hmark
        have hcons : textOf (.mark c :: ls) = c :: textOf ls := rfl
        rw [hcons, closingBytes_mark hl, argsText]
        -- one byte further, at another depth
        have hstep : ∀ next, ∃ after, c :: textOf ls = c :: argsText next ls ++ after ∧
            closingBytes next (utf8 (textOf ls)) = utf8 after := by
          intro next
          obtain ⟨after, htext, hclosing⟩ := ih next
          exact ⟨after, congrArg (c :: ·) htext, hclosing⟩
        by_cases hopens : opens c = true
        · rw [if_pos hopens, if_pos hopens]
          exact hstep (depth + 1)
        · rw [if_neg hopens, if_neg hopens]
          by_cases hcloses : closes c = true
          · rw [if_pos hcloses, if_pos hcloses]
            by_cases hlast : depth ≤ 1
            · -- the arguments end in front of this bracket
              rw [if_pos hlast, if_pos hlast]
              exact ⟨c :: textOf ls, rfl, rfl⟩
            · rw [if_neg hlast, if_neg hlast]
              exact hstep (depth - 1)
          · rw [if_neg hcloses, if_neg hcloses]
            exact hstep depth
      · have hmark : ∀ c, l ≠ .mark c := fun c hc => hmark ⟨c, hc⟩
        obtain ⟨after, htext, hclosing⟩ := ih depth
        refine ⟨after, ?_, ?_⟩
        · rw [argsText_other depth hmark, textOf_cons, List.append_assoc, ← htext]
        · rw [textOf_cons, hl.closingBytes_eq hmark, hclosing]

end ChangeScope.Call
