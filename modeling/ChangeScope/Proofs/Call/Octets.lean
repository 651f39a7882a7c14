import ChangeScope.Proofs.Call.Lexing

/-!
# Lexemes byte by byte

A body is cut into tokens by its bytes alone: a backslash in a literal takes the next byte along,
which may be the first one of a longer character. All bytes of such a character are beyond ASCII,
and none of them ends a token, so the tokens are the UTF-8 forms of the lexemes (`tokens_utf8`), and
each begins and ends with a character.
-/

set_option autoImplicit false

namespace ChangeScope.Call

open ChangeScope.Text

/-! ## Bytes -/

/-- The UTF-8 form of a text. -/
def utf8 (cs : List Char) : List UInt8 := cs.flatMap String.utf8EncodeChar

/-- The byte of a character of ASCII. -/
def byte (c : Char) : UInt8 := c.toNat.toUInt8

@[simp] theorem utf8_nil : utf8 [] = [] := rfl

@[simp] theorem utf8_cons (c : Char) (cs : List Char) :
    utf8 (c :: cs) = String.utf8EncodeChar c ++ utf8 cs := rfl

@[simp] theorem utf8_append (a b : List Char) : utf8 (a ++ b) = utf8 a ++ utf8 b :=
  List.flatMap_append

theorem utf8EncodeChar_ascii {c : Char} (h : isAscii c = true) :
    String.utf8EncodeChar c = [byte c] := by
  have hc : c.toNat < 128 := by simpa [isAscii] using h
  have hval : c.val.toNat = c.toNat := rfl
  unfold String.utf8EncodeChar
  simp only [hval]
  rw [if_pos (by omega)]
  rfl

/-- The bytes of a character beyond ASCII are beyond ASCII. -/
theorem wide_of_mem {c : Char} (h : isAscii c = false) :
    ∀ b ∈ String.utf8EncodeChar c, 128 ≤ b.toNat := by
  have hnat : 128 ≤ c.toNat := by simpa [isAscii] using h
  have hc : 128 ≤ c.val.toNat := hnat
  intro b hb
  unfold String.utf8EncodeChar at hb
  simp only at hb
  split at hb
  · omega
  · split at hb
    · simp only [List.mem_cons, List.not_mem_nil, or_false] at hb
      rcases hb with rfl | rfl <;> (rw [UInt8.toNat_ofNat']; omega)
    · split at hb
      · simp only [List.mem_cons, List.not_mem_nil, or_false] at hb
        rcases hb with rfl | rfl | rfl <;> (rw [UInt8.toNat_ofNat']; omega)
      · simp only [List.mem_cons, List.not_mem_nil, or_false] at hb
        rcases hb with rfl | rfl | rfl | rfl <;> (rw [UInt8.toNat_ofNat']; omega)

theorem utf8EncodeChar_ne_nil (c : Char) : String.utf8EncodeChar c ≠ [] := by
  have hpos := Char.utf8Size_pos c
  rw [← String.length_utf8EncodeChar] at hpos
  exact List.length_pos_iff.mp hpos

theorem byte_toNat {c : Char} (h : isAscii c = true) : (byte c).toNat = c.toNat := by
  have hc : c.toNat < 128 := by simpa [isAscii] using h
  rw [byte, Nat.toUInt8, UInt8.toNat_ofNat']
  omega

theorem byte_inj {c d : Char} (hc : isAscii c = true) (hd : isAscii d = true) :
    byte c = byte d ↔ c = d := by
  constructor
  · intro h
    have hnat := congrArg UInt8.toNat h
    rw [byte_toNat hc, byte_toNat hd] at hnat
    exact Char.toNat_inj.mp hnat
  · rintro rfl
    rfl

/-! ## Tokens -/

/-- The byte of a digit. -/
def isDigitByte (b : UInt8) : Bool := byte '0' ≤ b && b ≤ byte '9'

/-- A byte that may begin a word: a letter, the underscore, or any byte beyond ASCII. -/
def isWordStartByte (b : UInt8) : Bool :=
  b == byte '_' || (byte 'a' ≤ b && b ≤ byte 'z') || (byte 'A' ≤ b && b ≤ byte 'Z') || 0x80 ≤ b

/-- A byte that may continue a word. -/
def isWordByte (b : UInt8) : Bool := isWordStartByte b || isDigitByte b

/-- A byte that may continue a number. -/
def isNumberByte (b : UInt8) : Bool := isWordByte b || b == byte '.'

/-- The bytes behind a literal, from behind its opening quote: up to the quote, or the end of the
line. A backslash takes the next byte along. -/
def behindLine (quote : UInt8) : List UInt8 → List UInt8
  | [] => []
  | b :: rest =>
      if b = byte '\\' then behindLine quote (rest.drop 1)
      else if b = quote then rest
      else if b = byte '\n' then b :: rest
      else behindLine quote rest
  termination_by bs => bs.length

/-- The bytes behind a literal, from behind its three opening quotes: up to three quotes. -/
def behindBlock (quote : UInt8) : List UInt8 → List UInt8
  | [] => []
  | b :: rest =>
      if b = byte '\\' then behindBlock quote (rest.drop 1)
      else if [quote, quote, quote] <+: b :: rest then rest.drop 2
      else behindBlock quote rest
  termination_by bs => bs.length

/-- The bytes behind a literal, from behind its first quote. -/
def behindLiteral (quote : UInt8) (rest : List UInt8) : List UInt8 :=
  if [quote, quote] <+: rest then behindBlock quote (rest.drop 2) else behindLine quote rest

/-- The bytes behind the token that begins with a byte. -/
def behindToken (b : UInt8) (rest : List UInt8) : List UInt8 :=
  if b = byte '#' then rest.dropWhile (· != byte '\n')
  else if b = byte '"' ∨ b = byte '\'' then behindLiteral b rest
  else if isDigitByte b then rest.dropWhile isNumberByte
  else if isWordStartByte b then rest.dropWhile isWordByte
  else rest

/-! ## Stretches -/

/-- A fact about each character of ASCII. -/
theorem forall_ascii {p : Char → Prop} (h : ∀ n < 128, p (Char.ofNat n)) {c : Char}
    (hc : isAscii c = true) : p c := by
  have hlt : c.toNat < 128 := by simpa [isAscii] using hc
  rw [← Char.ofNat_toNat c]
  exact h _ hlt

theorem isDigitByte_byte {c : Char} (hc : isAscii c = true) :
    isDigitByte (byte c) = isAsciiDigit c :=
  forall_ascii (p := fun c => isDigitByte (byte c) = isAsciiDigit c) (by decide) hc

theorem isWordStartByte_byte {c : Char} (hc : isAscii c = true) :
    isWordStartByte (byte c) = isWordStart c :=
  forall_ascii (p := fun c => isWordStartByte (byte c) = isWordStart c) (by decide) hc

theorem isWordStart_wide {c : Char} (hc : isAscii c = false) : isWordStart c = true := by
  simp [isWordStart, hc]

theorem isWordStartByte_wide {b : UInt8} (hb : 128 ≤ b.toNat) : isWordStartByte b = true := by
  have hle : (0x80 : UInt8) ≤ b := UInt8.le_iff_toNat_le.mpr hb
  simp [isWordStartByte, hle]

theorem isDigitByte_wide {b : UInt8} (hb : 128 ≤ b.toNat) : isDigitByte b = false := by
  rw [isDigitByte, Bool.and_eq_false_iff, decide_eq_false_iff_not, decide_eq_false_iff_not,
    UInt8.le_iff_toNat_le, UInt8.le_iff_toNat_le]
  have hnine : (byte '9').toNat = 57 := rfl
  omega

/-- A byte beyond ASCII is the byte of no character of ASCII. -/
theorem wide_ne_byte {b : UInt8} (hb : 128 ≤ b.toNat) {c : Char} (hc : isAscii c = true) :
    b ≠ byte c := by
  rintro rfl
  have hlt : c.toNat < 128 := by simpa [isAscii] using hc
  rw [byte_toNat hc] at hb
  omega

/-- All bytes of a character are of the kind that the character is of. -/
def SameKind (p : Char → Bool) (q : UInt8 → Bool) : Prop :=
  ∀ c, ∀ b ∈ String.utf8EncodeChar c, q b = p c

theorem sameKind_of_ascii {p : Char → Bool} {q : UInt8 → Bool}
    (hascii : ∀ c, isAscii c = true → q (byte c) = p c)
    (hwide : ∀ c, isAscii c = false → p c = true) (hbyte : ∀ b, 128 ≤ b.toNat → q b = true) :
    SameKind p q := by
  intro c b hb
  by_cases hc : isAscii c = true
  · rw [utf8EncodeChar_ascii hc, List.mem_singleton] at hb
    rw [hb, hascii c hc]
  · rw [Bool.not_eq_true] at hc
    rw [hwide c hc, hbyte b (wide_of_mem hc b hb)]

theorem sameKind_word : SameKind isWordPart isWordByte := by
  refine sameKind_of_ascii (fun c hc => ?_) (fun c hc => ?_) fun b hb => ?_
  · rw [isWordByte, isWordPart, isWordStartByte_byte hc, isDigitByte_byte hc]
  · rw [isWordPart, isWordStart_wide hc, Bool.true_or]
  · rw [isWordByte, isWordStartByte_wide hb, Bool.true_or]

theorem sameKind_number : SameKind isNumberPart isNumberByte := by
  intro c b hb
  rw [isNumberByte, isNumberPart, sameKind_word c b hb]
  -- only the dot is left, which goes on with a number but with no word
  by_cases hc : isAscii c = true
  · rw [utf8EncodeChar_ascii hc, List.mem_singleton] at hb
    have hdot := byte_inj hc (show isAscii '.' = true from rfl)
    rw [hb, Bool.eq_iff_iff]
    simp only [Bool.or_eq_true, beq_iff_eq, hdot]
  · rw [Bool.not_eq_true] at hc
    simp [isWordPart, isWordStart_wide hc]

theorem sameKind_line : SameKind (· != '\n') (· != byte '\n') := by
  refine sameKind_of_ascii (fun c hc => ?_) (fun c hc => ?_) fun b hb => ?_
  · rw [Bool.eq_iff_iff, bne_iff_ne, bne_iff_ne, ne_eq, ne_eq, byte_inj hc rfl]
  · rw [bne_iff_ne]
    rintro rfl
    exact absurd hc (by decide)
  · exact bne_iff_ne.mpr (wide_ne_byte hb rfl)

/-- A stretch of characters of a kind is a stretch of bytes of the kind, in whichever order the
bytes of a character come. -/
theorem stretch_flatMap {p : Char → Bool} {q : UInt8 → Bool} {bytes : Char → List UInt8}
    (hne : ∀ c, bytes c ≠ []) (h : ∀ c, ∀ b ∈ bytes c, q b = p c) (cs : List Char) :
    (cs.flatMap bytes).takeWhile q = (cs.takeWhile p).flatMap bytes ∧
      (cs.flatMap bytes).dropWhile q = (cs.dropWhile p).flatMap bytes := by
  have hsplit : cs.flatMap bytes =
      (cs.takeWhile p).flatMap bytes ++ (cs.dropWhile p).flatMap bytes := by
    rw [← List.flatMap_append, List.takeWhile_append_dropWhile]
  rw [hsplit]
  refine takeWhile_stretch (fun b hb => ?_) fun b hb => ?_
  · obtain ⟨c, hc, hb⟩ := List.mem_flatMap.mp hb
    rw [h c b hb]
    exact List.mem_takeWhile_imp hc
  · -- the first byte is one of the character that ends the stretch
    have hhead := List.head?_dropWhile_not p cs
    cases hdrop : cs.dropWhile p with
    | nil =>
        rw [hdrop] at hb
        exact absurd hb (by simp)
    | cons c rest =>
        rw [hdrop] at hb hhead
        rw [List.flatMap_cons, List.head?_append_of_ne_nil _ (hne c)] at hb
        rw [h c b (List.mem_of_mem_head? hb)]
        simpa using hhead

theorem SameKind.dropWhile {p : Char → Bool} {q : UInt8 → Bool} (h : SameKind p q)
    (cs : List Char) : (utf8 cs).dropWhile q = utf8 (cs.dropWhile p) :=
  (stretch_flatMap utf8EncodeChar_ne_nil h cs).2

/-! ## Literals -/

/-- Bytes beyond ASCII are passed over in a literal. -/
theorem behindLine_wide {quote : Char} (hquote : isAscii quote = true) {bs : List UInt8}
    (hbs : ∀ b ∈ bs, 128 ≤ b.toNat) (rest : List UInt8) :
    behindLine (byte quote) (bs ++ rest) = behindLine (byte quote) rest := by
  induction bs with
  | nil => rfl
  | cons b bs ih =>
      have hb := hbs b List.mem_cons_self
      rw [List.cons_append, behindLine, if_neg (wide_ne_byte hb rfl),
        if_neg (wide_ne_byte hb hquote), if_neg (wide_ne_byte hb rfl),
        ih fun d hd => hbs d (List.mem_cons_of_mem b hd)]

theorem behindBlock_wide {quote : Char} (hquote : isAscii quote = true) {bs : List UInt8}
    (hbs : ∀ b ∈ bs, 128 ≤ b.toNat) (rest : List UInt8) :
    behindBlock (byte quote) (bs ++ rest) = behindBlock (byte quote) rest := by
  induction bs with
  | nil => rfl
  | cons b bs ih =>
      have hb := hbs b List.mem_cons_self
      have hstarts : ¬ [byte quote, byte quote, byte quote] <+: b :: (bs ++ rest) := by
        rw [List.cons_prefix_cons]
        exact fun h => wide_ne_byte hb hquote h.1.symm
      rw [List.cons_append, behindBlock, if_neg (wide_ne_byte hb rfl), if_neg hstarts,
        ih fun d hd => hbs d (List.mem_cons_of_mem b hd)]

/-- Behind a backslash one byte is passed over with the character that it begins. -/
theorem behind_escaped {behind : List UInt8 → List UInt8}
    (hwide : ∀ {bs : List UInt8}, (∀ b ∈ bs, 128 ≤ b.toNat) →
      ∀ rest, behind (bs ++ rest) = behind rest)
    (c : Char) (rest : List UInt8) :
    behind ((String.utf8EncodeChar c ++ rest).drop 1) = behind rest := by
  by_cases hc : isAscii c = true
  · rw [utf8EncodeChar_ascii hc]
    rfl
  · rw [Bool.not_eq_true] at hc
    rw [List.drop_append_of_le_length (List.length_pos_iff.mpr (utf8EncodeChar_ne_nil c))]
    exact hwide (fun b hb => wide_of_mem hc b (List.mem_of_mem_drop hb)) rest

/-- A literal on one line ends behind the same character. -/
theorem behindLine_utf8 {quote : Char} (hquote : isAscii quote = true) (cs : List Char) :
    behindLine (byte quote) (utf8 cs) = utf8 (takeLine quote cs).2 := by
  fun_induction takeLine quote cs with
  | case1 => rw [utf8_nil, behindLine]
  | case2 =>
      rw [utf8_cons, utf8EncodeChar_ascii rfl, List.cons_append, behindLine, if_pos rfl]
      rw [utf8_nil, List.nil_append, List.drop_nil, behindLine]
  | case3 c rest inner after hinner ih =>
      -- one byte of the character goes with the backslash, the others are passed over
      rw [hinner] at ih
      rw [utf8_cons, utf8EncodeChar_ascii rfl, List.cons_append, List.nil_append, behindLine,
        if_pos rfl, utf8_cons, behind_escaped (behindLine_wide hquote), ih]
  | case4 rest hesc hesc' =>
      have hslash : byte quote ≠ byte '\\' := by
        rw [ne_eq, byte_inj hquote rfl]
        exact ne_backslash hesc hesc'
      rw [utf8_cons, utf8EncodeChar_ascii hquote, List.cons_append, behindLine, if_neg hslash,
        if_pos rfl]
      rfl
  | case5 rest hesc hesc' hne =>
      have hquote' : byte '\n' ≠ byte quote := by
        rw [ne_eq, byte_inj rfl hquote]
        exact hne
      rw [utf8_cons, utf8EncodeChar_ascii rfl, List.cons_append, behindLine, if_neg (by decide),
        if_neg hquote', if_pos rfl]
  | case6 c rest hesc hesc' hne hline inner after hinner ih =>
      rw [hinner] at ih
      rw [utf8_cons]
      by_cases hc : isAscii c = true
      · have hslash : byte c ≠ byte '\\' := by
          rw [ne_eq, byte_inj hc rfl]
          exact ne_backslash hesc hesc'
        have hquote' : byte c ≠ byte quote := by rwa [ne_eq, byte_inj hc hquote]
        have hline' : byte c ≠ byte '\n' := by rwa [ne_eq, byte_inj hc rfl]
        rw [utf8EncodeChar_ascii hc, List.cons_append, behindLine, if_neg hslash, if_neg hquote',
          if_neg hline']
        exact ih
      · -- no byte of the character is a quote, a backslash or a line feed
        rw [Bool.not_eq_true] at hc
        rw [behindLine_wide hquote (wide_of_mem hc), ih]

/-- Quotes begin a text where their bytes begin its UTF-8 form. -/
theorem replicate_prefix_utf8 {quote : Char} (hquote : isAscii quote = true) (n : Nat)
    (cs : List Char) :
    List.replicate n (byte quote) <+: utf8 cs ↔ List.replicate n quote <+: cs := by
  induction n generalizing cs with
  | zero => simp
  | succ n ih =>
      cases cs with
      | nil => simp
      | cons c cs =>
          rw [List.replicate_succ, List.replicate_succ, List.cons_prefix_cons, utf8_cons, ← ih]
          by_cases hc : isAscii c = true
          · rw [utf8EncodeChar_ascii hc, List.cons_append, List.cons_prefix_cons,
              byte_inj hquote hc, List.nil_append]
          · rw [Bool.not_eq_true] at hc
            obtain ⟨b, more, hbytes⟩ := List.exists_cons_of_ne_nil (utf8EncodeChar_ne_nil c)
            have hb : 128 ≤ b.toNat := wide_of_mem hc b (by rw [hbytes]; exact List.mem_cons_self)
            rw [hbytes, List.cons_append, List.cons_prefix_cons]
            constructor
            · exact fun h => absurd h.1.symm (wide_ne_byte hb hquote)
            · rintro ⟨rfl, -⟩
              rw [hquote] at hc
              exact absurd hc (by decide)

/-- A literal with three quotes ends behind the same character. -/
theorem behindBlock_utf8 {quote : Char} (hquote : isAscii quote = true) (cs : List Char) :
    behindBlock (byte quote) (utf8 cs) = utf8 (takeBlock quote cs).2 := by
  fun_induction takeBlock quote cs with
  | case1 => rw [utf8_nil, behindBlock]
  | case2 =>
      rw [utf8_cons, utf8EncodeChar_ascii rfl, List.cons_append, behindBlock, if_pos rfl]
      rw [utf8_nil, List.nil_append, List.drop_nil, behindBlock]
  | case3 c rest inner after hinner ih =>
      rw [hinner] at ih
      rw [utf8_cons, utf8EncodeChar_ascii rfl, List.cons_append, List.nil_append, behindBlock,
        if_pos rfl, utf8_cons, behind_escaped (behindBlock_wide hquote), ih]
  | case4 c rest hesc hesc' after hsome =>
      rw [isPrefixOf?_eq_some_iff] at hsome
      obtain ⟨rfl, rfl⟩ := List.cons.inj hsome
      have hslash : byte c ≠ byte '\\' := by
        rw [ne_eq, byte_inj hquote rfl]
        exact ne_backslash hesc hesc'
      have hbytes : utf8 (c :: c :: c :: after) = byte c :: byte c :: byte c :: utf8 after := by
        simp [utf8EncodeChar_ascii hquote]
      have hstarts : [byte c, byte c, byte c] <+: byte c :: byte c :: byte c :: utf8 after :=
        ⟨utf8 after, rfl⟩
      show behindBlock (byte c) (utf8 (c :: c :: c :: after)) = utf8 after
      rw [hbytes, behindBlock, if_neg hslash, if_pos hstarts]
      rfl
  | case5 c rest hesc hesc' hnone inner after hinner ih =>
      rw [hinner] at ih
      rw [isPrefixOf?_eq_none_iff] at hnone
      rw [utf8_cons]
      -- no byte of a character beyond ASCII is that of a quote or of a backslash
      by_cases hc : isAscii c = true
      · have hstarts : ¬ [byte quote, byte quote, byte quote] <+: byte c :: utf8 rest := by
          have heq : byte c :: utf8 rest = utf8 (c :: rest) := by
            rw [utf8_cons, utf8EncodeChar_ascii hc]
            rfl
          rw [heq]
          exact fun h => hnone ((replicate_prefix_utf8 hquote 3 (c :: rest)).mp h)
        have hslash : byte c ≠ byte '\\' := by
          rw [ne_eq, byte_inj hc rfl]
          exact ne_backslash hesc hesc'
        rw [utf8EncodeChar_ascii hc, List.cons_append, List.nil_append, behindBlock, if_neg hslash,
          if_neg hstarts]
        exact ih
      · rw [Bool.not_eq_true] at hc
        rw [behindBlock_wide hquote (wide_of_mem hc), ih]

/-- A literal ends behind the same character. -/
theorem behindLiteral_utf8 {quote : Char} (hquote : isAscii quote = true) (rest : List Char) :
    behindLiteral (byte quote) (utf8 rest) = utf8 (takeLiteral quote rest).2 := by
  by_cases hblock : [quote, quote] <+: rest
  · obtain ⟨inner, rfl⟩ := hblock
    have hbytes : utf8 ([quote, quote] ++ inner) = byte quote :: byte quote :: utf8 inner := by
      simp [utf8EncodeChar_ascii hquote]
    rw [hbytes, behindLiteral, if_pos ⟨utf8 inner, rfl⟩,
      show [quote, quote] ++ inner = quote :: quote :: inner from rfl, takeLiteral_block]
    exact behindBlock_utf8 hquote inner
  · have hbytes : ¬ [byte quote, byte quote] <+: utf8 rest := by
      rwa [show [byte quote, byte quote] = List.replicate 2 (byte quote) from rfl,
        replicate_prefix_utf8 hquote 2]
    rw [behindLiteral, if_neg hbytes, takeLiteral_line hblock]
    exact behindLine_utf8 hquote rest

/-! ## The tokens of a body -/

/-- A token ends behind the last character of the lexeme. -/
theorem behindToken_utf8 {c : Char} {rest : List Char} {b : UInt8} {bs : List UInt8}
    (h : utf8 (c :: rest) = b :: bs) : behindToken b bs = utf8 (takeLexeme c rest).2 := by
  by_cases hc : isAscii c = true
  · rw [utf8_cons, utf8EncodeChar_ascii hc, List.cons_append, List.nil_append, List.cons.injEq] at h
    obtain ⟨rfl, rfl⟩ := h
    have hhash := byte_inj hc (show isAscii '#' = true from rfl)
    have hdouble := byte_inj hc (show isAscii '"' = true from rfl)
    have hsingle := byte_inj hc (show isAscii '\'' = true from rfl)
    unfold behindToken takeLexeme
    simp only [hhash, hdouble, hsingle, ← isQuote_iff, isDigitByte_byte hc,
      isWordStartByte_byte hc, sameKind_line.dropWhile, sameKind_number.dropWhile,
      sameKind_word.dropWhile, behindLiteral_utf8 hc]
    split_ifs <;> rfl
  · -- a character beyond ASCII begins a word, and so does its first byte
    rw [Bool.not_eq_true] at hc
    have hword := isWordStart_wide hc
    obtain ⟨hhash, hquote, hdigit⟩ := starts_word hword
    obtain ⟨b', more, hbytes⟩ := List.exists_cons_of_ne_nil (utf8EncodeChar_ne_nil c)
    have hwide := wide_of_mem hc
    rw [utf8_cons, hbytes, List.cons_append, List.cons.injEq] at h
    obtain ⟨rfl, rfl⟩ := h
    have hb : 128 ≤ b'.toNat := hwide b' (by rw [hbytes]; exact List.mem_cons_self)
    have hdigit' : isDigitByte b' = false := isDigitByte_wide hb
    have hmore : ∀ d ∈ more, isWordByte d = true := by
      intro d hd
      have hmem : d ∈ String.utf8EncodeChar c := by
        rw [hbytes]
        exact List.mem_cons_of_mem b' hd
      rw [isWordByte, isWordStartByte_wide (hwide d hmem), Bool.true_or]
    have hstring : ¬ (b' = byte '"' ∨ b' = byte '\'') := by
      rintro (h | h)
      · exact wide_ne_byte hb rfl h
      · exact wide_ne_byte hb rfl h
    rw [behindToken, if_neg (wide_ne_byte hb rfl), if_neg hstring,
      if_neg (by simp [hdigit']), if_pos (isWordStartByte_wide hb),
      List.dropWhile_append_of_pos hmore, sameKind_word.dropWhile, takeLexeme, if_neg hhash,
      if_neg (by simp [hquote]), if_neg (by simp [hdigit]), if_pos hword]

theorem length_behindLine_le (quote : UInt8) (bs : List UInt8) :
    (behindLine quote bs).length ≤ bs.length := by
  fun_induction behindLine quote bs with
  | case1 => exact Nat.le_refl 0
  | case2 rest ih =>
      rw [List.length_drop] at ih
      rw [List.length_cons]
      omega
  | case3 => simp
  | case4 => exact Nat.le_refl _
  | case5 b rest _ _ _ ih =>
      rw [List.length_cons]
      omega

theorem length_behindBlock_le (quote : UInt8) (bs : List UInt8) :
    (behindBlock quote bs).length ≤ bs.length := by
  fun_induction behindBlock quote bs with
  | case1 => exact Nat.le_refl 0
  | case2 rest ih =>
      rw [List.length_drop] at ih
      rw [List.length_cons]
      omega
  | case3 b rest _ _ =>
      rw [List.length_drop, List.length_cons]
      omega
  | case4 b rest _ _ ih =>
      rw [List.length_cons]
      omega

theorem length_behindLiteral_le (quote : UInt8) (rest : List UInt8) :
    (behindLiteral quote rest).length ≤ rest.length := by
  unfold behindLiteral
  split
  · have hblock := length_behindBlock_le quote (rest.drop 2)
    rw [List.length_drop] at hblock
    omega
  · exact length_behindLine_le quote rest

theorem length_behindToken_le (b : UInt8) (rest : List UInt8) :
    (behindToken b rest).length ≤ rest.length := by
  have hdrop : ∀ q : UInt8 → Bool, (rest.dropWhile q).length ≤ rest.length :=
    fun q => (List.dropWhile_suffix q).length_le
  unfold behindToken
  split_ifs
  · exact hdrop _
  · exact length_behindLiteral_le b rest
  · exact hdrop _
  · exact hdrop _
  · exact Nat.le_refl _

/-- The tokens of bytes, in order. -/
def tokens : List UInt8 → List (List UInt8)
  | [] => []
  | b :: rest =>
      (b :: rest.take (rest.length - (behindToken b rest).length)) :: tokens (behindToken b rest)
  termination_by bs => bs.length
  decreasing_by
    have := length_behindToken_le b rest
    simp only [List.length_cons]
    omega

/-- **The tokens of a body are the UTF-8 forms of its lexemes.** -/
theorem tokens_utf8 (cs : List Char) :
    tokens (utf8 cs) = (lexemes cs).map fun l => utf8 l.text := by
  fun_induction lexemes cs with
  | case1 => rw [utf8_nil, tokens]; rfl
  | case2 c rest step ih =>
      obtain ⟨b, more, hbytes⟩ := List.exists_cons_of_ne_nil (utf8EncodeChar_ne_nil c)
      have hutf8 : utf8 (c :: rest) = b :: (more ++ utf8 rest) := by
        rw [utf8_cons, hbytes, List.cons_append]
      have hbehind := behindToken_utf8 hutf8
      have htext : utf8 step.1.text ++ utf8 step.2 = utf8 (c :: rest) := by
        rw [← utf8_append]
        exact congrArg utf8 (takeLexeme_append c rest)
      -- a token is cut off by the number of bytes that are left behind it
      have htake : b :: (more ++ utf8 rest).take
          ((more ++ utf8 rest).length - (utf8 step.2).length) = utf8 step.1.text := by
        have hlength := congrArg List.length htext
        have hsplit := htext.trans hutf8
        rw [hutf8, List.length_append, List.length_cons] at hlength
        have hne : 0 < (utf8 step.1.text).length := by
          obtain ⟨tail, htail⟩ := takeLexeme_text c rest
          rw [show step.1.text = c :: tail from htail, utf8_cons, hbytes, List.cons_append,
            List.length_cons]
          omega
        rw [show (more ++ utf8 rest).length - (utf8 step.2).length =
          (utf8 step.1.text).length - 1 by omega, ← List.take_succ_cons,
          Nat.sub_add_cancel hne, ← hsplit, List.take_left]
      rw [hutf8, tokens, hbehind, List.map_cons, ← ih, htake]

end ChangeScope.Call
