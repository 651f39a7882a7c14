import ChangeScope.Proofs.Call.Comma
import ChangeScope.Proofs.Call.Octets
import ChangeScope.Path

/-!
# Written names

The name of a file is written as it is if all its bytes are printable characters of ASCII other than
quotes and backslashes, and else between quotes with escapes. Quotes and escapes make it longer
(`Name.length_written`), so a name is the path that is read from a line of a listing just where it
stands as it is (`Name.isNamed_listed`).
-/

set_option autoImplicit false

namespace ChangeScope.Patch

open ChangeScope.Text
open ChangeScope.Call (utf8)

/-! ## Written names -/

/-- The name of a file, from the root of the repository. -/
abbrev Name := List UInt8

/-- The byte stands for itself: a printable character other than a quote and a backslash. -/
def isPlainByte (b : UInt8) : Bool := 0x20 ≤ b && b < 0x7f && b != 0x22 && b != 0x5c

/-- The character of a byte of ASCII. -/
def charOf (b : UInt8) : Char := Char.ofNat b.toNat

/-- Three octal digits. -/
def octal (b : UInt8) : List Char :=
  [Nat.digitChar (b.toNat / 64), Nat.digitChar (b.toNat / 8 % 8), Nat.digitChar (b.toNat % 8)]

/-- What stands behind the backslash of an escaped byte: a letter for it, or its octal digits. -/
def escapeCode (b : UInt8) : List Char :=
  if b = 7 then ['a'] else if b = 8 then ['b'] else if b = 9 then ['t'] else if b = 10 then ['n']
  else if b = 11 then ['v'] else if b = 12 then ['f'] else if b = 13 then ['r']
  else if b = 0x22 then ['"'] else if b = 0x5c then ['\\'] else octal b

/-- A byte inside quotes. -/
def escape (b : UInt8) : List Char := if isPlainByte b then [charOf b] else '\\' :: escapeCode b

/-- All bytes stand for themselves. -/
def Name.IsPlain (n : Name) : Prop := ∀ b ∈ n, isPlainByte b = true

instance (n : Name) : Decidable n.IsPlain := List.decidableBAll _ n

/-- The characters of a plain name. -/
def Name.text (n : Name) : List Char := n.map charOf

/-- A name as it is written, behind the mark of a side. -/
def Name.written (n : Name) (side : List Char) : List Char :=
  if n.IsPlain then side ++ n.text else '"' :: (side ++ (n.flatMap escape ++ ['"']))

/-- The path is the one with the name. -/
def IsNamed (p : Path) (n : Name) : Prop := utf8 p.text.toList = n

/-! ## Characters of names -/

theorem charOf_byte {b : UInt8} (h : isPlainByte b = true) :
    isAscii (charOf b) = true ∧ Call.byte (charOf b) = b ∧ charOf b ≠ '\\' ∧ charOf b ≠ '"' ∧
      (isBlank (charOf b) = true → b = 0x20) := by
  -- there are 256 bytes
  obtain ⟨⟨b⟩⟩ := b
  revert b
  decide +kernel

theorem escapeCode_spec {b : UInt8} (h : isPlainByte b = false) :
    ∀ c ∈ escapeCode b, c ≠ ' ' ∧ isAscii c = true := by
  have hall : (escapeCode b).all (fun c => c != ' ' && isAscii c) = true := by
    obtain ⟨⟨b⟩⟩ := b
    revert b
    decide +kernel
  intro c hc
  obtain ⟨hblank, hascii⟩ := (Bool.and_eq_true _ _).mp (List.all_eq_true.mp hall c hc)
  exact ⟨bne_iff_ne.mp hblank, hascii⟩

/-- A character of ASCII is that of its byte. -/
theorem charOf_byteOf {c : Char} (h : isAscii c = true) : charOf (Call.byte c) = c := by
  have hc : c.toNat < 128 := by simpa [isAscii] using h
  have hbyte : (Call.byte c).toNat = c.toNat := by
    show (c.toNat.toUInt8).toNat = _
    rw [Nat.toUInt8_eq, UInt8.toNat_ofNat']
    omega
  rw [charOf, hbyte, Char.ofNat_toNat]

/-- A text of ASCII has its characters as bytes. -/
theorem utf8_ascii {cs : List Char} (h : ∀ c ∈ cs, isAscii c = true) :
    utf8 cs = cs.map Call.byte := by
  induction cs with
  | nil => rfl
  | cons c cs ih =>
      rw [Call.utf8_cons, Call.utf8EncodeChar_ascii (h c List.mem_cons_self),
        ih fun d hd => h d (List.mem_cons_of_mem c hd)]
      rfl

theorem Name.IsPlain.ascii {n : Name} (hn : n.IsPlain) : ∀ c ∈ n.text, isAscii c = true := by
  intro c hc
  obtain ⟨b, hb, rfl⟩ := List.mem_map.mp hc
  exact (charOf_byte (hn b hb)).1

/-- A path of ASCII with a name has the text of the name. -/
theorem text_of_isNamed {cs : List Char} (hcs : ∀ c ∈ cs, isAscii c = true) {n : Name}
    (h : IsNamed ⟨String.ofList cs⟩ n) : cs = n.text := by
  unfold IsNamed at h
  rw [String.toList_ofList, utf8_ascii hcs] at h
  rw [← h, Name.text, List.map_map]
  symm
  calc cs.map (charOf ∘ Call.byte) = cs.map id :=
        List.map_congr_left fun c hc => charOf_byteOf (hcs c hc)
    _ = cs := List.map_id cs

theorem Name.IsPlain.map_text {n : Name} (hn : n.IsPlain) : n.text.map Call.byte = n := by
  rw [Name.text, List.map_map]
  calc n.map (Call.byte ∘ charOf) = n.map id :=
        List.map_congr_left fun b hb => (charOf_byte (hn b hb)).2.1
    _ = n := List.map_id n

theorem Name.getLast?_text {n : Name} (hn : n ≠ []) :
    ∃ b, List.getLast? n = some b ∧ n.text.getLast? = some (charOf b) := by
  cases hb : List.getLast? n with
  | none => exact absurd (List.getLast?_eq_none_iff.mp hb) hn
  | some b => exact ⟨b, rfl, by rw [Name.text, List.getLast?_map, hb]; rfl⟩

/-- The text of a plain name is the path with that name. -/
theorem Name.IsPlain.isNamed {n : Name} (hn : n.IsPlain) : IsNamed ⟨String.ofList n.text⟩ n := by
  unfold IsNamed
  rw [String.toList_ofList, utf8_ascii hn.ascii, hn.map_text]

theorem Name.getLast?_quoted {n : Name} (hn : ¬ n.IsPlain) (side : List Char) :
    (n.written side).getLast? = some '"' := by
  rw [Name.written, if_neg hn, ← List.append_assoc, ← List.cons_append, List.getLast?_concat]

/-- A written name is of ASCII. -/
theorem Name.ascii_written (n : Name) {side : List Char} (hside : ∀ c ∈ side, isAscii c = true) :
    ∀ c ∈ n.written side, isAscii c = true := by
  have hescape : ∀ b : UInt8, ∀ c ∈ escape b, isAscii c = true := by
    intro b c hc
    rw [escape] at hc
    split at hc
    · next hb =>
        rw [List.mem_singleton.mp hc]
        exact (charOf_byte hb).1
    · next hb =>
        rcases List.mem_cons.mp hc with rfl | hc
        · rfl
        · exact (escapeCode_spec (by simpa using hb) c hc).2
  intro c hc
  rw [Name.written] at hc
  split at hc
  · next hn =>
      rcases List.mem_append.mp hc with hc | hc
      · exact hside c hc
      · exact Name.IsPlain.ascii hn c hc
  · rcases List.mem_cons.mp hc with rfl | hc
    · rfl
    rcases List.mem_append.mp hc with hc | hc
    · exact hside c hc
    rcases List.mem_append.mp hc with hc | hc
    · obtain ⟨b, -, hc⟩ := List.mem_flatMap.mp hc
      exact hescape b c hc
    · rw [List.mem_singleton.mp hc]
      rfl

/-! ## Quoted names -/

/-- What a path between words begins with: a separator before the path of the new side. -/
def sideMark : List Char := [' ', 'b', '/']

/-- The bytes of the separator. -/
def sideBytes : Name := [0x20, 0x62, 0x2f]

/-- A character that is no backslash and stands first in an escaped name is that of the first
byte. -/
theorem prefix_escaped {c : Char} {cs after : List Char} {n : Name} (hc : c ≠ '\\')
    (hafter : after.head? ≠ some c) (h : (c :: cs) <+: n.flatMap escape ++ after) :
    ∃ b more, n = b :: more ∧ isPlainByte b = true ∧ charOf b = c ∧
      cs <+: more.flatMap escape ++ after := by
  cases n with
  | nil =>
      obtain ⟨rest, hrest⟩ := h
      rw [List.flatMap_nil, List.nil_append] at hrest
      rw [← hrest] at hafter
      exact absurd rfl hafter
  | cons b more =>
      rw [List.flatMap_cons, escape, List.append_assoc] at h
      split at h
      · next hb =>
          obtain ⟨hfirst, hrest⟩ := List.cons_prefix_cons.mp h
          exact ⟨b, more, rfl, hb, hfirst.symm, hrest⟩
      · exact absurd (List.cons_prefix_cons.mp h).1 hc

/-- A separator begins behind characters that are no blanks. -/
theorem infix_behind {a b : List Char} (ha : ∀ c ∈ a, c ≠ ' ') (h : sideMark <:+: a ++ b) :
    sideMark <:+: b := by
  induction a with
  | nil => exact h
  | cons c a ih =>
      rw [List.cons_append] at h
      rcases List.infix_cons_iff.mp h with hstarts | hin
      · exact absurd (List.cons_prefix_cons.mp hstarts).1.symm (ha c List.mem_cons_self)
      · exact ih (fun d hd => ha d (List.mem_cons_of_mem c hd)) hin

/-- The bytes of three characters. -/
theorem sideBytes_of_chars {b c d : UInt8} {more : Name} (hb : isPlainByte b = true)
    (hc : isPlainByte c = true) (hd : isPlainByte d = true) (hbc : charOf b = ' ')
    (hcc : charOf c = 'b') (hdc : charOf d = '/') : sideBytes <:+: b :: c :: d :: more := by
  have hbyte : ∀ {b : UInt8} {ch : Char}, isPlainByte b = true → charOf b = ch →
      b = Call.byte ch := by
    intro b ch hb hch
    rw [← (charOf_byte hb).2.1, hch]
  obtain rfl := hbyte hb hbc
  obtain rfl := hbyte hc hcc
  obtain rfl := hbyte hd hdc
  exact ⟨[], more, rfl⟩

/-- **Escapes make no separator.** One that occurs in an escaped name or behind it is in the name
or behind it. -/
theorem infix_escaped {n : Name} {after : List Char} (hafter : after.head? = some '"')
    (h : sideMark <:+: n.flatMap escape ++ after) : sideBytes <:+: n ∨ sideMark <:+: after := by
  have hhead : ∀ c, c ≠ '"' → after.head? ≠ some c := by
    rintro c hc hh
    rw [hafter] at hh
    exact hc (Option.some.inj hh).symm
  induction n with
  | nil => exact Or.inr h
  | cons b more ih =>
      have hlater : sideMark <:+: more.flatMap escape ++ after →
          sideBytes <:+: b :: more ∨ sideMark <:+: after := by
        intro hin
        exact (ih hin).imp_left fun hmore => hmore.trans (List.suffix_cons b more).isInfix
      rw [List.flatMap_cons, List.append_assoc] at h
      -- a plain byte can begin a separator, and no character of an escape can
      by_cases hb : isPlainByte b = true
      · rw [escape, if_pos hb] at h
        rcases List.infix_cons_iff.mp h with hstarts | hin
        · obtain ⟨hblank, hrest⟩ := List.cons_prefix_cons.mp hstarts
          obtain ⟨c, more, rfl, hc, hcc, hrest⟩ :=
            prefix_escaped (by decide) (hhead _ (by decide)) hrest
          obtain ⟨d, more, rfl, hd, hdc, -⟩ :=
            prefix_escaped (by decide) (hhead _ (by decide)) hrest
          exact Or.inl (sideBytes_of_chars hb hc hd hblank.symm hcc hdc)
        · exact hlater hin
      · rw [escape, if_neg hb] at h
        refine hlater (infix_behind (fun c hc => ?_) h)
        rcases List.mem_cons.mp hc with rfl | hc
        · decide
        · exact (escapeCode_spec (by simpa using hb) c hc).1

/-- The characters of a plain name hold a separator just where its bytes do. -/
theorem infix_text_iff {n : Name} (hn : n.IsPlain) : sideMark <:+: n.text ↔ sideBytes <:+: n := by
  constructor
  · intro h
    have hbytes := h.map Call.byte
    rwa [hn.map_text] at hbytes
  · intro h
    exact h.map charOf

/-! ## Names that are read back -/

/-- A text of ASCII is the path with a plain name just where it is the text of the name. -/
theorem isNamed_iff_text {n : Name} (hn : n.IsPlain) {cs : List Char}
    (hcs : ∀ c ∈ cs, isAscii c = true) : IsNamed ⟨String.ofList cs⟩ n ↔ cs = n.text := by
  constructor
  · exact text_of_isNamed hcs
  · rintro rfl
    exact hn.isNamed

/-- Nothing is dropped from the end of a name that does not end in a blank. -/
theorem trimEnd_text_iff {n : Name} (hne : n ≠ []) (hn : n.IsPlain) :
    trimEnd n.text = n.text ↔ List.getLast? n ≠ some 0x20 := by
  obtain ⟨b, hb, hlast⟩ := Name.getLast?_text hne
  rw [hb, ne_eq, Option.some.injEq]
  have hplain := charOf_byte (hn b (List.mem_of_getLast? hb))
  constructor
  · rintro htrim rfl
    -- a blank at the end goes
    obtain ⟨front, hfront⟩ := List.getLast?_eq_some_iff.mp hlast
    have hlength := length_dropTrailing_le isBlank front
    rw [hfront, trimEnd, dropTrailing_append (by simp; rfl)] at htrim
    rw [htrim, List.length_append] at hlength
    simp at hlength
  · intro hblank
    refine dropTrailing_self hlast ?_
    by_contra hc
    exact hblank (hplain.2.2.2.2 (by simpa using hc))

/-- The path that is read from a line of a listing. -/
def Name.listed (n : Name) : Path := ⟨String.ofList (n.written [])⟩

/-- Quotes and escapes make a name longer. -/
theorem Name.length_written {n : Name} (hn : ¬ n.IsPlain) : n.length < (n.written []).length := by
  have hescape : n.length ≤ (n.flatMap escape).length := by
    clear hn
    induction n with
    | nil => exact Nat.le_refl 0
    | cons b n ih =>
        have hone : 1 ≤ (escape b).length := by
          unfold escape
          split <;> simp
        rw [List.flatMap_cons, List.length_append, List.length_cons]
        omega
  rw [Name.written, if_neg hn, List.nil_append, List.length_cons, List.length_append]
  omega

/-- **A listed name is read just where it stands as it is.** -/
theorem Name.isNamed_listed {n : Name} : IsNamed n.listed n ↔ n.IsPlain := by
  constructor
  · intro h
    by_contra hn
    have hlength := Name.length_written hn
    unfold IsNamed Name.listed at h
    rw [String.toList_ofList, utf8_ascii (n.ascii_written (List.forall_mem_nil _))] at h
    have hsame := congrArg List.length h
    rw [List.length_map] at hsame
    omega
  · intro hn
    have hwritten : n.written [] = n.text := by rw [Name.written, if_pos hn, List.nil_append]
    rw [Name.listed, hwritten]
    exact hn.isNamed

/-- A listed name that is blank is made of blanks. -/
theorem Name.isBlankText_written (n : Name) :
    (!isBlankText (n.written [])) = n.any (· != 0x20) := by
  rw [Bool.eq_iff_iff, Bool.not_eq_true', List.any_eq_true, ← Bool.not_eq_true, isBlankText,
    List.all_eq_true]
  constructor
  · intro hblank
    by_contra hno
    have hspaces : ∀ b ∈ n, b = 0x20 := by
      intro b hb
      by_contra hne
      exact hno ⟨b, hb, by simpa using hne⟩
    have hn : n.IsPlain := by
      intro b hb
      rw [hspaces b hb]
      rfl
    rw [Name.written, if_pos hn, List.nil_append] at hblank
    refine hblank fun c hc => ?_
    obtain ⟨b, hb, rfl⟩ := List.mem_map.mp hc
    rw [hspaces b hb]
    rfl
  · rintro ⟨b, hb, hne⟩ hall
    rw [Name.written] at hall
    split at hall
    · next hn =>
        have hspace := (charOf_byte (hn b hb)).2.2.2.2 (hall _ (List.mem_map_of_mem hb))
        rw [hspace] at hne
        exact absurd hne (by decide)
    · exact absurd (hall '"' List.mem_cons_self) (by decide)

end ChangeScope.Patch
