import Mathlib.Tactic
import ChangeScope.Text.Utf8

/-!
# Text and its bytes

The bytes of each character are one unit (`takeUnit_char`), so every text is decoded from its
bytes (`decode?_encode`). Where each character takes one byte, the bytes are the code points
(`decode?_bytesOf`).
-/

set_option autoImplicit false

namespace ChangeScope.Text.Utf8

/-! ## Bytes of a text -/

theorem toList_eq_data (bytes : ByteArray) : bytes.toList = bytes.data.toList := by
  have hloop : ∀ (left i : Nat) (r : List UInt8), bytes.size - i = left →
      ByteArray.toList.loop bytes i r = r.reverse ++ bytes.data.toList.drop i := by
    intro left
    induction left with
    | zero =>
      intro i r hleft
      rw [ByteArray.toList.loop, if_neg (by omega), List.drop_eq_nil_of_le]
      · simp
      · simpa using Nat.sub_eq_zero_iff_le.mp hleft
    | succ left ih =>
      intro i r hleft
      have hi : i < bytes.data.toList.length := by
        have hsize : bytes.data.toList.length = bytes.size := rfl
        omega
      rw [ByteArray.toList.loop, if_pos (by omega), ih (i + 1) _ (by omega),
        List.drop_eq_getElem_cons hi]
      simp [ByteArray.get!, getElem!_pos bytes.data i hi]
  simpa [ByteArray.toList] using hloop bytes.size 0 [] rfl

theorem encode_eq (text : List Char) : encode text = text.flatMap String.utf8EncodeChar := by
  rw [encode, toList_eq_data]
  exact List.toList_data_toByteArray

/-! ### Bytes by their numbers -/

variable {m n k l : Nat}

theorem toNat_byte (h : n < 256) : (UInt8.ofNat n).toNat = n := by
  simp [UInt8.toNat_ofNat', Nat.mod_eq_of_lt h]

theorem isTail_byte (hlow : 0x80 ≤ n) (hhigh : n < 0xc0) : isTail (UInt8.ofNat n) = true := by
  simp only [isTail, Bool.and_eq_true, decide_eq_true_eq, UInt8.le_iff_toNat_le,
    toNat_byte (show n < 256 by omega), UInt8.reduceToNat]
  omega

/-- A byte that continues a character may stand second unless the lead byte forbids it. -/
theorem isSecond_byte (hm : m < 256) (hlow : 0x80 ≤ n) (hhigh : n < 0xc0)
    (he0 : m = 0xe0 → 0xa0 ≤ n) (hed : m = 0xed → n < 0xa0) (hf0 : m = 0xf0 → 0x90 ≤ n)
    (hf4 : m = 0xf4 → n < 0x90) : isSecond (UInt8.ofNat m) (UInt8.ofNat n) = true := by
  have hn : n < 256 := by omega
  simp only [isSecond, secondRange, ← UInt8.toNat_inj, toNat_byte hm, UInt8.reduceToNat]
  split_ifs <;>
    simp only [Bool.and_eq_true, decide_eq_true_eq, UInt8.le_iff_toNat_le, toNat_byte hn,
      UInt8.reduceToNat] <;>
    omega

theorem tailCount_byte (hm : m < 256) :
    tailCount (UInt8.ofNat m) =
      if m < 0x80 then some 0 else if 0xc2 ≤ m ∧ m < 0xe0 then some 1
      else if 0xe0 ≤ m ∧ m < 0xf0 then some 2 else if 0xf0 ≤ m ∧ m < 0xf5 then some 3
      else none := by
  simp only [tailCount, Bool.and_eq_true, decide_eq_true_eq, UInt8.le_iff_toNat_le,
    toNat_byte hm, UInt8.reduceToNat]
  split_ifs <;> first | rfl | omega

/-! ### Characters by their bytes -/

theorem takeUnit_one (hm : m < 0x80) (rest : List UInt8) :
    takeUnit (UInt8.ofNat m) rest = (some (Char.ofNat m), rest) := by
  have hcount : tailCount (UInt8.ofNat m) = some 0 := by
    rw [tailCount_byte (by omega), if_pos hm]
  simp only [takeUnit, hcount, toNat_byte (show m < 256 by omega)]

theorem takeUnit_two (hm : 0xc2 ≤ m ∧ m < 0xe0) (hn : 0x80 ≤ n ∧ n < 0xc0) (rest : List UInt8) :
    takeUnit (UInt8.ofNat m) (UInt8.ofNat n :: rest) =
      (some (Char.ofNat (m % 32 * 64 + n % 64)), rest) := by
  have hcount : tailCount (UInt8.ofNat m) = some 1 := by
    rw [tailCount_byte (by omega), if_neg (by omega), if_pos hm]
  have hsecond : isSecond (UInt8.ofNat m) (UInt8.ofNat n) = true := by
    apply isSecond_byte <;> omega
  simp only [takeUnit, hcount, hsecond, if_true, bits, toNat_byte (show m < 256 by omega),
    toNat_byte (show n < 256 by omega)]

theorem takeUnit_three (hm : 0xe0 ≤ m ∧ m < 0xf0) (hn : 0x80 ≤ n ∧ n < 0xc0)
    (he0 : m = 0xe0 → 0xa0 ≤ n) (hed : m = 0xed → n < 0xa0) (hk : 0x80 ≤ k ∧ k < 0xc0)
    (rest : List UInt8) :
    takeUnit (UInt8.ofNat m) (UInt8.ofNat n :: UInt8.ofNat k :: rest) =
      (some (Char.ofNat ((m % 16 * 64 + n % 64) * 64 + k % 64)), rest) := by
  have hcount : tailCount (UInt8.ofNat m) = some 2 := by
    rw [tailCount_byte (by omega), if_neg (by omega), if_neg (by omega), if_pos hm]
  have hsecond : isSecond (UInt8.ofNat m) (UInt8.ofNat n) = true := by
    apply isSecond_byte <;> omega
  simp only [takeUnit, hcount, hsecond, isTail_byte hk.1 hk.2, if_true, bits,
    toNat_byte (show m < 256 by omega), toNat_byte (show n < 256 by omega),
    toNat_byte (show k < 256 by omega)]

theorem takeUnit_four (hm : 0xf0 ≤ m ∧ m < 0xf5) (hn : 0x80 ≤ n ∧ n < 0xc0)
    (hf0 : m = 0xf0 → 0x90 ≤ n) (hf4 : m = 0xf4 → n < 0x90) (hk : 0x80 ≤ k ∧ k < 0xc0)
    (hl : 0x80 ≤ l ∧ l < 0xc0) (rest : List UInt8) :
    takeUnit (UInt8.ofNat m) (UInt8.ofNat n :: UInt8.ofNat k :: UInt8.ofNat l :: rest) =
      (some (Char.ofNat (((m % 8 * 64 + n % 64) * 64 + k % 64) * 64 + l % 64)), rest) := by
  have hcount : tailCount (UInt8.ofNat m) = some 3 := by
    rw [tailCount_byte (by omega), if_neg (by omega), if_neg (by omega), if_neg (by omega),
      if_pos hm]
  have hsecond : isSecond (UInt8.ofNat m) (UInt8.ofNat n) = true := by
    apply isSecond_byte <;> omega
  simp only [takeUnit, hcount, hsecond, isTail_byte hk.1 hk.2, isTail_byte hl.1 hl.2, if_true,
    bits, toNat_byte (show m < 256 by omega), toNat_byte (show n < 256 by omega),
    toNat_byte (show k < 256 by omega), toNat_byte (show l < 256 by omega)]

/-- **The bytes of a character are one unit.** -/
theorem takeUnit_char (c : Char) : ∃ lead behind, String.utf8EncodeChar c = lead :: behind ∧
    ∀ rest, takeUnit lead (behind ++ rest) = (some c, rest) := by
  have hvalid : c.val.toNat < 0xd800 ∨ 0xdfff < c.val.toNat ∧ c.val.toNat < 0x110000 := c.valid
  have hchar : ∀ code, code = c.val.toNat → some (Char.ofNat code) = some c := by
    rintro code rfl
    exact congrArg some (Char.ofNat_toNat c)
  unfold String.utf8EncodeChar
  dsimp only
  generalize c.val.toNat = v at hvalid hchar
  split_ifs with h1 h2 h3
  all_goals refine ⟨_, _, rfl, fun rest => ?_⟩
  · rw [List.nil_append, takeUnit_one (by omega), hchar _ rfl]
  · rw [List.singleton_append, takeUnit_two (by omega) (by omega), hchar _ (by omega)]
  · rw [List.cons_append, List.singleton_append, takeUnit_three (by omega) (by omega) (by omega)
      (by omega) (by omega), hchar _ (by omega)]
  · rw [List.cons_append, List.cons_append, List.singleton_append, takeUnit_four (by omega)
      (by omega) (by omega) (by omega) (by omega) (by omega), hchar _ (by omega)]

theorem units_encode (text : List Char) : units (encode text) = text.map some := by
  rw [encode_eq]
  induction text with
  | nil => rw [List.flatMap_nil, units, List.map_nil]
  | cons c text ih =>
    obtain ⟨lead, behind, hbytes, hunit⟩ := takeUnit_char c
    rw [List.flatMap_cons, hbytes, List.cons_append, units, hunit, ih, List.map_cons]

/-- **A text is decoded from its bytes.** -/
theorem decode?_encode (text : List Char) : decode? (encode text) = some text := by
  rw [decode?, units_encode, List.mapM_map]
  induction text with
  | nil => rfl
  | cons c text ih => rw [List.mapM_cons, ih]; rfl

theorem decodeLossy_encode (text : List Char) : decodeLossy (encode text) = text := by
  rw [decodeLossy, units_encode, List.map_map]
  exact List.map_id text

/-! ## One byte a character -/

/-- The bytes of a text whose characters take one byte each. -/
def bytesOf (text : List Char) : List UInt8 := text.map fun c => c.toNat.toUInt8

/-- Every character takes one byte. -/
def isNarrow (text : List Char) : Bool := text.all fun c => c.toNat < 128

theorem encode_eq_bytesOf {text : List Char} (h : isNarrow text = true) :
    encode text = bytesOf text := by
  rw [encode_eq, bytesOf]
  induction text with
  | nil => rfl
  | cons c text ih =>
    rw [isNarrow, List.all_cons, Bool.and_eq_true, decide_eq_true_eq] at h
    have hbyte : String.utf8EncodeChar c = [c.toNat.toUInt8] := by
      have hc : c.val.toNat ≤ 0x7f := Nat.le_of_lt_succ h.1
      rw [String.utf8EncodeChar, if_pos hc]
      rfl
    rw [List.flatMap_cons, hbyte, ih h.2, List.map_cons]
    rfl

theorem decode?_bytesOf {text : List Char} (h : isNarrow text = true) :
    decode? (bytesOf text) = some text := by
  rw [← encode_eq_bytesOf h, decode?_encode]

theorem decodeLossy_bytesOf {text : List Char} (h : isNarrow text = true) :
    decodeLossy (bytesOf text) = text := by
  rw [← encode_eq_bytesOf h, decodeLossy_encode]

end ChangeScope.Text.Utf8
