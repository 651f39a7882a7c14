import ChangeScope.Json.Tree
import ChangeScope.Text

/-!
# Strings in TOML

A string stands between quotes or between apostrophes, one or three of either. Between quotes a
backslash begins an escape; between apostrophes every character stands for itself. With three of
them a string can have several lines; a line feed right after the opening does not count.
-/

set_option autoImplicit false

namespace ChangeScope.Toml

open ChangeScope.Json (hexValue?)

/-! ## Characters -/

/-- White space inside a line. -/
def isSpace (c : Char) : Bool := c == ' ' || c == '\t'

/-- A character that can stand for itself in a line: no control character but the tab. -/
def isPlain (c : Char) : Bool := c == '\t' || (0x20 ≤ c.toNat && c.toNat ≠ 0x7f)

/-- A character that stands for itself between quotes. -/
def isBasic (c : Char) : Bool := isPlain c && c != '"' && c != '\\'

/-- A character that stands for itself between apostrophes. -/
def isLiteral (c : Char) : Bool := isPlain c && c != '\''

/-- The text after the end of a line. -/
def newline? : List Char → Option (List Char)
  | '\n' :: rest => some rest
  | '\r' :: '\n' :: rest => some rest
  | _ => none

/-- Drops white space and ends of lines. -/
def skipBlank : List Char → List Char
  | '\n' :: rest => skipBlank rest
  | '\r' :: '\n' :: rest => skipBlank rest
  | c :: rest => if isSpace c then skipBlank rest else c :: rest
  | [] => []

/-! ## Escapes -/

/-- The character of a one-letter escape. -/
def shortEscape? : Char → Option Char
  | 'b' => some '\x08'
  | 't' => some '\t'
  | 'n' => some '\n'
  | 'f' => some '\x0c'
  | 'r' => some '\r'
  | '"' => some '"'
  | '\\' => some '\\'
  | _ => none

/-- The number of some hexadecimal digits. -/
def hexNumber? (digits : List Char) : Option Nat :=
  digits.foldlM (fun n c => (hexValue? c).map (n * 16 + ·)) 0

/-- The character with a code point. -/
def scalar? (n : Nat) : Option Char := if n.isValidChar then some (Char.ofNat n) else none

/-- The character of an escape by its number, written with `count` digits. -/
def numberedEscape? (count : Nat) (cs : List Char) : Option (Char × List Char) :=
  if cs.length < count then none
  else (hexNumber? (cs.take count)).bind fun n => (scalar? n).map (·, cs.drop count)

/-- The character of an escape, after the backslash, and the text after it. -/
def escape? : List Char → Option (Char × List Char)
  | 'u' :: rest => numberedEscape? 4 rest
  | 'U' :: rest => numberedEscape? 8 rest
  | c :: rest => (shortEscape? c).map (·, rest)
  | [] => none

private theorem length_of_numberedEscape? {count : Nat} {cs rest : List Char} {c : Char}
    (h : numberedEscape? count cs = some (c, rest)) : rest.length ≤ cs.length := by
  unfold numberedEscape? at h
  split at h
  · cases h
  · obtain ⟨n, _, hn⟩ := Option.bind_eq_some_iff.1 h
    obtain ⟨x, _, hx⟩ := Option.map_eq_some_iff.1 hn
    cases hx
    simp

theorem length_of_escape? {cs rest : List Char} {c : Char} (h : escape? cs = some (c, rest)) :
    rest.length < cs.length := by
  unfold escape? at h
  split at h
  · exact Nat.lt_succ_of_le (length_of_numberedEscape? h)
  · exact Nat.lt_succ_of_le (length_of_numberedEscape? h)
  · obtain ⟨x, _, hx⟩ := Option.map_eq_some_iff.1 h
    cases hx
    simp
  · cases h

/-! ## Strings on one line -/

/-- The string after an opening quote, and the text after the closing one. -/
def readBasic : List Char → Option (List Char × List Char)
  | [] => none
  | '"' :: rest => some ([], rest)
  | '\\' :: rest =>
      match _h : escape? rest with
      | some (c, after) => (readBasic after).map fun (s, end_) => (c :: s, end_)
      | none => none
  | c :: rest =>
      if isBasic c then (readBasic rest).map fun (s, end_) => (c :: s, end_) else none
termination_by cs => cs.length
decreasing_by
  · have := length_of_escape? _h
    simp only [List.length_cons]
    omega
  · simp

/-- The string after an opening apostrophe, and the text after the closing one. -/
def readLiteral : List Char → Option (List Char × List Char)
  | [] => none
  | '\'' :: rest => some ([], rest)
  | c :: rest =>
      if isLiteral c then (readLiteral rest).map fun (s, end_) => (c :: s, end_) else none

/-! ## Strings on several lines -/

/-- The end of a string of several lines: three of the delimiter, and up to two more before them
that belong to the string. -/
def closing? (delimiter : Char) (cs : List Char) : Option (List Char × List Char) :=
  let count := min (cs.takeWhile (· == delimiter)).length 5
  if count < 3 then none else some (List.replicate (count - 3) delimiter, cs.drop count)

/-- What follows a backslash at the end of a line: the text after all white space. -/
def continuation? (cs : List Char) : Option (List Char) :=
  (newline? (cs.dropWhile isSpace)).map skipBlank

private theorem length_skipBlank (cs : List Char) : (skipBlank cs).length ≤ cs.length := by
  fun_induction skipBlank cs with
  | case1 rest ih => exact Nat.le_succ_of_le ih
  | case2 rest ih => exact Nat.le_succ_of_le (Nat.le_succ_of_le ih)
  | case3 c rest _ _ _ ih => exact Nat.le_succ_of_le ih
  | case4 => exact Nat.le_refl _
  | case5 => exact Nat.le_refl _

theorem length_of_newline? {cs rest : List Char} (h : newline? cs = some rest) :
    rest.length < cs.length := by
  unfold newline? at h
  split at h
  · cases h; simp
  · cases h; simp only [List.length_cons]; omega
  · cases h

private theorem length_of_continuation? {cs rest : List Char} (h : continuation? cs = some rest) :
    rest.length < cs.length := by
  obtain ⟨after, hafter, rfl⟩ := Option.map_eq_some_iff.1 h
  have h₁ := length_of_newline? hafter
  have h₂ := length_skipBlank after
  have h₃ := (List.dropWhile_sublist isSpace (l := cs)).length_le
  omega

/-- The string between three quotes, after the opening, and the text after the closing. -/
def readBasicLines (cs : List Char) : Option (List Char × List Char) :=
  match closing? '"' cs with
  | some found => some found
  | none =>
      match cs with
      | [] => none
      | '\\' :: rest =>
          match _h : continuation? rest with
          | some after => readBasicLines after
          | none =>
              match _h : escape? rest with
              | some (c, after) => (readBasicLines after).map fun (s, end_) => (c :: s, end_)
              | none => none
      | '\r' :: '\n' :: rest => (readBasicLines rest).map fun (s, end_) => ('\n' :: s, end_)
      | c :: rest =>
          if isPlain c || c == '\n' then
            (readBasicLines rest).map fun (s, end_) => (c :: s, end_)
          else none
termination_by cs.length
decreasing_by
  · have := length_of_continuation? _h
    simp only [List.length_cons]
    omega
  · have := length_of_escape? _h
    simp only [List.length_cons]
    omega
  · simp only [List.length_cons]; omega
  · simp

/-- The string between three apostrophes, after the opening, and the text after the closing. -/
def readLiteralLines (cs : List Char) : Option (List Char × List Char) :=
  match closing? '\'' cs with
  | some found => some found
  | none =>
      match cs with
      | [] => none
      | '\r' :: '\n' :: rest => (readLiteralLines rest).map fun (s, end_) => ('\n' :: s, end_)
      | c :: rest =>
          if isPlain c || c == '\n' then
            (readLiteralLines rest).map fun (s, end_) => (c :: s, end_)
          else none
termination_by cs.length
decreasing_by
  · simp only [List.length_cons]; omega
  · simp

/-- The text after an end of line, if it begins with one. -/
def dropNewline (cs : List Char) : List Char := (newline? cs).getD cs

/-- A string of any form, and the text after it. -/
def readString : List Char → Option (List Char × List Char)
  | '"' :: '"' :: '"' :: rest => readBasicLines (dropNewline rest)
  | '"' :: rest => readBasic rest
  | '\'' :: '\'' :: '\'' :: rest => readLiteralLines (dropNewline rest)
  | '\'' :: rest => readLiteral rest
  | _ => none

end ChangeScope.Toml
