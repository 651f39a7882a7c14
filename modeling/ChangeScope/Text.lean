/-!
# Text

Cutting text into lines, words and fields. A text is a `List Char`; its length in bytes is
that of its UTF-8 form, and every offset and column of the library is counted in those bytes.
White space is the Unicode property `White_Space`.
-/

set_option autoImplicit false

namespace ChangeScope.Text

/-! ## Length in bytes -/

/-- The number of bytes of the UTF-8 form. -/
def byteLength : List Char → Nat
  | [] => 0
  | c :: rest => c.utf8Size + byteLength rest

@[simp] theorem byteLength_nil : byteLength [] = 0 := rfl

@[simp] theorem byteLength_cons (c : Char) (rest : List Char) :
    byteLength (c :: rest) = c.utf8Size + byteLength rest := rfl

@[simp] theorem byteLength_append (a b : List Char) :
    byteLength (a ++ b) = byteLength a + byteLength b := by
  induction a with
  | nil => simp
  | cons c rest ih => simp [ih, Nat.add_assoc]

@[simp] theorem byteLength_reverse (a : List Char) : byteLength a.reverse = byteLength a := by
  induction a with
  | nil => rfl
  | cons c rest ih => simp [ih, Nat.add_comm]

/-- The text before and after a byte offset; `none` past the end or inside a character. -/
def splitAtByte? : Nat → List Char → Option (List Char × List Char)
  | 0, cs => some ([], cs)
  | _ + 1, [] => none
  | n + 1, c :: rest =>
      if c.utf8Size ≤ n + 1 then
        (splitAtByte? (n + 1 - c.utf8Size) rest).map fun (a, b) => (c :: a, b)
      else
        none

/-- The text between two byte offsets. -/
def slice? (start stop : Nat) (cs : List Char) : Option (List Char) :=
  if start ≤ stop then
    ((splitAtByte? start cs).bind fun (_, rest) => splitAtByte? (stop - start) rest).map (·.1)
  else
    none

/-! ## White space -/

/-- The characters of the Unicode property `White_Space`. -/
def isBlank (c : Char) : Bool :=
  let n := c.toNat
  (0x09 ≤ n && n ≤ 0x0d) || n == 0x20 || n == 0x85 || n == 0xa0 || n == 0x1680 ||
    (0x2000 ≤ n && n ≤ 0x200a) || n == 0x2028 || n == 0x2029 || n == 0x202f ||
    n == 0x205f || n == 0x3000

/-- Drops the longest tail of characters that satisfy `p`. -/
def dropTrailing (p : Char → Bool) : List Char → List Char
  | [] => []
  | c :: rest =>
      match dropTrailing p rest with
      | [] => if p c then [] else [c]
      | kept => c :: kept

/-- Drops leading white space. -/
def trimStart (cs : List Char) : List Char := cs.dropWhile isBlank

/-- Drops trailing white space. -/
def trimEnd (cs : List Char) : List Char := dropTrailing isBlank cs

/-- Drops white space at both ends. -/
def trim (cs : List Char) : List Char := trimEnd (trimStart cs)

/-- No character but white space. -/
def isBlankText (cs : List Char) : Bool := cs.all isBlank

/-! ## Fields, lines and words -/

/-- The fields between the characters that satisfy `p`: always at least one. -/
def fields (p : Char → Bool) : List Char → List (List Char)
  | [] => [[]]
  | c :: rest =>
      match fields p rest with
      | [] => [[]]
      | field :: others => if p c then [] :: field :: others else (c :: field) :: others

/-- The fields between line feeds; a carriage return stays where it is. -/
def rows (cs : List Char) : List (List Char) := fields (· == '\n') cs

/-- Drops one carriage return from the end. -/
def dropReturn (line : List Char) : List Char :=
  if line.getLast? = some '\r' then line.dropLast else line

/-- The lines of fields between line feeds. -/
def linesOfRows : List (List Char) → List (List Char)
  | [] => []
  | [last] => if last.isEmpty then [] else [last]
  | row :: others => dropReturn row :: linesOfRows others

/-- The lines of a text. A line feed ends a line and takes one carriage return before it along;
what follows the last line feed is a line of its own unless it is empty. -/
def lines (cs : List Char) : List (List Char) := linesOfRows (rows cs)

/-- The longest stretches without white space. -/
def words (cs : List Char) : List (List Char) :=
  (fields isBlank cs).filter fun word => !word.isEmpty

/-- The texts joined, with `sep` between neighbours. -/
def join (sep : List Char) (parts : List (List Char)) : List Char :=
  sep.intercalate parts

/-- The items before the first one that satisfies `p`, and each one that does with the items up to
the next. -/
def cutBefore {α : Type} (p : α → Bool) : List α → List α × List (α × List α)
  | [] => ([], [])
  | x :: rest =>
      let (front, groups) := cutBefore p rest
      if p x then ([], (x, front) :: groups) else (x :: front, groups)

/-! ## Searching -/

/-- The text before and after the first occurrence of `sep`. -/
def splitOnce (sep : List Char) : List Char → Option (List Char × List Char)
  | [] => if sep.isEmpty then some ([], []) else none
  | c :: rest =>
      match sep.isPrefixOf? (c :: rest) with
      | some after => some ([], after)
      | none => (splitOnce sep rest).map fun (before, after) => (c :: before, after)

/-- The text before and after the last occurrence of `sep`. -/
def splitLast (sep : List Char) : List Char → Option (List Char × List Char)
  | [] => if sep.isEmpty then some ([], []) else none
  | c :: rest =>
      match splitLast sep rest with
      | some (before, after) => some (c :: before, after)
      | none => (sep.isPrefixOf? (c :: rest)).map fun after => ([], after)

/-- The text has the beginning. -/
def startsWith (beginning cs : List Char) : Bool := beginning.isPrefixOf cs

/-- The text without its ending, when it ends so. -/
def dropEnding? (ending cs : List Char) : Option (List Char) :=
  (ending.reverse.isPrefixOf? cs.reverse).map List.reverse

/-! ## Numbers -/

/-- The value of decimal digits; `none` at any other character. -/
def digitsValue? (cs : List Char) : Option Nat :=
  cs.foldlM (fun n c => if '0' ≤ c ∧ c ≤ '9' then some (10 * n + (c.toNat - '0'.toNat)) else none) 0

/-- A number of 64 bits in decimal digits, perhaps after a plus sign. -/
def natural? (cs : List Char) : Option Nat :=
  let digits := match cs with
    | '+' :: rest => rest
    | cs => cs
  if digits.isEmpty then none
  else (digitsValue? digits).filter fun n => n < 0x10000000000000000

end ChangeScope.Text
