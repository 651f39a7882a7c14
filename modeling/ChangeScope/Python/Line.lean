import ChangeScope.Python.Token
import ChangeScope.Text

/-!
# Logical lines

The tokens of a source up to each line end, with the depth of the indentation. A line also knows
the comments on lines of their own between it and the next line.
-/

set_option autoImplicit false

namespace ChangeScope.Python

/-! ## Indentation -/

/-- The depth of an indentation after a further blank: a tab counts for eight, and a form feed or a
carriage return begins anew. -/
def indentAfter (depth : Nat) (c : Char) : Nat :=
  if c = ' ' then depth + 1 else if c = '\t' then depth + 8 else 0

/-- The depth of the indentation that some blanks make. -/
def indentOf (blanks : List Char) : Nat := blanks.foldl indentAfter 0

private def isIndentBlank (c : Char) : Bool := c == ' ' || c == '\t' || c == '\x0c' || c == '\r'

/-! ## Comments -/

/-- A comment on a line of its own. -/
structure Comment where
  line : Nat
  indent : Nat
deriving DecidableEq, Repr

/-- The comments among rows, the first of which is on a line. -/
def commentsOf : Nat → List (List Char) → List Comment
  | _, [] => []
  | line, row :: rest =>
      let blanks := row.takeWhile isIndentBlank
      if (row.drop blanks.length).head? = some '#' then
        ⟨line, indentOf blanks⟩ :: commentsOf (line + 1) rest
      else commentsOf (line + 1) rest

/-! ## Lines -/

/-- A logical line: at least one token, and the comments before the next line. -/
structure Line where
  head : Token
  tail : List Token
  after : List Comment
deriving Repr, Inhabited

namespace Line

/-- The tokens of a line. -/
def tokens (l : Line) : List Token := l.head :: l.tail

/-- The line where it begins. -/
def first (l : Line) : Nat := l.head.line

/-- Its indentation: the blanks right before its first token. -/
def indent (l : Line) : Nat := indentOf ((Text.rows l.head.gap).getLast?.getD [])

/-- A line that ends in a colon is a header that waits for a block. -/
def awaitsBlock (l : Line) : Bool := (l.tail.getLast?.getD l.head).is ":"

end Line

/-- The tokens up to the next line end, and those after it. -/
def splitLine : List Token → List Token × List Token
  | [] => ([], [])
  | t :: rest =>
      if t.kind = .lineEnd then ([], rest)
      else
        let (line, others) := splitLine rest
        (t :: line, others)

theorem length_splitLine (ts : List Token) :
    (splitLine ts).2.length ≤ ts.length := by
  fun_induction splitLine ts with
  | case1 => simp
  | case2 => simp
  | case3 t rest _ line others _ ih =>
      simp_all
      omega

/-- The comments in front of the next token, or of the end of the source. -/
def commentsBefore (final : List Char) (end_ : Nat) : List Token → List Comment
  | [] => commentsOf (end_ - final.count '\n') (Text.rows final)
  | t :: _ => commentsOf (t.line - t.gap.count '\n') (Text.rows t.gap)

/-- The logical lines of tokens; `final` is the gap after the last token, `end_` the last line of
the source. -/
def linesOf (final : List Char) (end_ : Nat) : List Token → List Line
  | [] => []
  | t :: rest =>
      if t.kind = .lineEnd then linesOf final end_ rest
      else
        let cut := splitLine rest
        ⟨t, cut.1, commentsBefore final end_ cut.2⟩ :: linesOf final end_ cut.2
  termination_by ts => ts.length
  decreasing_by
    all_goals
      have := length_splitLine rest
      simp only [List.length_cons]
      omega

/-- The logical lines of a source. -/
def lines? (source : List Char) : Option (List Line) :=
  (tokens? source).map fun (tokens, final) => linesOf final (source.count '\n' + 1) tokens

end ChangeScope.Python
