import ChangeScope.Abort
import ChangeScope.Call.Lexeme
import ChangeScope.Text

/-!
# Call candidates

A candidate is a word with an opening parenthesis behind it, outside comments and literals, that
is no keyword, is not defined on its line and does not name a class. In front of the word stands
its qualifier: nothing, a chain of names before a dot, or a file before `::`.

The scan walks the lexemes of the body and keeps the text before them in reverse, so everything in
front of a word is read backwards from it.
-/

set_option autoImplicit false

namespace ChangeScope.Call

open ChangeScope.Text

/-- How the called expression is written. -/
inductive Form where
  /-- `name(` -/
  | bare
  /-- `a.b.name(` -/
  | attribute (receiver : String)
  /-- `<file>::name(` -/
  | qualified (file : String)
deriving DecidableEq, Repr

/-- A word that is called. Offsets and columns count bytes. -/
structure Candidate where
  /-- The line of the name within the body, from 0. -/
  lineOffset : Nat
  /-- The column of the name, from 1. -/
  column : Nat
  name : String
  form : Form
  /-- Where the called expression begins in the body. -/
  start : Nat
  /-- Where it ends. -/
  stop : Nat
  /-- The text between the parentheses. -/
  args : String
deriving DecidableEq, Repr

/-! ## Words that are not called -/

/-- Words that stand before a parenthesis without being called. -/
def keywords : List String :=
  ["and", "as", "assert", "async", "await", "break", "class", "continue", "def", "del", "elif",
    "else", "except", "finally", "for", "from", "global", "if", "import", "in", "is", "lambda",
    "nonlocal", "not", "or", "pass", "raise", "return", "try", "while", "with", "yield", "match",
    "case", "print"]

/-- A blank within a line. -/
def isGap (c : Char) : Bool := c == ' ' || c == '\t'

/-- The line that a function is defined on begins with `def` or `async def`. -/
def isDefLine (line : List Char) : Bool :=
  let code := trimStart line
  "def ".toList.isPrefixOf code || "async def ".toList.isPrefixOf code

/-- The whole line around a position, from the reversed text before it and the text after it. -/
def lineAround (before after : List Char) : List Char :=
  (before.takeWhile (· != '\n')).reverse ++ after.takeWhile (· != '\n')

/-- The reversed text ends in the word `class` and blanks. -/
def followsClass (before : List Char) : Bool :=
  match "class".toList.reverse.isPrefixOf? (before.dropWhile isGap) with
  | some (c :: _) => !(isAlphanumeric c || c == '_')
  | some [] => true
  | none => false

/-! ## Qualifiers -/

/-- Ends the file part of `<file>::` when it is read backwards. -/
def isFileBoundary (c : Char) : Bool :=
  c == ' ' || c == '\t' || c == '\n' || c == '\x0c' || c == '\r' ||
    "()[]\x7b\x7d,;=+*%<>!&|^~@\"'".toList.contains c

/-- What the last two bytes of a reversed text are. -/
inductive LastBytes where
  | separator
  | other
  /-- They begin inside a character. -/
  | cut
deriving DecidableEq, Repr

/-- Looks at the last two bytes of a reversed text; a text of one byte has no two. -/
def lastBytes : List Char → LastBytes
  | [] => .other
  | [c] => if c.utf8Size ≤ 2 then .other else .cut
  | c :: d :: _ =>
      if c = ':' && d = ':' then .separator
      else if c.utf8Size = 1 then (if d.utf8Size = 1 then .other else .cut)
      else if c.utf8Size = 2 then .other else .cut

/-- The chain of names before a dot, in reverse: words joined by dots, each beginning like a word.
There is none when the chain hangs on a bracket or a literal. -/
def chainBefore? (before : List Char) : Option (List Char) :=
  let word := before.takeWhile isWordPart
  match word.getLast? with
  | none => none
  | some first =>
      if isAsciiDigit first then none
      else
        match _h : before.dropWhile isWordPart with
        | '.' :: rest => (chainBefore? rest).map fun chain => word ++ '.' :: chain
        | c :: _ =>
            if c == ')' || c == ']' || c == '"' || c == '\'' then none else some word
        | [] => some word
  termination_by before.length
  decreasing_by
    have := (List.dropWhile_suffix isWordPart (l := before)).length_le
    rw [_h] at this
    simp only [List.length_cons] at this
    omega

/-- The qualifier in front of a word and the number of bytes it takes, from the reversed text before
the word; `none` when something other than names is called. -/
def formBefore (before : List Char) : Except Abort (Option (Form × Nat)) :=
  match lastBytes before with
  | .cut => .error .cutCharacter
  | .separator =>
      let file := (before.drop 2).takeWhile fun c => !isFileBoundary c
      if file.isEmpty then .ok (some (.bare, 0))
      else .ok (some (.qualified (String.ofList file.reverse), byteLength file + 2))
  | .other =>
      match before with
      | '.' :: rest =>
          .ok ((chainBefore? rest).map fun chain =>
            (.attribute (String.ofList chain.reverse), byteLength chain + 1))
      | _ => .ok (some (.bare, 0))

/-! ## Arguments -/

/-- Opens a bracket. -/
def opens (c : Char) : Bool := c == '(' || c == '[' || c == '\x7b'

/-- Closes a bracket. -/
def closes (c : Char) : Bool := c == ')' || c == ']' || c == '\x7d'

/-- The lexemes after the opening parenthesis, which blanks may precede. -/
def afterParen? : List Lexeme → Option (List Lexeme)
  | .mark c :: rest =>
      if c = '(' then some rest else if isGap c then afterParen? rest else none
  | _ => none

/-- The text up to the bracket that closes the `depth` open ones, or all of it. -/
def argsText : Nat → List Lexeme → List Char
  | _, [] => []
  | depth, .mark c :: rest =>
      if opens c then c :: argsText (depth + 1) rest
      else if closes c then
        if depth ≤ 1 then [] else c :: argsText (depth - 1) rest
      else c :: argsText depth rest
  | depth, l :: rest => l.text ++ argsText depth rest

/-! ## The scan -/

/-- The candidate at a word, from the reversed text before it and the lexemes after it. -/
def candidateAt (before word : List Char) (rest : List Lexeme) :
    Except Abort (Option Candidate) := do
  match afterParen? rest with
  | none => .ok none
  | some inside =>
      if keywords.contains (String.ofList word) ||
          isDefLine (lineAround before (word ++ textOf rest)) || followsClass before then
        .ok none
      else
        let form ← formBefore before
        let offset := byteLength before
        .ok <| form.map fun (form, width) =>
          { lineOffset := before.count '\n'
            column := byteLength (before.takeWhile (· != '\n')) + 1
            name := String.ofList word
            form := form
            start := offset - width
            stop := offset + byteLength word
            args := String.ofList (argsText 1 inside) }

/-- The candidates among lexemes, after the reversed text before them. -/
def scanFrom : List Char → List Lexeme → Except Abort (List Candidate)
  | _, [] => .ok []
  | before, .word w :: rest => do
      let found ← candidateAt before w rest
      let others ← scanFrom (w.reverse ++ before) rest
      .ok (found.toList ++ others)
  | before, l :: rest => scanFrom (l.text.reverse ++ before) rest

/-- The candidates of a body, in order. -/
def scan (body : String) : Except Abort (List Candidate) := scanFrom [] (lexemes body.toList)

end ChangeScope.Call
