import ChangeScope.Text
import ChangeScope.Text.Letter

/-!
# Tokens of Python source

A source is cut into tokens. Each token carries the gap before it: blanks, comments, continued
line ends, and the ends of lines that hold no token or lie inside brackets. So the gaps and
texts of all tokens in a row are the source again, up to the gap at its end. A formatted string is
cut into its parts: the opening, pieces of text, fields in braces with tokens of their own, and
the closing.
-/

set_option autoImplicit false

namespace ChangeScope.Python

open ChangeScope.Text

/-- What a token is. -/
inductive Kind where
  | name
  | number
  | string
  | formatStart
  | formatText
  | formatEnd
  | mark
  | lineEnd
deriving DecidableEq, Repr, Inhabited

/-- A token, with the gap before it and the line where it begins, from 1. -/
structure Token where
  gap : List Char
  kind : Kind
  text : List Char
  line : Nat
deriving DecidableEq, Repr, Inhabited

/-- The line where a token ends. -/
def Token.lastLine (t : Token) : Nat := t.line + t.text.count '\n'

/-- The token is this word or mark. -/
def Token.is (t : Token) (text : String) : Bool :=
  (t.kind = .mark || t.kind = .name) && t.text = text.toList

/-! ## Gaps -/

/-- A blank within a line: white space, or one of three marks without width. -/
def isBlankInLine (c : Char) : Bool :=
  (isBlank c && c != '\n') || c == '\ufeff' || c == '\u2060' || c == '\u200b'

/-- A gap and the text after it. Line ends belong to it when `across`; a comment reaches to the end
of its line. A backslash joins a line with the next one. -/
def takeGap (across : Bool) : Bool → List Char → List Char × List Char
  | _, [] => ([], [])
  | _, '\n' :: rest =>
      if across then
        let (gap, after) := takeGap across false rest
        ('\n' :: gap, after)
      else ([], '\n' :: rest)
  | true, c :: rest =>
      let (gap, after) := takeGap across true rest
      (c :: gap, after)
  | false, '\\' :: '\n' :: rest =>
      let (gap, after) := takeGap across false rest
      ('\\' :: '\n' :: gap, after)
  | false, '\\' :: '\r' :: '\n' :: rest =>
      let (gap, after) := takeGap across false rest
      ('\\' :: '\r' :: '\n' :: gap, after)
  | false, c :: rest =>
      if c == '#' then
        let (gap, after) := takeGap across true rest
        (c :: gap, after)
      else if isBlankInLine c then
        let (gap, after) := takeGap across false rest
        (c :: gap, after)
      else ([], c :: rest)

/-! ## Numbers -/

/-- Digits with single underscores between them. -/
private def isDigitRun (isDigit : Char → Bool) : List Char → Bool
  | [] => false
  | [c] => isDigit c
  | c :: '_' :: rest => isDigit c && isDigitRun isDigit rest
  | c :: rest => isDigit c && isDigitRun isDigit rest

/-- Digits with single underscores after them. -/
private def isLooseRun (run : List Char) : Bool :=
  isDigitRun isAsciiDigit run || isDigitRun isAsciiDigit run.dropLast && run.getLast? == some '_'

def takeRun (isDigit : Char → Bool) (cs : List Char) : List Char × List Char :=
  let member (c : Char) : Bool := isDigit c || c == '_'
  (cs.takeWhile member, cs.dropWhile member)

/-- A number ends before a character that begins no word, or before one of these words. -/
private def endsNumber (rest : List Char) : Bool :=
  match rest with
  | [] => true
  | c :: _ =>
      !(isIdentifierStart c || isAsciiDigit c || !isAscii c) ||
        ["and", "else", "for", "if", "in", "is", "not", "or"].any fun word =>
          word.toList.isPrefixOf rest

def isHexDigit (c : Char) : Bool :=
  isAsciiDigit c || ('a' ≤ c && c ≤ 'f') || ('A' ≤ c && c ≤ 'F')

/-- An integer in another base after its two letters; an underscore may come first. -/
def takeBased (isDigit : Char → Bool) (lead rest : List Char) :
    Option (List Char × List Char) :=
  let (run, after) := takeRun isDigit rest
  let digits := match run with | '_' :: more => more | more => more
  if isDigitRun isDigit digits && endsNumber after then some (lead ++ run, after) else none

/-- The sign of an exponent, if there is one. -/
def takeSign (cs : List Char) : List Char × List Char :=
  match cs with
  | '+' :: more => (['+'], more)
  | '-' :: more => (['-'], more)
  | more => ([], more)

/-- The exponent of a number, if there is one. -/
def takeExponent (cs : List Char) : Option (List Char × List Char) :=
  match cs with
  | e :: rest =>
      if e == 'e' || e == 'E' then
        let (sign, digits) := takeSign rest
        let (run, after) := takeRun isAsciiDigit digits
        if run.isEmpty then some ([], cs)
        else if isLooseRun run then some (e :: sign ++ run, after)
        else none
      else some ([], cs)
  | [] => some ([], [])

/-- The fraction of a number, if there is one. -/
def takeFraction (cs : List Char) : List Char × List Char :=
  match cs with
  | '.' :: more =>
      let (run, after) := takeRun isAsciiDigit more
      ('.' :: run, after)
  | more => ([], more)

/-- The letter of an imaginary number, or of a long one if it is whole. -/
def takeSuffix (whole : Bool) (cs : List Char) : List Char × List Char :=
  match cs with
  | c :: more =>
      if c == 'j' || c == 'J' || (whole && (c == 'l' || c == 'L')) then ([c], more)
      else ([], cs)
  | [] => ([], [])

/-- A decimal number: digits, a fraction, an exponent, and a letter for an imaginary or a long
one. -/
def takeDecimal (cs : List Char) : Option (List Char × List Char) := do
  let (whole, rest) := takeRun isAsciiDigit cs
  if !whole.isEmpty && !isLooseRun whole then none
  else
    let (fraction, rest) := takeFraction rest
    if 1 < fraction.length && !isLooseRun fraction.tail then none
    else
      let (exponent, rest) ← takeExponent rest
      let (letter, rest) := takeSuffix (fraction.isEmpty && exponent.isEmpty) rest
      if !endsNumber rest then none else some (whole ++ fraction ++ exponent ++ letter, rest)

/-- A number and the text after it. -/
def takeNumber (cs : List Char) : Option (List Char × List Char) :=
  match cs with
  | '0' :: 'x' :: rest => takeBased isHexDigit ['0', 'x'] rest
  | '0' :: 'X' :: rest => takeBased isHexDigit ['0', 'X'] rest
  | '0' :: 'o' :: rest => takeBased (fun c => '0' ≤ c && c ≤ '7') ['0', 'o'] rest
  | '0' :: 'O' :: rest => takeBased (fun c => '0' ≤ c && c ≤ '7') ['0', 'O'] rest
  | '0' :: 'b' :: rest => takeBased (fun c => c == '0' || c == '1') ['0', 'b'] rest
  | '0' :: 'B' :: rest => takeBased (fun c => c == '0' || c == '1') ['0', 'B'] rest
  | cs => takeDecimal cs

/-! ## Strings -/

/-- A quote, once or three times. -/
structure Quote where
  char : Char
  block : Bool
deriving DecidableEq, Repr

/-- The text of a quote. -/
def Quote.text (q : Quote) : List Char := if q.block then [q.char, q.char, q.char] else [q.char]

/-- The quote at the beginning of a text that begins with a quote character. -/
def quoteAt (c : Char) (rest : List Char) : Quote := ⟨c, [c, c].isPrefixOf rest⟩

/-- The rest of a string up to its closing quote, and the text after it. -/
def takeString (q : Quote) : List Char → Option (List Char × List Char)
  | [] => none
  | ['\\'] => none
  | '\\' :: c :: rest =>
      (takeString q rest).map fun (inner, after) => ('\\' :: c :: inner, after)
  | c :: rest =>
      match q.text.isPrefixOf? (c :: rest) with
      | some after => some (q.text, after)
      | none =>
          if c == '\n' && !q.block then none
          else (takeString q rest).map fun (inner, after) => (c :: inner, after)

/-- A piece of a formatted string before a field or the closing quote. Doubled braces stand for
themselves, and so does the name of a character in braces after `\N` unless the string is raw. -/
def takeFormatText (q : Quote) (raw : Bool) : List Char → Option (List Char × List Char)
  | [] => none
  | ['\\'] => none
  | '\x7b' :: '\x7b' :: rest =>
      (takeFormatText q raw rest).map fun (inner, after) => ('\x7b' :: '\x7b' :: inner, after)
  | '\x7d' :: '\x7d' :: rest =>
      (takeFormatText q raw rest).map fun (inner, after) => ('\x7d' :: '\x7d' :: inner, after)
  | '\x7d' :: _ => none
  | '\x7b' :: rest => some ([], '\x7b' :: rest)
  | '\\' :: 'N' :: '\x7b' :: rest =>
      if raw then
        (takeFormatText q raw ('\x7b' :: rest)).map fun (inner, after) =>
          ('\\' :: 'N' :: inner, after)
      else
        (takeFormatText q raw rest).map fun (inner, after) =>
          ('\\' :: 'N' :: '\x7b' :: inner, after)
  | '\\' :: c :: rest =>
      if c == '\x7b' || c == '\x7d' then
        (takeFormatText q raw (c :: rest)).map fun (inner, after) => ('\\' :: inner, after)
      else
        (takeFormatText q raw rest).map fun (inner, after) => ('\\' :: c :: inner, after)
  | c :: rest =>
      match q.text.isPrefixOf? (c :: rest) with
      | some _ => some ([], c :: rest)
      | none =>
          if c == '\n' && !q.block then none
          else (takeFormatText q raw rest).map fun (inner, after) => (c :: inner, after)
  termination_by cs => cs.length

/-- A piece of the format of a field. -/
def takeFormatSpec (q : Quote) : List Char → Option (List Char × List Char)
  | [] => none
  | c :: rest =>
      if c == '\x7b' || c == '\x7d' then some ([], c :: rest)
      else if q.text.isPrefixOf (c :: rest) || (c == '\n' && !q.block) then none
      else (takeFormatSpec q rest).map fun (inner, after) => (c :: inner, after)

/-! ## Marks -/

/-- The marks, longer ones before their beginnings. -/
def marks : List (List Char) :=
  ["**=", "//=", ">>=", "<<=", "...", "**", "//", ">>", "<<", "<=", ">=", "<>", "==", "!=", "->",
    "+=", "-=", "*=", "/=", "%=", "&=", "|=", "^=", "@=", ":=", "+", "-", "*", "/", "%", "@", "&", "|",
    "^", "~", "<", ">", "(", ")", "[", "]", "\x7b", "\x7d", ",", ":", ".", ";", "="].map
      String.toList

/-- The longest mark at the beginning of a text. -/
def takeMark (cs : List Char) : Option (List Char × List Char) :=
  marks.findSome? fun mark => (mark.isPrefixOf? cs).map fun rest => (mark, rest)

/-! ## The cut -/

/-- What is open at a position: a bracket, the text of a formatted string, a field of it, or the
format of a field. -/
inductive Open where
  | bracket (close : Char)
  | format (quote : Quote) (raw : Bool)
  | field
  | spec
deriving DecidableEq, Repr

/-- Where the cut stands: what is open, innermost first, whether the line has no token yet, and the
number of the line. -/
structure Position where
  opened : List Open
  fresh : Bool
  line : Nat
deriving DecidableEq, Repr

/-- The quote of the innermost formatted string. -/
def quoteOf : List Open → Quote
  | [] => ⟨'"', false⟩
  | .format q _ :: _ => q
  | _ :: rest => quoteOf rest

/-- The bracket that closes an opening one. -/
def closing? : Char → Option Char
  | '(' => some ')'
  | '[' => some ']'
  | '\x7b' => some '\x7d'
  | _ => none

/-- What is open after a mark; `none` when a bracket does not fit. -/
def openAfter (opened : List Open) (mark : List Char) : Option (List Open) :=
  match mark with
  | [c] =>
      match closing? c with
      | some close => some (.bracket close :: opened)
      | none =>
          if c == ')' || c == ']' || c == '\x7d' then
            match opened with
            | .bracket close :: rest => if close = c then some rest else none
            | .field :: rest => if c = '\x7d' then some rest else none
            | _ => none
          else some opened
  | _ => some opened

/-- Letters in front of a quote say what kind of string it opens, and whether it is raw. -/
def stringKind? (lead : List Char) : Option (Kind × Bool) :=
  let letters := lead.map Char.toLower
  if letters.isEmpty || !letters.all ['f', 'r', 'b', 'u'].contains then none
  else if letters.contains 'f' then some (.formatStart, letters.contains 'r')
  else some (.string, letters.contains 'r')

/-- A string of a kind from its quote on: its text, what is open after it, and the text after it. -/
def cutString (kind : Kind) (raw : Bool) (opened : List Open) (lead : List Char)
    (c : Char) (rest : List Char) : Option (Kind × List Char × List Open × List Char) :=
  let q := quoteAt c rest
  let inner := rest.drop (q.text.length - 1)
  if kind = .formatStart then some (kind, lead ++ q.text, .format q raw :: opened, inner)
  else (takeString q inner).map fun (body, after) => (kind, lead ++ q.text ++ body, opened, after)

/-- The token at the beginning of a text that is no gap: its kind and text, what is open after it,
and the text after it. -/
def cutToken (opened : List Open) (c : Char) (rest : List Char) :
    Option (Kind × List Char × List Open × List Char) :=
  if c == '"' || c == '\'' then cutString .string false opened [] c rest
  else if isIdentifierStart c then
    let word := c :: rest.takeWhile isIdentifierPart
    let after := rest.dropWhile isIdentifierPart
    match after, stringKind? word with
    | q :: more, some (kind, raw) =>
        if q == '"' || q == '\'' then cutString kind raw opened word q more
        else some (.name, word, opened, after)
    | _, _ => some (.name, word, opened, after)
  else if isAsciiDigit c || (c == '.' && rest.head?.any isAsciiDigit) then
    (takeNumber (c :: rest)).map fun (text, after) => (.number, text, opened, after)
  else if c == ':' && opened.head? = some .field then
    some (.mark, [':'], .spec :: opened.tail, rest)
  else if c == '!' && opened.head? = some .field && rest.head? != some '=' then
    some (.mark, ['!'], opened, rest)
  else
    match takeMark (c :: rest) with
    | none => none
    | some (mark, after) =>
        (openAfter opened mark).map fun opened => (.mark, mark, opened, after)

/-- The part of a formatted string at the beginning of a text. -/
def cutFormat (opened : List Open) (q : Quote) (raw : Bool) (cs : List Char) :
    Option (Kind × List Char × List Open × List Char) :=
  match q.text.isPrefixOf? cs with
  | some after => some (.formatEnd, q.text, opened.tail, after)
  | none =>
      match takeFormatText q raw cs with
      | none => none
      | some ([], after) => some (.mark, ['\x7b'], .field :: opened, after.tail)
      | some (text, after) => some (.formatText, text, opened, after)

/-- The part of a format at the beginning of a text. -/
def cutSpec (opened : List Open) (cs : List Char) :
    Option (Kind × List Char × List Open × List Char) :=
  match cs with
  | '\x7b' :: rest => some (.mark, ['\x7b'], .field :: opened, rest)
  | '\x7d' :: rest => some (.mark, ['\x7d'], opened.tail, rest)
  | cs =>
      (takeFormatSpec (quoteOf opened) cs).map fun (text, after) =>
        (.formatText, text, opened, after)

/-- The tokens of a text and the gap after the last one; `none` when it cannot be cut. Every token
takes a character, so the length of the text bounds the steps. -/
def cut : Nat → Position → List Char → Option (List Token × List Char)
  | 0, _, _ => none
  | steps + 1, p, cs =>
      let emit (gap : List Char)
          (part : Option (Kind × List Char × List Open × List Char)) :
          Option (List Token × List Char) := do
        let (kind, text, opened, after) ← part
        let line := p.line + gap.count '\n'
        let token : Token := ⟨gap, kind, text, line⟩
        let (tokens, final) ← cut steps ⟨opened, false, token.lastLine⟩ after
        some (token :: tokens, final)
      match p.opened with
      | .format q raw :: _ => emit [] (cutFormat p.opened q raw cs)
      | .spec :: _ => emit [] (cutSpec p.opened cs)
      | _ =>
          match takeGap (p.fresh || !p.opened.isEmpty) false cs with
          | (gap, []) =>
              if p.opened.isEmpty then some ([], if p.fresh then gap else []) else none
          | (gap, '\n' :: after) => do
              let line := p.line + gap.count '\n'
              let (tokens, final) ← cut steps ⟨p.opened, true, line + 1⟩ after
              some (⟨gap, .lineEnd, ['\n'], line⟩ :: tokens, final)
          | (gap, c :: rest) => emit gap (cutToken p.opened c rest)

/-- The tokens of a source and the gap after the last one. A byte order mark in front counts
nothing. -/
def tokens? (source : List Char) : Option (List Token × List Char) :=
  let text := match source with | '\ufeff' :: rest => rest | rest => rest
  cut (text.length + 2) ⟨[], true, 1⟩ text

end ChangeScope.Python
