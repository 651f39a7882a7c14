import ChangeScope.Python.Grammar
import ChangeScope.Python.Line

/-!
# Blocks

Logical lines as a tree: a line with its block. A line that ends in a colon takes the lines after it
that are deeper than the block it stands in; other lines may be as deep as they like. A source is
valid when every line is a statement or the header of one, and the parts of a statement, such as
`if` and `else`, stand in an order that makes sense.
-/

set_option autoImplicit false

namespace ChangeScope.Python

/-- A logical line and the lines of its block. -/
inductive LineTree where
  | node (line : Line) (block : List LineTree)
deriving Inhabited

/-- The nodes of a block of an indentation, and the lines after it, the first of which is less deep.
Each step takes a line or goes one level down, so twice the number of lines bounds the steps. -/
def nodesAt : Nat → Nat → List Line → List LineTree × List Line
  | 0, _, rest => ([], rest)
  | _ + 1, _, [] => ([], [])
  | steps + 1, level, l :: rest =>
      if l.indent < level then ([], l :: rest)
      else
        let (block, rest) :=
          match rest with
          | next :: _ =>
              if l.awaitsBlock && level < next.indent then nodesAt steps next.indent rest
              else ([], rest)
          | [] => ([], [])
        let (others, rest) := nodesAt steps level rest
        (.node l block :: others, rest)

/-- The tree of some lines. -/
def nodesOf (lines : List Line) : List LineTree := (nodesAt (2 * lines.length + 2) 0 lines).1

/-! ## Headers -/

/-- What a logical line is. -/
inductive Part where
  | simple
  | ifPart
  | elifPart
  | elsePart
  | loop
  | tryPart
  | exceptPart (group : Bool)
  | finallyPart
  | withPart
  | definition
  | classPart
  | matchPart
  | casePart
  | decorator
deriving DecidableEq, Repr

namespace Part

open Peg

private def w (text : String) : Peg Rule := word text

private def r (rule : Rule) : Peg Rule := .rule rule

/-- The type of a result; the last colon is the one of the header. -/
def resultType : Peg Rule :=
  all [w "->", r .typing, .many (all [w ":", r .typing, ahead (w ":")])]

/-- The header of a function up to the colon. -/
def definitionHeader : Peg Rule :=
  all [opt (w "async"), w "def", Grammar.name, opt (r .typeParameters), w "(",
    opt (Grammar.parameters true), w ")", opt resultType, w ":"]

/-- The headers of compound statements, up to the colon. -/
def headers : List (Part × Peg Rule) :=
  [ (.ifPart, all [w "if", r .expression, w ":"]),
    (.elifPart, all [w "elif", r .expression, w ":"]),
    (.elsePart, all [w "else", w ":"]),
    (.loop, all [w "while", r .expression, w ":"]),
    (.loop, all [opt (w "async"), w "for", r .targets, w "in", r .expressions, w ":"]),
    (.tryPart, all [w "try", w ":"]),
    (.exceptPart true, all [w "except", w "*", r .withItem, w ":"]),
    (.exceptPart false,
      all [w "except",
        opt (all [r .expression, opt (all [words ["as", ","], r .expression])]), w ":"]),
    (.finallyPart, all [w "finally", w ":"]),
    (.withPart,
      all [opt (w "async"), w "with",
        any [all [w "(", commaList (r .withItem), w ")", w ":"],
          all [commaList (r .withItem), w ":"]]]),
    (.definition, definitionHeader),
    (.classPart,
      all [w "class", Grammar.name, opt (r .typeParameters),
        opt (all [w "(", any [w ")", all [commaList (r .argument), w ")"]]]), w ":"]) ]

/-- The header of a statement that tells cases apart. -/
def matchHeader : Peg Rule := all [w "match", r .expressions, w ":"]

/-- The header of a case. -/
def caseHeader : Peg Rule :=
  all [w "case", commaList (r .casePattern), opt (all [w "if", r .expression]), w ":"]

/-- The line of a decorator. -/
def decoratorLine : Peg Rule := all [w "@", r .expression]

/-- Runs an expression over the tokens of a line. -/
def runOn (e : Peg Rule) (ts : List Token) : Option (List Token) :=
  run Grammar.rules (depthFor ts) e ts

/-- The expression takes all tokens. -/
def fits (e : Peg Rule) (ts : List Token) : Bool := (runOn e ts).any (·.isEmpty)

/-- Simple statements in a row take all tokens. -/
def areSimple (ts : List Token) : Bool := fits (r .simpleLine) ts

/-- What a line is and the tokens of the simple statements in it: all of them, or those after the
colon of a header. A line that waits for a block is a header and nothing else. -/
def ofLine? (ts : List Token) (awaitsBlock inMatch : Bool) : Option (Part × List Token) :=
  let asHeader (h : Part × Peg Rule) : Option (Part × List Token) :=
    match runOn h.2 ts with
    | some rest =>
        if awaitsBlock then (if rest.isEmpty then some (h.1, []) else none)
        else if h.1 != .matchPart && areSimple rest then some (h.1, rest) else none
    | none => none
  if inMatch then asHeader (.casePart, caseHeader)
  else
    match headers.findSome? asHeader with
    | some found => some found
    | none =>
        if awaitsBlock then asHeader (.matchPart, matchHeader)
        else if areSimple ts then some (.simple, ts)
        else if fits decoratorLine ts then some (.decorator, [])
        else none

end Part

/-! ## Order -/

/-- What may or must come next in a block because of what came before. -/
inductive Pending where
  | nothing
  | afterIf
  | afterLoop
  | afterTry
  | afterExcept (group : Bool)
  | afterTryElse
  | afterDecorator
deriving DecidableEq, Repr

namespace Pending

/-- Something must follow. -/
def isOpen (p : Pending) : Bool := p == .afterTry || p == .afterDecorator

/-- What is pending after a further part; `none` when the part may not stand there. -/
def next? (p : Pending) (part : Part) : Option Pending :=
  match part, p with
  | .elifPart, .afterIf => some .afterIf
  | .elifPart, _ => none
  | .elsePart, .afterIf => some .nothing
  | .elsePart, .afterLoop => some .nothing
  | .elsePart, .afterExcept _ => some .afterTryElse
  | .elsePart, _ => none
  | .exceptPart group, .afterTry => some (.afterExcept group)
  | .exceptPart false, .afterExcept true => none
  | .exceptPart _, .afterExcept group => some (.afterExcept group)
  | .exceptPart _, _ => none
  | .finallyPart, .afterTry => some .nothing
  | .finallyPart, .afterExcept _ => some .nothing
  | .finallyPart, .afterTryElse => some .nothing
  | .finallyPart, _ => none
  | .definition, .afterTry => none
  | .definition, _ => some .nothing
  | .classPart, .afterTry => none
  | .classPart, _ => some .nothing
  | .decorator, .afterTry => none
  | .decorator, _ => some .afterDecorator
  | part, p =>
      if p.isOpen then none
      else
        match part with
        | .ifPart => some .afterIf
        | .loop => some .afterLoop
        | .tryPart => some .afterTry
        | _ => some .nothing

end Pending

/-! ## Statements -/

/-- A line that is a statement or a part of one, the tokens of the simple statements in it, and the
statements of its block. -/
inductive Statement where
  | mk (part : Part) (line : Line) (simple : List Token) (block : List Statement)

mutual

/-- The statements of a block, if they stand in an order that makes sense. -/
def statementsFrom (inMatch : Bool) (p : Pending) : List LineTree → Option (List Statement)
  | [] => if p.isOpen then none else some []
  | .node l block :: rest => do
      let (part, simple) ← Part.ofLine? l.tokens l.awaitsBlock inMatch
      let q ← p.next? part
      let inner ← statementsIn (part == .matchPart) block
      let others ← statementsFrom inMatch q rest
      some (.mk part l simple inner :: others)

/-- The statements of the block of a line. -/
def statementsIn (inMatch : Bool) : List LineTree → Option (List Statement)
  | [] => some []
  | node :: rest => statementsFrom inMatch .nothing (node :: rest)

end

/-- The statements of a valid source. -/
def parse? (source : List Char) : Option (List Statement) := do
  let lines ← lines? source
  statementsFrom false .nothing (nodesOf lines)

end ChangeScope.Python
