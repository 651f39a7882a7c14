import ChangeScope.Python.Peg

/-!
# The grammar of Python statements

Expressions, simple statements and the parts of headers, as parsing expressions over the tokens of
one logical line. The grammar takes the statements of Python 3.12 and the printing, executing and
raising statements and nested parameters of Python 2. It leaves rules of meaning aside: parameters
and arguments stand in any order, a starred name is an expression, any type may be bound by others,
and what may not be deleted or unpacked is not told apart from what may.
-/

set_option autoImplicit false

namespace ChangeScope.Python

/-- The words that are no names. -/
def reserved : List (List Char) :=
  ["False", "None", "True", "and", "as", "assert", "async", "await", "break", "class", "continue",
    "def", "del", "elif", "else", "except", "finally", "for", "from", "global", "if", "import",
    "in", "is", "lambda", "nonlocal", "not", "or", "pass", "raise", "return", "try", "while",
    "with", "yield"].map String.toList

/-- The rules of the grammar. -/
inductive Rule where
  | expression
  | expressions
  | element
  | lambda
  | disjunction
  | conjunction
  | inversion
  | comparison
  | bitOr
  | bitXor
  | bitAnd
  | shift
  | sum
  | term
  | factor
  | power
  | primary
  | trailer
  | atom
  | parenthesized
  | bracketed
  | braced
  | string
  | field
  | slice
  | arguments
  | argument
  | comprehension
  | yielded
  | typing
  /-- A type, perhaps bound by others after colons. -/
  | bounded
  /-- One parameter; only outside lambdas it may be annotated. -/
  | parameter (annotated : Bool)
  | nested
  | typeParameters
  | targets
  | target
  | partTarget
  | casePattern
  | closedPattern
  /-- A value, perhaps assigned to targets. -/
  | assigned
  | simple
  | simpleLine
  | withItem
deriving DecidableEq, Repr

namespace Grammar

open Peg

private abbrev P := Peg Rule

private def r (name : Rule) : P := .rule name

private def w (text : String) : P := word text

/-- An identifier. -/
def name : Peg Rule := .token fun t => t.kind = .name && !reserved.contains t.text

private def kind (k : Kind) : P := .token fun t => t.kind = k

/-- Operands with operators between them. -/
private def chain (operand : Rule) (operators : List String) : P :=
  sepBy (r operand) (words operators)

/-- The rest of a list after its first item, with a comma before each further one. -/
private def furtherItems (item : P) : P := opt (all [w ",", opt (commaList item)])

/-- Items between brackets, the opening one apart. -/
private def listUpTo (close : String) (item : P) : P :=
  any [w close, all [commaList item, w close]]

private def signed : P :=
  all [opt (w "-"), kind .number, opt (all [words ["+", "-"], kind .number])]

private def dotted : P := sepBy name (w ".")

private def imported : P := all [dotted, opt (all [w "as", name])]

/-- Parameters with commas between them. -/
def parameters (annotated : Bool) : Peg Rule := commaList (r (.parameter annotated))

/-- The end of a simple statement. -/
private def stop : P := ahead (any [w ";", .unless (.token fun _ => true)])

/-- The parsing expression of a rule. -/
def rules : Rule → Peg Rule
  -- Expressions
  | .expression =>
      any [
        all [name, w ":=", r .expression],
        all [r .disjunction, opt (all [w "if", r .disjunction, w "else", r .expression])]]
  | .expressions => commaList (any [r .expression, all [w "*", r .bitOr]])
  | .element => any [r .yielded, r .expression, all [w "*", r .expression]]
  | .lambda => all [w "lambda", opt (parameters false), w ":", r .expression]
  | .disjunction => chain .conjunction ["or"]
  | .conjunction => chain .inversion ["and"]
  | .inversion => any [all [w "not", r .inversion], r .lambda, r .comparison]
  | .comparison =>
      sepBy (r .bitOr)
        (any [words ["==", "!=", "<>", "<", "<=", ">", ">=", "in"], all [w "not", w "in"],
          all [w "is", opt (w "not")]])
  | .bitOr => chain .bitXor ["|"]
  | .bitXor => chain .bitAnd ["^"]
  | .bitAnd => chain .shift ["&"]
  | .shift => chain .sum ["<<", ">>"]
  | .sum => chain .term ["+", "-"]
  | .term => chain .factor ["*", "/", "//", "%", "@"]
  | .factor => any [all [words ["+", "-", "~"], r .factor], r .power]
  | .power =>
      all [any [all [w "await", r .primary], r .primary], opt (all [w "**", r .factor])]
  | .primary => all [r .atom, .many (r .trailer)]
  | .trailer =>
      any [all [w ".", name], all [w "(", r .arguments],
        all [w "[", commaList (r .slice), w "]"]]
  | .atom =>
      any [name, words ["True", "False", "None", "...", "async", "await"], kind .number,
        r .string, r .parenthesized, r .bracketed, r .braced, all [w "*", name]]
  | .parenthesized =>
      all [w "(",
        any [w ")",
          all [r .element,
            any [all [r .comprehension, w ")"], all [furtherItems (r .element), w ")"]]]]]
  | .bracketed =>
      all [w "[",
        any [w "]",
          all [r .element,
            any [all [r .comprehension, w "]"], all [furtherItems (r .element), w "]"]]]]]
  | .braced =>
      let pair := any [all [w "**", r .expression], all [r .expression, w ":", r .expression]]
      all [w "\x7b",
        any [w "\x7d",
          all [w "**", r .expression, furtherItems pair, w "\x7d"],
          all [r .element,
            any [
              all [w ":", r .expression,
                any [all [r .comprehension, w "\x7d"], all [furtherItems pair, w "\x7d"]]],
              all [r .comprehension, w "\x7d"],
              all [furtherItems (r .element), w "\x7d"]]]]]
  | .string =>
      let part :=
        any [kind .string,
          all [kind .formatStart, .many (any [kind .formatText, r .field]), kind .formatEnd]]
      all [part, .many part]
  | .field =>
      all [w "\x7b", any [r .yielded, r .expressions], opt (w "="), opt (all [w "!", name]),
        opt (all [w ":", .many (any [kind .formatText, r .field])]), w "\x7d"]
  | .slice =>
      let rest := all [w ":", opt (r .expression), opt (all [w ":", opt (r .expression)])]
      any [rest, all [r .expression, opt rest], all [w "*", r .expression]]
  | .arguments =>
      -- after the opening parenthesis: arguments, or one comprehension
      any [w ")",
        all [.unless (all [name, w "="]), r .expression,
          any [all [r .comprehension, w ")"], all [furtherItems (r .argument), w ")"]]],
        all [commaList (r .argument), w ")"]]
  | .argument =>
      any [all [name, w "=", r .expression], all [words ["*", "**"], r .expression],
        r .expression]
  | .comprehension =>
      let source := all [opt (w "async"), w "for", r .targets, w "in", sepBy (r .disjunction) (w ",")]
      all [source, .many (any [source, all [w "if", r .disjunction]]), opt (w ",")]
  | .yielded => all [w "yield", any [all [w "from", r .expression], opt (r .expressions)]]
  | .typing => any [r .expression, all [words ["*", "**"], r .bitOr]]
  | .bounded => sepBy (r .typing) (w ":")
  -- Parameters
  | .parameter annotated =>
      let type := if annotated then opt (all [w ":", r .bounded]) else .empty
      any [
        all [any [name, r .nested], type, opt (all [w "=", r .expression])],
        all [w "*", opt (all [name, type])],
        all [w "**", name, type],
        w "/"]
  | .nested => all [w "(", commaList (any [name, r .nested]), w ")"]
  | .typeParameters =>
      all [w "[", commaList (r .bounded), w "]"]
  -- Targets
  | .targets => commaList (r .target)
  | .target =>
      any [r .partTarget, name, all [w "*", any [r .partTarget, name]],
        all [w "(", listUpTo ")" (r .target)],
        all [w "[", listUpTo "]" (r .target)]]
  | .partTarget =>
      -- an attribute or an item of something: the last trailer is no call
      let next := ahead (words ["(", "[", "."])
      all [r .atom, next, .many (all [r .trailer, next]),
        any [all [w ".", name], all [w "[", commaList (r .slice), w "]"]]]
  -- Patterns of cases
  | .casePattern =>
      any [
        all [name, w "=", r .casePattern],
        all [words ["*", "**"], name],
        all [sepBy (r .closedPattern) (w "|"), opt (all [w "as", name])]]
  | .closedPattern =>
      let entry :=
        any [all [w "**", name], all [r .closedPattern, w ":", r .casePattern]]
      any [signed, r .string, words ["True", "False", "None"],
        all [dotted, opt (all [w "(", listUpTo ")" (r .casePattern)])],
        all [w "(", listUpTo ")" (r .casePattern)],
        all [w "[", listUpTo "]" (r .casePattern)],
        all [w "\x7b", listUpTo "\x7d" entry]]
  -- Statements
  | .assigned =>
      let marks :=
        ["=", "+=", "-=", "*=", "/=", "//=", "%=", "&=", "|=", "^=", "<<=", ">>=", "**=", "@="]
      any [
        all [r .targets,
          any [all [w ":", r .bounded, opt (all [w "=", r .assigned])],
            all [words marks, r .assigned]]],
        r .yielded, r .expressions]
  | .simple =>
      any [
        all [words ["pass", "break", "continue"], stop],
        all [w "return", opt (r .expressions)],
        all [w "raise", opt (r .expressions), opt (all [w "from", r .expression])],
        all [words ["global", "nonlocal"], sepBy name (w ",")],
        all [w "del", r .expressions],
        all [w "assert", sepBy (r .expression) (w ",")],
        all [w "import", commaList imported],
        all [w "from",
          any [all [.many (words [".", "..."]), dotted],
            all [words [".", "..."], .many (words [".", "..."])]],
          w "import",
          any [w "*", all [w "(", commaList imported, w ")"], commaList imported]],
        all [r .assigned, stop],
        all [w "type", r .bounded, w "=", r .bounded, stop],
        all [w "print",
          any [
            all [w ">>", r .expression, .many (all [w ",", r .expression]), opt (w ",")],
            commaList (r .expression)]],
        all [w "exec", any [r .string, name],
          opt (all [w "in", sepBy (r .expression) (w ",")])]]
  | .simpleLine => all [sepBy (r .simple) (w ";"), opt (w ";")]
  | .withItem => all [r .expression, opt (all [w "as", r .expression])]

end Grammar

end ChangeScope.Python
