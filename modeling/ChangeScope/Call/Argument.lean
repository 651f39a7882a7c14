import ChangeScope.Binary64.Decimal
import ChangeScope.Text
import ChangeScope.Trace.Arguments

/-!
# Arguments of a call

The text between the parentheses of a call, as values. The grammar is flat: literals, names of the
caller's locals, and `name=value`; anything else stands for itself as text.
-/

set_option autoImplicit false

namespace ChangeScope.Call

open ChangeScope.Text

/-- One argument as it is written. -/
structure Argument where
  keyword : Option String
  value : Json
deriving Inhabited, BEq, Repr

/-! ## Pieces -/

/-- Where the cut into pieces stands: outside literals at a bracket depth, or inside one that a
quote opened, perhaps right after a backslash. -/
inductive Position where
  | outside (depth : Int)
  | inside (depth : Int) (quote : Char) (escaped : Bool)
deriving DecidableEq, Repr

/-- The position after a character. -/
def Position.next (c : Char) : Position → Position
  | .outside depth =>
      if c == '"' || c == '\'' then .inside depth c false
      else if c == '(' || c == '[' || c == '\x7b' then .outside (depth + 1)
      else if c == ')' || c == ']' || c == '\x7d' then .outside (depth - 1)
      else .outside depth
  | .inside depth quote true => .inside depth quote false
  | .inside depth quote false =>
      if c = '\\' then .inside depth quote true
      else if c = quote then .outside depth
      else .inside depth quote false

/-- The texts between the commas outside brackets and literals. -/
def cutAtCommas : Position → List Char → List (List Char)
  | _, [] => [[]]
  | position, c :: rest =>
      if c = ',' && position = .outside 0 then [] :: cutAtCommas position rest
      else
        match cutAtCommas (position.next c) rest with
        | [] => [[c]]
        | piece :: others => (c :: piece) :: others

/-- The pieces of an argument text, without the white space around them; empty ones count
nothing. -/
def pieces (text : List Char) : List (List Char) :=
  ((cutAtCommas (.outside 0) text).map trim).filter fun piece => !piece.isEmpty

/-- The name and the value of a piece `name=value`; `a == b`, `a <= b` and the like are none. -/
def splitKeyword? (piece : List Char) : Option (List Char × List Char) := do
  let (before, after) ← splitOnce ['='] piece
  let name := trim before
  if after.head? = some '=' || !isName name then none
  else some (name, trim after)

/-! ## Values -/

/-- The text between the delimiters of a string literal. -/
def stringLiteral? (text : List Char) : Option (List Char) :=
  let delimiters := [['"', '"', '"'], ['\'', '\'', '\''], ['"'], ['\'']]
  delimiters.findSome? fun quote =>
    match quote.isPrefixOf? text with
    | some rest => dropEnding? quote rest
    | none => none

/-- An integer of 64 bits with a sign. -/
def int64? (text : List Char) : Option Int :=
  let (negative, digits) := Binary64.takeSign text
  if digits.isEmpty || !digits.all isAsciiDigit then none
  else
    let n : Int := Binary64.digitsValue digits
    let value := if negative then -n else n
    if -0x8000000000000000 ≤ value && value < 0x8000000000000000 then some value else none

/-- A number, perhaps with underscores among its digits: an integer if it fits 64 bits, else a
finite binary64 number. -/
def numberLiteral? (text : List Char) : Option Json := do
  let first ← (text.dropWhile fun c => c == '-' || c == '+').head?
  if !isAsciiDigit first && first != '.' then none
  else
    let cleaned := text.filter (· != '_')
    match int64? cleaned with
    | some n => some (.int n)
    | none => do
        let x ← Binary64.ofText? cleaned
        if x.isFinite then some (.float x) else none

/-- The value of a piece: a string, a truth value, nothing, a number, a local of the caller, or
the text itself. -/
def valueOf (text : List Char) (locals : Members) : Json :=
  let text := trim text
  match stringLiteral? text with
  | some inner => .str (String.ofList inner)
  | none =>
      if text = "True".toList then .bool true
      else if text = "False".toList then .bool false
      else if text = "None".toList then .null
      else
        match numberLiteral? text with
        | some number => number
        | none =>
            if isName text then
              (locals.get? (String.ofList text)).getD (.str (String.ofList text))
            else .str (String.ofList text)

/-- The argument of a piece. -/
def argumentOf (locals : Members) (piece : List Char) : Argument :=
  match splitKeyword? piece with
  | some (name, value) => ⟨some (String.ofList name), valueOf value locals⟩
  | none => ⟨none, valueOf piece locals⟩

/-- The arguments of a call. -/
def arguments (text : String) (locals : Members) : List Argument :=
  (pieces text.toList).map (argumentOf locals)

/-! ## Fitting a signature -/

/-- Adds an argument where the parameters leave room for it: a positional one up to their number,
a keyword for a parameter that is not bound yet. -/
def bind (params : List String) (bound : Trace.Arguments) (argument : Argument) :
    Trace.Arguments :=
  match argument.keyword with
  | none =>
      if bound.positional.length < params.length then
        { bound with positional := bound.positional ++ [argument.value] }
      else bound
  | some name =>
      match params.idxOf? name with
      | some index =>
          if bound.positional.length ≤ index && (bound.keyword.get? name).isNone then
            { bound with keyword := bound.keyword.insert name argument.value }
          else bound
      | none => bound

/-- The arguments that fit the parameters. -/
def fit (arguments : List Argument) (params : List String) : Trace.Arguments :=
  arguments.foldl (bind params) {}

/-- The arguments of a call as its callee takes them; without known parameters there are none. -/
def resolve (text : String) (locals : Members) (params : Option (List String)) :
    Trace.Arguments :=
  match params with
  | none => {}
  | some params => fit (arguments text locals) params

end ChangeScope.Call
