import ChangeScope.Python.Block
import ChangeScope.Syntax

/-!
# Syntax trees of valid sources

The statements of a source as a syntax tree. The tree shows what functions and imports need: the
nodes of function definitions with their names, parameters and bodies, those of import statements,
and the statements that hold such nodes. A definition reaches to the last line of its block and the
comments right after it that are indented like the block; decorators stand outside.
-/

set_option autoImplicit false

namespace ChangeScope.Python

open Syntax (Label Point)

/-! ## Lines -/

namespace Statement

/-- The line of a statement. -/
def line : Statement → Line
  | .mk _ l _ _ => l

mutual

/-- The last line of a statement. -/
def lastLine : Statement → Line
  | .mk _ l _ block => lastLineOf l block

/-- The last line of a block after a line. -/
def lastLineOf (l : Line) : List Statement → Line
  | [] => l
  | s :: rest => lastLineOf (lastLine s) rest

end

/-- The last of the comments behind a statement that belong to it: they come right after its block
and are indented like it. -/
def lastComment? (s : Statement) : Option Comment :=
  match s with
  | .mk _ _ _ [] => none
  | .mk _ _ _ (inner :: _) =>
      (s.lastLine.after.takeWhile fun c => inner.line.indent ≤ c.indent).getLast?

end Statement

/-! ## Places -/

/-- A place in a source. -/
structure Mark where
  byte : Nat
  point : Point
deriving Repr, Inhabited

/-- The place behind a further text. -/
def Mark.after (m : Mark) (text : List Char) : Mark :=
  ⟨m.byte + Text.byteLength text, text.foldl Point.step m.point⟩

/-- A token with the places where it begins and ends. -/
structure Placed where
  token : Token
  start : Mark
  stop : Mark
deriving Repr, Inhabited

/-- Tokens and the gaps before them from a place on. -/
def placeFrom (m : Mark) : List Token → List Placed
  | [] => []
  | t :: rest =>
      let start := m.after t.gap
      let stop := start.after t.text
      ⟨t, start, stop⟩ :: placeFrom stop rest

/-- The rows of a source and the places where they begin. -/
abbrev Rows := List (Mark × List Char)

/-- Rows from a place on. -/
def rowsFrom (m : Mark) : List (List Char) → Rows
  | [] => []
  | row :: rest => (m, row) :: rowsFrom ((m.after row).after ['\n']) rest

/-- The rows of a source. A byte order mark in front belongs to no row. -/
def rowsOf (source : List Char) : Rows :=
  match source with
  | '\ufeff' :: rest => rowsFrom (Mark.after ⟨0, ⟨0, 0⟩⟩ ['\ufeff']) (Text.rows rest)
  | rest => rowsFrom ⟨0, ⟨0, 0⟩⟩ (Text.rows rest)

namespace Rows

/-- The place where a line begins. -/
def start (rows : Rows) (line : Nat) : Mark := ((rows[line - 1]?).map (·.1)).getD ⟨0, ⟨0, 0⟩⟩

/-- The place where a line ends. -/
def stop (rows : Rows) (line : Nat) : Mark :=
  match rows[line - 1]? with
  | some (m, row) => m.after row
  | none => ⟨0, ⟨0, 0⟩⟩

/-- The tokens of a logical line with their places. Before the first of them are only blanks. -/
def tokens (rows : Rows) (l : Line) : List Placed :=
  let blanks := (Text.rows l.head.gap).getLast?.getD []
  placeFrom (rows.start l.first) ({ l.head with gap := blanks } :: l.tail)

/-- The place where a statement ends. -/
def endOf (rows : Rows) (s : Statement) : Mark :=
  match s.lastComment? with
  | some comment => rows.stop comment.line
  | none => (((rows.tokens s.lastLine).getLast?).map (·.stop)).getD ⟨0, ⟨0, 0⟩⟩

end Rows

/-! ## Nodes -/

/-- A node from one place to another. -/
def nodeAt (kind : String) (field : Option String) (start stop : Mark)
    (children : List Syntax.Node) : Syntax.Node :=
  .mk { kind := kind, field := field, startByte := start.byte, endByte := stop.byte
        start := start.point, stop := stop.point } children

/-- A node for some tokens. -/
def nodeOver (kind : String) (field : Option String) (tokens : List Placed)
    (children : List Syntax.Node) : Syntax.Node :=
  nodeAt kind field ((tokens.head?.map (·.start)).getD ⟨0, ⟨0, 0⟩⟩)
    ((tokens.getLast?.map (·.stop)).getD ⟨0, ⟨0, 0⟩⟩) children

/-- The node of a word or mark, which is its own kind. -/
def wordNode (p : Placed) : Syntax.Node :=
  .mk { kind := String.ofList p.token.text, named := false, startByte := p.start.byte
        endByte := p.stop.byte, start := p.start.point, stop := p.stop.point } []

/-! ## Parameters -/

private def skip (rule : Peg Rule) (ps : List Placed) : List Placed :=
  let tokens := ps.map (·.token)
  ps.drop (ps.length - ((Part.runOn rule tokens).getD tokens).length)

private def skipAfter (text : String) (rule : Peg Rule) (ps : List Placed) : List Placed :=
  skip (Peg.opt (Peg.all [Peg.word text, rule])) ps

private def skipTyping (ps : List Placed) : List Placed := skipAfter ":" (.rule .bounded) ps

private def skipDefault (ps : List Placed) : List Placed := skipAfter "=" (.rule .expression) ps

/-- What comes before the rest of a list. -/
private def before (ps rest : List Placed) : List Placed := ps.take (ps.length - rest.length)

/-- The node of a parameter that takes one argument: `pattern` gives its name, or names, as a node
with a field. A type and a default may follow. -/
private def parameterNode (pattern : Option String → Syntax.Node) (ps rest : List Placed) :
    Syntax.Node × List Placed :=
  let typed := skipTyping rest
  let left := skipDefault typed
  let whole := before ps left
  let node :=
    match decide (typed.length < rest.length), decide (left.length < typed.length) with
    | false, false => pattern none
    | true, false => nodeOver "typed_parameter" none whole [pattern none]
    | false, true => nodeOver "default_parameter" none whole [pattern (some "name")]
    | true, true => nodeOver "typed_default_parameter" none whole [pattern (some "name")]
  (node, left)

/-- The nodes of the parameters from a place in the parameter list on. -/
private def parameterNodes : Nat → List Placed → List Syntax.Node
  | 0, _ => []
  | _ + 1, [] => []
  | steps + 1, p :: rest =>
      let t := p.token
      if t.is ")" then []
      else if t.is "," then parameterNodes steps rest
      else if t.is "/" then nodeOver "positional_separator" none [p] [] :: parameterNodes steps rest
      else if t.is "*" || t.is "**" then
        match rest with
        | [] => []
        | u :: more =>
            if u.token.kind = .name then
              let kind := if t.is "*" then "list_splat_pattern" else "dictionary_splat_pattern"
              let splat := nodeOver kind none [p, u] [nodeOver "identifier" none [u] []]
              let left := skipTyping more
              let node :=
                if left.length < more.length then
                  nodeOver "typed_parameter" none (before (p :: rest) left) [splat]
                else splat
              node :: parameterNodes steps left
            else nodeOver "keyword_separator" none [p] [] :: parameterNodes steps rest
      else
        let nested := t.is "("
        let after := if nested then skip (.rule .nested) (p :: rest) else rest
        let kind := if nested then "tuple_pattern" else "identifier"
        let pattern := fun field => nodeOver kind field (before (p :: rest) after) []
        let (node, left) := parameterNode pattern (p :: rest) after
        node :: parameterNodes steps left

/-- The node of a parameter list, from its opening bracket on. -/
private def parametersNode (ps : List Placed) : Syntax.Node :=
  let list := before ps (skip (Peg.all [Peg.word "(", Peg.opt (Grammar.parameters true),
    Peg.word ")"]) ps)
  nodeOver "parameters" (some "parameters") list (parameterNodes list.length (list.drop 1))

/-! ## Statements -/

/-- The simple statements between semicolons. -/
def simpleStatements : List Placed → List (List Placed)
  | [] => [[]]
  | p :: rest =>
      match simpleStatements rest with
      | [] => [[p]]
      | s :: others => if p.token.is ";" then [] :: s :: others else (p :: s) :: others

/-- The node of a simple statement that imports. One from `__future__` is of a kind of its own. -/
def importNode? (ps : List Placed) : Option Syntax.Node :=
  match ps with
  | [] => none
  | p :: rest =>
      if p.token.is "import" then some (nodeOver "import_statement" none ps [])
      else if p.token.is "from" then
        let fromFuture :=
          match rest with
          | u :: v :: _ => u.token.is "__future__" && v.token.is "import"
          | _ => false
        let kind := if fromFuture then "future_import_statement" else "import_from_statement"
        some (nodeOver kind none ps [])
      else none

/-- The nodes before the body of a definition: `def`, or `async` and `def`, the name and the
parameters. -/
def headerNodes (ps : List Placed) : List Syntax.Node :=
  let async := ps.takeWhile (·.token.is "async")
  match ps.drop async.length with
  | word :: name :: rest =>
      async.map wordNode ++
        [wordNode word, nodeOver "identifier" (some "name") [name] [],
          parametersNode (skip (Peg.opt (.rule .typeParameters)) rest)]
  | _ => []

mutual

/-- The node of a statement. -/
def nodeOf (rows : Rows) : Statement → Syntax.Node
  | .mk part l simple block =>
      let ps := rows.tokens l
      let start := (ps.head?.map (·.start)).getD ⟨0, ⟨0, 0⟩⟩
      let stop := rows.endOf (.mk part l simple block)
      let imports := (simpleStatements (ps.drop (ps.length - simple.length))).filterMap importNode?
      let inner := imports ++ nodesOver rows block
      if part = .definition then
        let body :=
          match inner with
          | [] => []
          | first :: _ =>
              [nodeAt "block" (some "body") ⟨first.label.startByte, first.label.start⟩ stop inner]
        nodeAt "function_definition" none start stop (headerNodes ps ++ body)
      else nodeAt "statement" none start stop inner

/-- The nodes of statements. -/
def nodesOver (rows : Rows) : List Statement → List Syntax.Node
  | [] => []
  | s :: rest => nodeOf rows s :: nodesOver rows rest

end

/-- The parser of sources; the tree of an invalid one is an error. -/
def parser : Syntax.Parser := fun source =>
  let start : Mark := ⟨0, ⟨0, 0⟩⟩
  let stop := start.after source
  match parse? source with
  | some statements => some (nodeAt "module" none start stop (nodesOver (rowsOf source) statements))
  | none =>
      some (.mk { kind := "ERROR", error := true, startByte := 0, endByte := stop.byte
                  start := start.point, stop := stop.point } [])

end ChangeScope.Python
