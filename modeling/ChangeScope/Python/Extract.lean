import ChangeScope.Failure
import ChangeScope.FunctionDef
import ChangeScope.Python.ImportText
import ChangeScope.Syntax

/-!
# Functions and imports of a syntax tree

The functions that a source defines and the names that its import statements bind, as they stand in
its syntax tree, whichever parser has made it. A function spans the rows of its node; a node that
ends at the beginning of a row has its last line on the row before.
-/

set_option autoImplicit false

namespace ChangeScope.Python

open ChangeScope.Import (Binding)
open Syntax (Node Parser)

/-- What a source defines and imports. -/
structure Parsed where
  functions : List FunctionDef := []
  imports : List Binding := []
deriving Repr

/-- What two parts of a source define and import together. -/
def Parsed.append (a b : Parsed) : Parsed := ⟨a.functions ++ b.functions, a.imports ++ b.imports⟩

/-! ## Parameters -/

/-- The text of a node that is an identifier. -/
def identifier? (text : List Char) (node : Node) : Option String :=
  if node.kind = "identifier" then some (node.textIn text) else none

/-- The name of a parameter that takes one argument. -/
def paramName? (text : List Char) (param : Node) : Option String :=
  match param.kind with
  | "identifier" => some (param.textIn text)
  | "typed_parameter" => param.namedChildren.head?.bind (identifier? text)
  | "default_parameter" | "typed_default_parameter" =>
      (param.field? "name").bind (identifier? text)
  | _ => none

/-- The names of the parameters of a list. Those that collect the rest of the arguments are left
out. -/
def paramNames (text : List Char) (params : Node) : List String :=
  params.namedChildren.filterMap (paramName? text)

/-! ## Functions -/

/-- The line on which a node starts. -/
def startLine (node : Node) : Nat := node.label.start.row + 1

/-- The line on which a node ends. -/
def endLine (node : Node) : Nat :=
  let stop := node.label.stop
  if stop.column = 0 ∧ startLine node < stop.row + 1 then stop.row else stop.row + 1

/-- The rows from one line to another; none where the first lies behind the last, or the last is no
row. -/
def linesBetween? (rows : List (List Char)) (first last : Nat) : Option (List (List Char)) :=
  if first - 1 ≤ last ∧ last ≤ rows.length then some ((rows.take last).drop (first - 1)) else none

/-- The function of a node, if it has a name. -/
def functionOf? (path : Path) (text : List Char) (node : Node) : Option FunctionDef :=
  (node.field? "name").map fun name =>
    let rows := Text.rows text
    let lines := linesBetween? rows (startLine node) (min (endLine node) rows.length)
    { file := path
      name := name.textIn text
      startLine := startLine node
      endLine := endLine node
      body := String.ofList ((lines.map (Text.join ['\n'])).getD [])
      params := ((node.field? "parameters").map (paramNames text)).getD [] }

/-- The node of a function. -/
def isDefinition (node : Node) : Bool := node.kind == "function_definition"

/-- The node of an import statement. -/
def isImport (node : Node) : Bool :=
  node.kind == "import_statement" || node.kind == "import_from_statement"

mutual

/-- What a node defines and imports, an outer function before those inside it. -/
def itemsOf (path : Path) (text : List Char) : Node → Parsed
  | .mk label children =>
      let node := Node.mk label children
      if isDefinition node then
        Parsed.append { functions := (functionOf? path text node).toList }
          (itemsAmong path text children)
      else if isImport node then
        { imports := importBindings (node.textIn text).toList (startLine node) }
      else itemsAmong path text children

/-- What some nodes define and import, in order. -/
def itemsAmong (path : Path) (text : List Char) : List Node → Parsed
  | [] => {}
  | node :: rest => (itemsOf path text node).append (itemsAmong path text rest)

end

/-- What a source defines and imports, if its syntax tree has no error. -/
def parse (parser : Parser) (path : Path) (text : List Char) : Except Failure Parsed :=
  match parser text with
  | none => .error (.parse path "tree-sitter returned no tree")
  | some root =>
      if root.hasError then
        let place := root.firstError?.getD ⟨0, 0⟩
        .error (.parse path ("invalid syntax near line " ++ toString (place.row + 1) ++
          ", column " ++ toString (place.column + 1)))
      else .ok (itemsAmong path text root.children)

end ChangeScope.Python
