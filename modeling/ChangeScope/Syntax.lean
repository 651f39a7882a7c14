import ChangeScope.Text

/-!
# Syntax trees

What a parser tells of a text: a tree of nodes, each of which stands for the text between two byte
offsets. A node also gives the rows and columns of its ends. The text is not in the tree.
-/

set_option autoImplicit false

namespace ChangeScope.Syntax

/-- A place in a text: the number of line feeds before it, and of the bytes after the last of
them. -/
structure Point where
  row : Nat
  column : Nat
deriving DecidableEq, Repr, Inhabited

namespace Point

/-- The place behind one more character. -/
def step (p : Point) (c : Char) : Point :=
  if c = '\n' then ⟨p.row + 1, 0⟩ else ⟨p.row, p.column + c.utf8Size⟩

/-- The place behind a text. -/
def after (text : List Char) : Point := text.foldl step ⟨0, 0⟩

end Point

/-- What a node says of itself. -/
structure Label where
  kind : String
  /-- What the node is to its parent. -/
  field : Option String := none
  /-- The node is no mere word or mark. -/
  named : Bool := true
  /-- The node stands for a text that has no place in the grammar. -/
  error : Bool := false
  /-- The node stands for a text that should be there and is not. -/
  missing : Bool := false
  startByte : Nat
  endByte : Nat
  start : Point
  stop : Point
deriving DecidableEq, Repr, Inhabited

/-- A node and its children. -/
inductive Node where
  | mk (label : Label) (children : List Node)
deriving Repr, Inhabited

/-- A parser; it may give no tree at all. -/
abbrev Parser := List Char → Option Node

namespace Node

/-- What the node says of itself. -/
def label : Node → Label
  | .mk l _ => l

/-- The children in order. -/
def children : Node → List Node
  | .mk _ cs => cs

/-- What the node is. -/
def kind (node : Node) : String := node.label.kind

/-- The text of a node; a range that cuts a character has none. -/
def text? (text : List Char) (node : Node) : Option (List Char) :=
  Text.slice? node.label.startByte node.label.endByte text

/-- The text of a node whose range cuts no character. -/
def textIn (text : List Char) (node : Node) : String := String.ofList ((node.text? text).getD [])

/-- The first child of a field. -/
def field? (node : Node) (name : String) : Option Node :=
  node.children.find? (·.label.field == some name)

/-- The children that are no mere words or marks. -/
def namedChildren (node : Node) : List Node := node.children.filter (·.label.named)

/-! ## Errors -/

mutual

/-- The node or one in it is an error. -/
def hasError : Node → Bool
  | .mk l cs => l.error || l.missing || anyHasError cs

/-- One of some nodes has an error. -/
def anyHasError : List Node → Bool
  | [] => false
  | node :: rest => node.hasError || anyHasError rest

end

mutual

/-- Where the first error of a node is. -/
def firstError? : Node → Option Point
  | .mk l cs => if l.error || l.missing then some l.start else firstErrorAmong? cs

/-- Where the first error of some nodes is. -/
def firstErrorAmong? : List Node → Option Point
  | [] => none
  | node :: rest =>
      if node.hasError then
        match node.firstError? with
        | some point => some point
        | none => firstErrorAmong? rest
      else firstErrorAmong? rest

end

/-! ## Subtrees -/

mutual

/-- The node and all nodes in it, an outer one before those inside it. -/
def nodes : Node → List Node
  | .mk l cs => .mk l cs :: nodesAmong cs

/-- Some nodes and all nodes in them. -/
def nodesAmong : List Node → List Node
  | [] => []
  | node :: rest => node.nodes ++ nodesAmong rest

end

end Node

end ChangeScope.Syntax
