import ChangeScope.Call.Candidate
import ChangeScope.FunctionId
import ChangeScope.Import
import ChangeScope.Json.Decode

/-!
# Call sites

A candidate becomes a call site when it is looked up in the scope of its file: a name of the file
itself wins over an imported one, and a receiver is looked up among the imports. Where the lookup
finds a function, the called expression in the body is replaced by the id of the function.
-/

set_option autoImplicit false

namespace ChangeScope.Call

/-- A call in a function. -/
structure Site where
  /-- The line of the name in the file. -/
  line : Nat
  /-- The column of the name in bytes, from 1. -/
  column : Nat
  name : String
  /-- What stands before the dot. -/
  receiver : Option String
  /-- The called function, if it is known. -/
  calleeId : Option String
  /-- The text between the parentheses. -/
  args : String
deriving DecidableEq, Repr, Inhabited

/-- The names that a function body can call. -/
structure Scope where
  file : Path
  root : Path
  /-- The functions of the file. -/
  locals : List String
  /-- The imports of the file; none for a file that is not there any more. -/
  imports : Option Import.Table
deriving Repr

/-! ## Lookup -/

/-- The function that a plain name calls. -/
def Scope.resolveName? (scope : Scope) (tree : FileTree) (name : String) : Option String :=
  if scope.locals.contains name then some (FunctionId.make scope.file name)
  else
    match scope.imports.bind fun table => table.resolve? tree name scope.file scope.root with
    | some (.member file symbol) => some (FunctionId.make file symbol)
    | _ => none

/-- The function that a candidate calls. -/
def Scope.resolve? (scope : Scope) (tree : FileTree) (candidate : Candidate) : Option String :=
  match candidate.form with
  | .qualified file => some (FunctionId.make ⟨file⟩ candidate.name)
  | .bare => scope.resolveName? tree candidate.name
  | .attribute receiver =>
      if receiver = "self" || receiver = "cls" then scope.resolveName? tree candidate.name
      else
        (scope.imports.bind fun table =>
          table.resolveReceiver? tree receiver scope.file scope.root).map fun file =>
            FunctionId.make file candidate.name

/-! ## Overlapping candidates -/

/-- The other candidate is longer and holds this one, on the same line. -/
def Candidate.isCoveredBy (c other : Candidate) : Bool :=
  other.lineOffset == c.lineOffset && other.start ≤ c.start && c.stop ≤ other.stop &&
    c.stop - c.start < other.stop - other.start

/-- The candidates that no longer one covers. -/
def longestMatches (candidates : List Candidate) : List Candidate :=
  candidates.filter fun c => !candidates.any c.isCoveredBy

/-! ## Qualification -/

/-- The site of a candidate in a body that begins on a line. -/
def Candidate.site (c : Candidate) (startLine : Nat) (calleeId : Option String) : Site :=
  { line := startLine + c.lineOffset
    column := c.column
    name := c.name
    receiver := match c.form with | .attribute receiver => some receiver | _ => none
    calleeId := calleeId
    args := c.args }

/-- The body from a byte offset on, with the called expressions replaced; a replacement that
would begin before the offset is left out. -/
def render (offset : Nat) (rest : List Char) : List (Candidate × Option String) → List Char
  | [] => rest
  | (_, none) :: others => render offset rest others
  | (c, some id) :: others =>
      if offset ≤ c.start then
        match Text.splitAtByte? (c.start - offset) rest with
        | none => rest
        | some (before, after) =>
            match Text.splitAtByte? (c.stop - c.start) after with
            | none => rest
            | some (_, after) => before ++ id.toList ++ render c.stop after others
      else render offset rest others

/-- The call sites of a body and the body with every known callee written as its id. -/
def qualify (tree : FileTree) (scope : Scope) (startLine : Nat) (body : String) :
    Except Abort (List Site × String) := do
  let candidates := longestMatches (← scan body)
  let resolved := candidates.map fun c => (c, scope.resolve? tree c)
  let sites := resolved.map fun (c, id) => c.site startLine id
  .ok (sites, String.ofList (render 0 body.toList resolved))

/-! ## JSON -/

/-- A call site as JSON. -/
def Site.toJson (site : Site) : Json :=
  .obj [("line", .nat site.line), ("column", .nat site.column), ("name", .str site.name),
    ("receiver", .ofString? site.receiver), ("callee_id", .ofString? site.calleeId),
    ("args_text", .str site.args)]

/-- The written form of a call site. -/
def Site.record : Json.Record Site :=
  { title := "struct CallSite"
    slots := [
      .of "line" .always .natural fun v s => { s with line := v },
      .of "column" .always .natural fun v s => { s with column := v },
      .of "name" .always .string fun v s => { s with name := v },
      .of "receiver" .inArrays (.optional .string) fun v s => { s with receiver := v },
      .of "callee_id" .inArrays (.optional .string) fun v s => { s with calleeId := v },
      .of "args_text" .always .string fun v s => { s with args := v }] }

end ChangeScope.Call
