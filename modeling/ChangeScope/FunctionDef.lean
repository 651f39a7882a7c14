import ChangeScope.FunctionId
import ChangeScope.Json.Decode

/-!
# Function definitions

A function of a source file, with the lines on which it stands.
-/

set_option autoImplicit false

namespace ChangeScope

/-- A function of a source file. -/
structure FunctionDef where
  file : Path
  name : String
  /-- The first line of the function, from 1. -/
  startLine : Nat
  /-- The last line of the function. -/
  endLine : Nat
  /-- The lines of the function. -/
  body : String
  /-- The parameters that take one argument each. -/
  params : List String
deriving DecidableEq, Repr, Inhabited

namespace FunctionDef

/-- The id of a function. -/
def id (f : FunctionDef) : String := FunctionId.make f.file f.name

/-- A line lies in the function. -/
def holdsLine (f : FunctionDef) (line : Nat) : Bool := f.startLine ≤ line && line ≤ f.endLine

/-- The members of a function as JSON. -/
def members (f : FunctionDef) : Members :=
  [("file_path", .str f.file.text), ("name", .str f.name), ("start_line", .nat f.startLine),
    ("end_line", .nat f.endLine), ("body_text", .str f.body), ("param_names", .strings f.params)]

/-- The written form of a function. -/
def record : Json.Record FunctionDef :=
  { title := "struct FunctionDef"
    slots := [
      .of "file_path" .always .path fun v f => { f with file := ⟨v⟩ },
      .of "name" .always .string fun v f => { f with name := v },
      .of "start_line" .always .natural fun v f => { f with startLine := v },
      .of "end_line" .always .natural fun v f => { f with endLine := v },
      .of "body_text" .always .string fun v f => { f with body := v },
      .of "param_names" .always (.list .string) fun v f => { f with params := v }] }

end FunctionDef

end ChangeScope
