import ChangeScope.Abort
import ChangeScope.Patch
import ChangeScope.Source

/-!
# Changed functions

A function has changed when its span holds a touched line of its file. The functions of a deleted
file have all changed, and nothing is left of their lines.
-/

set_option autoImplicit false

namespace ChangeScope

/-- A function with what a change did to it. -/
structure ChangedFunction where
  function : FunctionDef
  /-- The touched lines of the function. -/
  lines : Patch.LineSet
  /-- What became of its file. -/
  status : Patch.Status
deriving DecidableEq, Repr, Inhabited

namespace ChangedFunction

/-- The id of the function. -/
def id (f : ChangedFunction) : String := f.function.id

/-- A changed function as JSON. -/
def toJson (f : ChangedFunction) : Json :=
  .obj (f.function.members ++
    [("changed_lines", .arr (f.lines.map .nat)), ("file_status", .str f.status.name)])

/-- The function with the touched lines in its span, if there are any. Where lines are touched, a
span that ends before it starts is no range. -/
def ofTouched? (lines : Patch.LineSet) (status : Patch.Status) (f : FunctionDef) :
    Except Abort (Option ChangedFunction) :=
  if !lines.isEmpty && f.endLine < f.startLine then .error .invertedRange
  else
    let touched := lines.filter f.holdsLine
    .ok (if touched.isEmpty then none else some ⟨f, touched, status⟩)

/-- The changed functions among those of a file. -/
def ofFile (lines : Patch.LineSet) (status : Patch.Status) (functions : List FunctionDef) :
    Except Abort (List ChangedFunction) := do
  .ok ((← functions.mapM (ofTouched? lines status)).filterMap fun f => f)

/-- A function of a deleted file. -/
def ofDeleted (f : FunctionDef) : ChangedFunction := ⟨{ f with body := "" }, [], .deleted⟩

end ChangedFunction

end ChangeScope
