import ChangeScope.Call.Site
import ChangeScope.Change

/-!
# Qualified functions

A changed function with its call sites, and with its body in which every known callee is written
as its id.
-/

set_option autoImplicit false

namespace ChangeScope

/-- A changed function and its calls. -/
structure QualifiedFunction where
  function : ChangedFunction
  sites : List Call.Site
  body : String
deriving DecidableEq, Repr, Inhabited

namespace QualifiedFunction

/-- The id of the function. -/
def id (f : QualifiedFunction) : String := f.function.id

/-- The ids of the known callees, in increasing order. -/
def calleeIds (f : QualifiedFunction) : List String :=
  OrderedSet.ofList (f.sites.filterMap (·.calleeId))

/-- The first call on a line of the function with an id. -/
def siteAt? (f : QualifiedFunction) (line : Nat) (calleeId : String) : Option Call.Site :=
  f.sites.find? fun site => site.line == line && site.calleeId == some calleeId

/-- The names that the functions of a file can call. -/
def scopeOf (file : SourceFile) (root : Path) : Call.Scope :=
  { file := file.path
    root := root
    locals := file.functions.map (·.name)
    imports := some file.imports }

/-- What can be called from a file that is not there any more. -/
def scopeOfMissing (file root : Path) : Call.Scope :=
  { file := file, root := root, locals := [], imports := none }

/-- Qualifies a changed function in the scope of its file. -/
def ofChanged (tree : FileTree) (files : List IndexedFile) (root : Path) (f : ChangedFunction) :
    Except Abort QualifiedFunction := do
  let scope :=
    match files.find? (·.path.same f.function.file) with
    | some file => scopeOf file.source root
    | none => scopeOfMissing f.function.file root
  let (sites, body) ← Call.qualify tree scope f.function.startLine f.function.body
  .ok ⟨f, sites, body⟩

/-- The members of a qualified function as JSON. -/
def members (f : QualifiedFunction) : List (String × Json) :=
  [("function", f.function.toJson), ("call_sites", .arr (f.sites.map (·.toJson))),
    ("qualified_body", .str f.body)]

/-- A qualified function as JSON. -/
def toJson (f : QualifiedFunction) : Json := .obj f.members

end QualifiedFunction

end ChangeScope
