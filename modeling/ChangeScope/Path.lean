import ChangeScope.Text

/-!
# Paths

A path is a text with parts between slashes. Two texts name the same place when their components
agree: repeated slashes, `.` inside and a slash at the end make no difference. Operations that
give a path keep the text of the parts that stay.
-/

set_option autoImplicit false

namespace ChangeScope

/-- A path, as written. -/
structure Path where
  text : String
deriving DecidableEq, Repr, Inhabited

namespace Path

/-- One step of a path. -/
inductive Component where
  | root
  | current
  | parent
  | name (text : List Char)
deriving DecidableEq, Repr

/-! ## Components -/

/-- The texts between slashes. -/
def pieces (cs : List Char) : List (List Char) := Text.fields (· == '/') cs

/-- A piece as a component; an empty piece and `.` inside a path are none. -/
def componentOf? (piece : List Char) : Option Component :=
  if piece = [] || piece = ['.'] then none
  else if piece = ['.', '.'] then some .parent
  else some (.name piece)

/-- The components of a written path. A `.` counts only at the beginning of a relative path. -/
def componentsOf (cs : List Char) : List Component :=
  let inner := (pieces cs).filterMap componentOf?
  if cs.head? = some '/' then .root :: inner
  else if (pieces cs).head? = some ['.'] then .current :: inner
  else inner

/-- The components of a path. -/
def components (p : Path) : List Component := componentsOf p.text.toList

/-- The paths have the same components. -/
def same (p q : Path) : Bool := p.components == q.components

/-- The components of `base` begin the components of the path. -/
def isUnder (p base : Path) : Bool := base.components.isPrefixOf p.components

/-! ## Building paths -/

/-- Joined texts: an absolute second part replaces the first. -/
def joinText (base part : List Char) : List Char :=
  if part.head? = some '/' then part
  else
    match base.getLast? with
    | none => part
    | some '/' => base ++ part
    | some _ => base ++ '/' :: part

/-- The path continued by a part; an absolute part replaces it. -/
def join (base : Path) (part : String) : Path :=
  ⟨String.ofList (joinText base.text.toList part.toList)⟩

/-- Drops slashes and `.` parts from a reversed text, which the next component ends. -/
def trimReversed : List Char → List Char
  | '/' :: rest => trimReversed rest
  | '.' :: '/' :: rest => trimReversed ('/' :: rest)
  | rest => rest

/-- The text before the last component, for a relative path or below the root. -/
def dropLastPiece (cs : List Char) : List Char :=
  let body := trimReversed cs.reverse
  let before := body.dropWhile (· != '/')
  match trimReversed before with
  | [] => if before.isEmpty then [] else ['/']
  | rest => rest.reverse

/-- The path without its last component; the root and the empty path have none. -/
def parent? (p : Path) : Option Path :=
  match p.components.getLast? with
  | none => none
  | some .root => none
  | some _ => some ⟨String.ofList (dropLastPiece p.text.toList)⟩

/-- The last component, if it is a name. -/
def fileName? (p : Path) : Option (List Char) :=
  match p.components.getLast? with
  | some (.name n) => some n
  | _ => none

/-- A file name around its last dot; a name that only begins with a dot has no extension. -/
def splitName (name : List Char) : List Char × Option (List Char) :=
  match Text.splitLast ['.'] name with
  | some (stem, extension) => if stem.isEmpty then (name, none) else (stem, some extension)
  | none => (name, none)

/-- The text after the last dot of the file name. -/
def extension? (p : Path) : Option String :=
  (p.fileName?.bind fun name => (splitName name).2).map String.ofList

/-- The path with another extension; a path without a file name stays. -/
def withExtension (p : Path) (extension : String) : Path :=
  match p.fileName? with
  | none => p
  | some name =>
      let stem := (splitName name).1
      let body := (trimReversed p.text.toList.reverse).drop (name.length - stem.length)
      ⟨String.ofList (body.reverse ++ '.' :: extension.toList)⟩

/-- The text of a component. -/
def Component.text : Component → List Char
  | .root => ['/']
  | .current => ['.']
  | .parent => ['.', '.']
  | .name n => n

/-- The path made of components. -/
def ofComponents (components : List Component) : Path :=
  ⟨String.ofList (components.foldl (fun cs c => joinText cs c.text) [])⟩

/-- The path without a leading `.` and with single slashes. -/
def tidy (p : Path) : Path := ofComponents (p.components.filter (· != .current))

end Path

end ChangeScope
