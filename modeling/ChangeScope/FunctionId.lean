import ChangeScope.Path

/-!
# Function ids

A function is known everywhere by the text `<file>::<name>`. The text is taken apart at its last
`::`, so a file may contain colons.
-/

set_option autoImplicit false

namespace ChangeScope.FunctionId

/-- What stands between the file and the name. -/
def separator : List Char := [':', ':']

/-- The id of a function in a file. -/
def make (file : Path) (name : String) : String :=
  file.text ++ String.ofList separator ++ name

/-- The file and the name of an id; neither may be empty. -/
def split? (id : String) : Option (Path × String) :=
  match Text.splitLast separator id.toList with
  | some (file, name) =>
      if file.isEmpty || name.isEmpty then none
      else some (⟨String.ofList file⟩, String.ofList name)
  | none => none

end ChangeScope.FunctionId
