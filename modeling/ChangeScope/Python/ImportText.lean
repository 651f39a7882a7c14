import ChangeScope.Import

/-!
# Import statements as text

The names that an import statement binds, read from its text: comments go, line ends, backslashes
and parentheses count as blanks, and then words decide.
-/

set_option autoImplicit false

namespace ChangeScope.Python

open ChangeScope.Import (Binding)

/-- The statement on one line without comments, backslashes and parentheses. -/
def plainImport (text : List Char) : List Char :=
  let rows := (Text.lines text).map fun row => row.takeWhile (· != '#')
  let joined := (Text.join [' '] rows).map fun c =>
    if c == '\\' || c == '(' || c == ')' then ' ' else c
  Text.trim (Text.dropTrailing (· == ';') (Text.trim joined))

/-- The binding of one part of `import …`: a name after `as`, else the top package. -/
def moduleBinding? (line : Nat) (part : List Char) : Option Binding :=
  match Text.words part with
  | [] => none
  | module :: rest =>
      match rest with
      | ['a', 's'] :: alias_ :: _ =>
          some ⟨String.ofList alias_, String.ofList module, none, line⟩
      | _ =>
          let top := String.ofList (module.takeWhile (· != '.'))
          some ⟨top, top, none, line⟩

/-- The binding of one part of `from … import …`; a star binds nothing that is known. -/
def memberBinding? (module : String) (line : Nat) (part : List Char) : Option Binding :=
  match Text.words part with
  | [] => none
  | symbol :: rest =>
      if symbol = ['*'] then none
      else
        let name :=
          match rest with
          | ['a', 's'] :: alias_ :: _ => alias_
          | _ => symbol
        some ⟨String.ofList name, module, some (String.ofList symbol), line⟩

/-- The bindings of an import statement, in order. -/
def importBindings (text : List Char) (line : Nat) : List Binding :=
  let plain := plainImport text
  match "import ".toList.isPrefixOf? plain with
  | some rest => (Text.fields (· == ',') rest).filterMap (moduleBinding? line)
  | none =>
      match "from ".toList.isPrefixOf? plain with
      | none => []
      | some rest =>
          match Text.splitOnce " import ".toList rest with
          | none => []
          | some (module, names) =>
              let module := String.ofList (Text.trim module)
              (Text.fields (· == ',') names).filterMap (memberBinding? module line)

end ChangeScope.Python
