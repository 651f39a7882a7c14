import ChangeScope.FileTree

/-!
# Imports

The names that the import statements of a file bind, and the files of the repository that they
stand for. A module `a.b` is the file `a/b.py` or `a/b/__init__.py` below a directory: for a
relative module the package of the importing file or one of the packages around it, for an
absolute module the root of the repository, then the package of the importing file.
-/

set_option autoImplicit false

namespace ChangeScope.Import

/-- A name bound by an import statement. -/
structure Binding where
  /-- The name in the importing file. -/
  localName : String
  /-- The module as written, perhaps with dots in front. -/
  module : String
  /-- The member that is imported from the module; none when it is the module itself. -/
  symbol : Option String
  /-- The line of the statement. -/
  line : Nat
deriving DecidableEq, Repr, Inhabited

/-- The bindings of a file, each name once. -/
structure Table where
  bindings : List Binding
deriving DecidableEq, Repr, Inhabited

namespace Table

/-- Binds a name, which loses an earlier binding. -/
def add (table : Table) (binding : Binding) : Table :=
  ⟨table.bindings.filter (·.localName != binding.localName) ++ [binding]⟩

/-- The table after some bindings in a row. -/
def ofBindings (bindings : List Binding) : Table := bindings.foldl add ⟨[]⟩

/-- The binding of a name. -/
def get? (table : Table) (name : String) : Option Binding :=
  table.bindings.find? (·.localName == name)

/-- The number of names. -/
def size (table : Table) : Nat := table.bindings.length

end Table

/-! ## Modules -/

/-- The file of a module below a directory: the file of its own, else that of the package. Without
any part only the package counts. -/
def moduleFile? (tree : FileTree) (base : Path) (parts : List (List Char)) : Option Path :=
  let place := parts.foldl (fun p part => p.join (String.ofList part)) base
  let file := place.withExtension "py"
  let package := place.join "__init__.py"
  if !parts.isEmpty && tree.isFile file then some file.tidy
  else if tree.isFile package then some package.tidy
  else none

/-- The parts of a dotted module. -/
def moduleParts (module : List Char) : List (List Char) :=
  (Text.fields (· == '.') module).filter fun part => !part.isEmpty

/-- The package `count` levels above a directory, none outside the repository. -/
def packageAbove? (root : Path) : Nat → Path → Option Path
  | 0, dir => some dir
  | count + 1, dir =>
      match dir.parent? with
      | some above => if above.isUnder root then packageAbove? root count above else none
      | none => none

/-- The file of a module that a file imports. -/
def resolveModule? (tree : FileTree) (module : String) (importer root : Path) : Option Path :=
  let module := Text.trim module.toList
  let package := importer.parent?.getD root
  match module with
  | [] => none
  | '.' :: _ =>
      let dots := (module.takeWhile (· == '.')).length
      (packageAbove? root (dots - 1) package).bind fun base =>
        moduleFile? tree base (moduleParts (module.drop dots))
  | _ =>
      let parts := moduleParts module
      match moduleFile? tree root parts with
      | some file => some file
      | none => if package.same root then none else moduleFile? tree package parts

/-- A member of a module, as a module of its own. -/
def joinModule (module member : String) : String :=
  if module.isEmpty || module.toList.getLast? = some '.' then module ++ member
  else module ++ "." ++ member

/-! ## Names -/

/-- What a name stands for. -/
inductive Target where
  /-- A member of a file. -/
  | member (file : Path) (name : String)
  /-- A module. -/
  | module (file : Path)
deriving DecidableEq, Repr

/-- The module that a binding imports: the bound symbol when it is a module itself. -/
def Binding.wholeModule (binding : Binding) : String :=
  match binding.symbol with
  | some symbol => joinModule binding.module symbol
  | none => binding.module

/-- What a binding stands for, none outside the repository. A symbol is a module if there is one
of that name, else a member. -/
def Binding.target? (binding : Binding) (tree : FileTree) (importer root : Path) :
    Option Target :=
  match resolveModule? tree binding.wholeModule importer root, binding.symbol with
  | some file, _ => some (.module file)
  | none, none => none
  | none, some symbol =>
      (resolveModule? tree binding.module importer root).map fun file => .member file symbol

/-- What a name stands for. -/
def Table.resolve? (table : Table) (tree : FileTree) (name : String) (importer root : Path) :
    Option Target :=
  (table.get? name).bind fun binding => binding.target? tree importer root

/-- The file of a dotted receiver such as `utils` or `pkg.utils`: its first name must be bound to a
module, and the others go on from there. -/
def Table.resolveReceiver? (table : Table) (tree : FileTree) (receiver : String)
    (importer root : Path) : Option Path :=
  match Text.fields (· == '.') receiver.toList with
  | [] => none
  | head :: rest =>
      (table.get? (String.ofList head)).bind fun binding =>
        match binding.target? tree importer root with
        | some (.module file) =>
            if rest.isEmpty then some file
            else
              let member := String.ofList (Text.join ['.'] rest)
              resolveModule? tree (joinModule binding.wholeModule member) importer root
        | _ => none

end ChangeScope.Import
