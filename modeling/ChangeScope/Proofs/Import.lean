import ChangeScope.Import
import ChangeScope.Proofs.Path.Tidy
import ChangeScope.Proofs.Text.Trim

/-!
# Files of imports

What a name or a receiver stands for is found as the file of a module that a binding leads to
(`Table.resolve?_leads`, `Table.resolveReceiver?_leads`). Such a file exists
(`resolveModule?_isFile`), and it is absolute when the importing file and the repository are
(`resolveModule?_absolute`).
-/

set_option autoImplicit false

namespace ChangeScope.Import

variable {tree : FileTree} {importer root : Path}

/-! ## Modules -/

theorem moduleFile?_isFile {base file : Path} {parts : List (List Char)}
    (h : moduleFile? tree base parts = some file) : tree.isFile file = true := by
  unfold moduleFile? at h
  simp only at h
  split at h
  · next hfile =>
      rw [← Option.some.inj h]
      exact FileTree.isFile_tidy (Bool.and_eq_true_iff.mp hfile).2
  · split at h
    · next hpackage =>
        rw [← Option.some.inj h]
        exact FileTree.isFile_tidy hpackage
    · exact absurd h (by simp)

theorem moduleFile?_absolute {base file : Path} {parts : List (List Char)} (hbase : base.IsAbsolute)
    (h : moduleFile? tree base parts = some file) : file.IsAbsolute := by
  have hplace : (parts.foldl (fun p part => p.join (String.ofList part)) base).IsAbsolute := by
    clear h
    induction parts generalizing base with
    | nil => exact hbase
    | cons part parts ih => exact ih (hbase.join _)
  unfold moduleFile? at h
  simp only at h
  split at h
  · rw [← Option.some.inj h]
    exact (hplace.withExtension "py").tidy
  · split at h
    · rw [← Option.some.inj h]
      exact (hplace.join "__init__.py").tidy
    · exact absurd h (by simp)

theorem packageAbove?_absolute {count : Nat} {dir base : Path} (hdir : dir.IsAbsolute)
    (h : packageAbove? root count dir = some base) : base.IsAbsolute := by
  induction count generalizing dir with
  | zero =>
      rw [← Option.some.inj h]
      exact hdir
  | succ count ih =>
      unfold packageAbove? at h
      split at h
      · next above habove =>
          split at h
          · exact ih (hdir.parent habove) h
          · exact absurd h (by simp)
      · exact absurd h (by simp)

theorem moduleParts_spec {module part : List Char} (h : part ∈ moduleParts module) :
    part ≠ [] ∧ ∀ c ∈ part, c ∈ module ∧ c ≠ '.' := by
  obtain ⟨hfield, hne⟩ := List.mem_filter.mp h
  refine ⟨by simpa using hne, fun c hc => ?_⟩
  have hmem := Text.of_mem_field hfield hc
  exact ⟨hmem.1, by simpa using hmem.2⟩

/-- A module is looked for below the repository and the packages around the importing file, by the
parts of its text. -/
theorem resolveModule?_below {module : String} {file : Path}
    (h : resolveModule? tree module importer root = some file) :
    ∃ base parts, moduleFile? tree base parts = some file ∧
      (∀ part ∈ parts, part ≠ [] ∧ ∀ c ∈ part, c ∈ module.toList ∧ c ≠ '.') ∧
      (base = root ∨
        ∃ count, packageAbove? root count (importer.parent?.getD root) = some base) := by
  have hparts : ∀ text : List Char, (∀ c ∈ text, c ∈ Text.trim module.toList) →
      ∀ part ∈ moduleParts text, part ≠ [] ∧ ∀ c ∈ part, c ∈ module.toList ∧ c ≠ '.' := by
    intro text htext part hpart
    obtain ⟨hne, hchars⟩ := moduleParts_spec hpart
    exact ⟨hne, fun c hc => ⟨Text.mem_of_mem_trim (htext c (hchars c hc).1), (hchars c hc).2⟩⟩
  unfold resolveModule? at h
  simp only at h
  split at h
  · exact absurd h (by simp)
  · obtain ⟨base, habove, hfile⟩ := Option.bind_eq_some_iff.mp h
    exact ⟨base, _, hfile, hparts _ fun c hc => List.mem_of_mem_drop hc, .inr ⟨_, habove⟩⟩
  · split at h
    · next found hfound =>
        rw [← Option.some.inj h]
        exact ⟨root, _, hfound, hparts _ fun c hc => hc, .inl rfl⟩
    · split at h
      · exact absurd h (by simp)
      · exact ⟨_, _, h, hparts _ fun c hc => hc, .inr ⟨0, rfl⟩⟩

/-- **A module that is found is a file.** -/
theorem resolveModule?_isFile {module : String} {file : Path}
    (h : resolveModule? tree module importer root = some file) : tree.isFile file = true := by
  obtain ⟨base, parts, hfile, -, -⟩ := resolveModule?_below h
  exact moduleFile?_isFile hfile

theorem resolveModule?_absolute {module : String} {file : Path} (himporter : importer.IsAbsolute)
    (hroot : root.IsAbsolute) (h : resolveModule? tree module importer root = some file) :
    file.IsAbsolute := by
  have hpackage : (importer.parent?.getD root).IsAbsolute := by
    cases hparent : importer.parent? with
    | none => exact hroot
    | some dir => exact himporter.parent hparent
  obtain ⟨base, parts, hfile, -, rfl | ⟨count, habove⟩⟩ := resolveModule?_below h
  · exact moduleFile?_absolute hroot hfile
  · exact moduleFile?_absolute (packageAbove?_absolute hpackage habove) hfile

/-! ## Names and receivers -/

/-- The file that a name stands for, or is defined in. -/
def Target.file : Target → Path
  | .member file _ => file
  | .module file => file

/-- The modules that are looked for when a receiver begins with the name of a binding: that of the
binding, the imported symbol as a module, and members of it that the receiver names. -/
inductive Binding.Leads (binding : Binding) (receiver : String) : String → Prop
  | own : Leads binding receiver binding.module
  | whole : Leads binding receiver binding.wholeModule
  | member {member : String} (h : ∀ c ∈ member.toList, c = '.' ∨ c ∈ receiver.toList) :
      Leads binding receiver (joinModule binding.wholeModule member)

theorem Binding.target?_leads {binding : Binding} {target : Target}
    (h : binding.target? tree importer root = some target) (receiver : String) :
    ∃ module, binding.Leads receiver module ∧
      resolveModule? tree module importer root = some target.file := by
  unfold Binding.target? at h
  split at h
  · next file hfile =>
      rw [← Option.some.inj h]
      exact ⟨_, .whole, hfile⟩
  · exact absurd h (by simp)
  · obtain ⟨file, hfile, rfl⟩ := Option.map_eq_some_iff.mp h
    exact ⟨_, .own, hfile⟩

theorem Table.get?_mem {table : Table} {name : String} {binding : Binding}
    (h : table.get? name = some binding) : binding ∈ table.bindings :=
  List.mem_of_find?_eq_some h

theorem Table.resolve?_leads {table : Table} {name : String} {target : Target}
    (h : table.resolve? tree name importer root = some target) :
    ∃ binding ∈ table.bindings, ∃ module, binding.Leads "" module ∧
      resolveModule? tree module importer root = some target.file := by
  obtain ⟨binding, hbinding, htarget⟩ := Option.bind_eq_some_iff.mp h
  exact ⟨binding, get?_mem hbinding, Binding.target?_leads htarget ""⟩

theorem Table.resolveReceiver?_leads {table : Table} {receiver : String} {file : Path}
    (h : table.resolveReceiver? tree receiver importer root = some file) :
    ∃ binding ∈ table.bindings, ∃ module, binding.Leads receiver module ∧
      resolveModule? tree module importer root = some file := by
  unfold Table.resolveReceiver? at h
  split at h
  · exact absurd h (by simp)
  · next head rest hfields =>
      obtain ⟨binding, hbinding, hfile⟩ := Option.bind_eq_some_iff.mp h
      refine ⟨binding, get?_mem hbinding, ?_⟩
      split at hfile
      · next found htarget =>
          split at hfile
          · rw [← Option.some.inj hfile]
            exact Binding.target?_leads htarget receiver
          · refine ⟨_, .member fun c hc => ?_, hfile⟩
            rw [String.toList_ofList] at hc
            refine (Text.mem_join hc).imp id ?_
            rintro ⟨field, hfield, hc⟩
            have hin : field ∈ Text.fields (· == '.') receiver.toList := by
              rw [hfields]
              exact List.mem_cons_of_mem head hfield
            exact (Text.of_mem_field hin hc).1
      · exact absurd hfile (by simp)

/-- What a name stands for is in the file of a module. -/
theorem Table.resolve?_module {table : Table} {name : String} {target : Target}
    (h : table.resolve? tree name importer root = some target) :
    ∃ module, resolveModule? tree module importer root = some target.file := by
  obtain ⟨-, -, module, -, hmodule⟩ := resolve?_leads h
  exact ⟨module, hmodule⟩

/-- A receiver stands for the file of a module. -/
theorem Table.resolveReceiver?_module {table : Table} {receiver : String} {file : Path}
    (h : table.resolveReceiver? tree receiver importer root = some file) :
    ∃ module, resolveModule? tree module importer root = some file := by
  obtain ⟨-, -, module, -, hmodule⟩ := resolveReceiver?_leads h
  exact ⟨module, hmodule⟩

theorem Table.resolve?_absolute {table : Table} {name : String} {target : Target}
    (himporter : importer.IsAbsolute) (hroot : root.IsAbsolute)
    (h : table.resolve? tree name importer root = some target) : target.file.IsAbsolute := by
  obtain ⟨module, hfile⟩ := resolve?_module h
  exact resolveModule?_absolute himporter hroot hfile

theorem Table.resolveReceiver?_absolute {table : Table} {receiver : String} {file : Path}
    (himporter : importer.IsAbsolute) (hroot : root.IsAbsolute)
    (h : table.resolveReceiver? tree receiver importer root = some file) : file.IsAbsolute := by
  obtain ⟨module, hfile⟩ := resolveReceiver?_module h
  exact resolveModule?_absolute himporter hroot hfile

end ChangeScope.Import
