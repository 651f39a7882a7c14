import ChangeScope.Change.Analysis
import ChangeScope.Proofs.Result

/-!
# What git tells of a change

Git is asked the same whatever the files hold: the changes of files are what git tells, and the
line counts of the files that are not under version control (`fileChanges_eq`). What is found does
not depend on what git was asked before (`Analysis.result_ofTarget`).
-/

set_option autoImplicit false

namespace ChangeScope

namespace Git

/-! ## Calls that answer -/

/-- A call that ends well gives its output and is noted. -/
theorem run_text {answer : Arguments → Output} {calls : List Arguments} (command : String)
    (arguments : Arguments)
    (hnul : (arguments.any fun argument => argument.toList.contains '\x00') = false)
    (hexit : (answer arguments).exit = 0) :
    (text (some answer) command arguments).run.run calls =
      (.ok (Text.Utf8.decodeLossy (answer arguments).stdout), calls ++ [arguments]) := by
  have hcall : (call (some answer) arguments).run.run calls =
      (.ok (answer arguments), calls ++ [arguments]) := by
    unfold call
    dsimp only
    rw [if_neg (ne_true_of_eq_false hnul)]
    rfl
  unfold text
  rw [run_bind hcall, if_pos hexit]
  rfl

/-! ## Earlier calls -/

/-- The result does not depend on the calls that were noted before. -/
def IsSteady {α : Type} (asking : Asking α) : Prop :=
  ∀ calls calls', (asking.run.run calls).1 = (asking.run.run calls').1

variable {α β : Type}

theorem IsSteady.bind {asking : Asking α} {next : α → Asking β} (h : IsSteady asking)
    (hnext : ∀ a, IsSteady (next a)) : IsSteady (asking >>= next) := by
  intro calls calls'
  rw [ExceptT.run_bind, StateT.run_bind, StateT.run_bind]
  have hresult := h calls calls'
  generalize hx : asking.run.run calls = x at hresult
  generalize hy : asking.run.run calls' = y at hresult
  obtain ⟨found, after⟩ := x
  obtain ⟨found', after'⟩ := y
  obtain rfl : found = found' := hresult
  cases found with
  | error failure => rfl
  | ok a => exact hnext a after after'

end Git

namespace Patch

/-! ## The files of a change -/

theorem status_of_read {heading : Heading} (h : heading.status ≠ .untracked) (line : Line) :
    (heading.read line).status ≠ .untracked := by
  unfold Heading.read
  split
  · exact Status.noConfusion
  split
  · exact Status.noConfusion
  split
  · exact h
  split
  · split
    · exact h
    · exact h
  · exact h

/-- No patch calls a file untracked. -/
theorem status_of_changes {text : List Char} {change : FileChange} (h : change ∈ changes text) :
    change.status ≠ .untracked := by
  obtain ⟨⟨title, body⟩, -, rfl⟩ := List.mem_map.mp h
  have hread : ∀ (header : List Line) (heading : Heading), heading.status ≠ .untracked →
      (header.foldl Heading.read heading).status ≠ .untracked := by
    intro header
    induction header with
    | nil => exact fun _ hheading => hheading
    | cons line rest ih => exact fun _ hheading => ih _ (status_of_read hheading line)
  exact hread _ _ Status.noConfusion

/-- What git tells of a change: the patch, and the files that are not under version control. -/
def told (git : Git) (settings : Settings.Analysis) (root : Path) (target : Target) :
    Git.Asking (List Char × List Path) := do
  let text ← ofTarget git settings root target
  let untracked ←
    if target = .workingTree && settings.includeUntracked then Git.untracked git root
    else pure []
  pure (text, untracked)

/-- The files of the patch. -/
def trackedOf (settings : Settings.Analysis) (text : List Char) : List FileChange :=
  if settings.skipTrivialHunks then (changes text).filter (·.hasEffect) else changes text

/-- The changes of files by what git tells. -/
def filesOf (tree : FileTree) (settings : Settings.Analysis) (root : Path)
    (told : List Char × List Path) : List FileChange :=
  (trackedOf settings told.1 ++ told.2.map (FileChange.ofUntracked tree root)).filter fun change =>
    settings.isSourceFile change.path

theorem fileChanges_eq (git : Git) (tree : FileTree) (settings : Settings.Analysis) (root : Path)
    (target : Target) :
    fileChanges git tree settings root target =
      filesOf tree settings root <$> told git settings root target := by
  unfold fileChanges told
  rw [map_bind]
  refine bind_congr fun text => ?_
  dsimp only
  by_cases hask : (decide (target = .workingTree) && settings.includeUntracked) = true
  · rw [if_pos hask, if_pos hask, bind_assoc, map_bind]
    refine bind_congr fun paths => ?_
    rw [pure_bind, map_pure]
    rfl
  · rw [if_neg hask, if_neg hask, pure_bind, pure_bind, map_pure]
    rfl

/-- Git is asked the same whatever the files hold. -/
theorem run_fileChanges (git : Git) (tree : FileTree) (settings : Settings.Analysis) (root : Path)
    (target : Target) (calls : List Git.Arguments) :
    (fileChanges git tree settings root target).run.run calls =
      (((told git settings root target).run.run calls).1.map (filesOf tree settings root),
        ((told git settings root target).run.run calls).2) := by
  rw [fileChanges_eq, ExceptT.run_map, StateT.run_map]
  rfl

end Patch

namespace Analysis

/-- What is found in the files of changes. -/
def ofChanges (parser : Syntax.Parser) (tree : FileTree) (settings : Settings.Analysis)
    (root : Path) (changes : List Patch.FileChange) : Except Abort Analysis :=
  ofFileChanges parser root
    (FileIndex.ofFiles parser tree settings (filesOnDisk tree root changes)) changes

theorem run_ofTarget (parser : Syntax.Parser) (git : Git) (tree : FileTree)
    (settings : Settings.Analysis) {repo root : Path} (target : Target)
    (calls : List Git.Arguments) (hroot : rootOf tree repo = .ok root) :
    (ofTarget git tree settings repo target parser).run.run calls =
      ((((Patch.fileChanges git tree settings root target).run.run calls).1.mapError
          Stop.failed).bind fun changes =>
            Stop.ofAbort (ofChanges parser tree settings root changes),
        ((Patch.fileChanges git tree settings root target).run.run calls).2) := by
  unfold ofTarget
  rw [hroot]
  dsimp only
  rcases hfiles : (Patch.fileChanges git tree settings root target).run.run calls with
    ⟨found, calls'⟩
  rw [run_bind (run_lift hfiles)]
  cases found with
  | error failure => rfl
  | ok changes =>
      dsimp only [Except.mapError, Except.bind]
      unfold ofChanges
      cases ofFileChanges parser root _ changes with
      | error cause => rfl
      | ok analysis => rfl

/-- A run that is told some changes finds what these make. -/
theorem run_ofTarget_ok {parser : Syntax.Parser} {git : Git} {tree : FileTree}
    {settings : Settings.Analysis} {repo root : Path} {target : Target}
    {calls calls' : List Git.Arguments} {changes : List Patch.FileChange} {analysis : Analysis}
    (hroot : rootOf tree repo = .ok root)
    (hchanges : (Patch.fileChanges git tree settings root target).run.run calls =
      (.ok changes, calls'))
    (hfound : ofChanges parser tree settings root changes = .ok analysis) :
    (ofTarget git tree settings repo target parser).run.run calls = (.ok analysis, calls') := by
  rw [run_ofTarget parser git tree settings target calls hroot, hchanges]
  show (Stop.ofAbort (ofChanges parser tree settings root changes), calls') = _
  rw [hfound]
  rfl

end Analysis

end ChangeScope
