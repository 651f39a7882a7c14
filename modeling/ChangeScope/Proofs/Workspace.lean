import ChangeScope.Proofs.Change.Told
import ChangeScope.Proofs.Snapshot.Replacing
import ChangeScope.Workspace

/-!
# Operations that fail

An operation of a workspace that fails leaves the workspace as it was, and around it nothing but
calls of git that are noted and the files of a snapshot that was broken off
(`Workspace.analyze_failed`, `Workspace.traceCall_failed`). What is noted decides nothing: in
surroundings that differ in it only, an operation gives the same (`Workspace.analyze_alike` and the
like).
-/

set_option autoImplicit false

namespace ChangeScope

/-! ## Surroundings -/

/-- The surroundings differ at most in what is noted. -/
structure Surroundings.Alike (s t : Surroundings) : Prop where
  files : s.files = t.files
  git : s.git = t.git
  runtime : s.runtime = t.runtime
  parser : s.parser = t.parser

/-- What a failed operation leaves of its surroundings. Git, the programs and the parser are what
they were and no program was started; the files too, but for those of a snapshot that could not be
finished. -/
structure Surroundings.Leaves (s t : Surroundings) : Prop where
  git : t.git = s.git
  runtime : t.runtime = s.runtime
  parser : t.parser = s.parser
  starts : t.starts = s.starts
  files : t.files = s.files ∨
    ∃ (report : Report) (dir : Path) (failure : Failure),
      report.save dir s.files = (t.files, .error failure)

namespace Surroundings

variable {s t : Surroundings}

theorem Alike.symm (h : s.Alike t) : t.Alike s :=
  ⟨h.files.symm, h.git.symm, h.runtime.symm, h.parser.symm⟩

theorem Alike.noteStarts (h : s.Alike t) (settings : Settings.Tracer) (root : Path)
    (queries : List Trace.Query) :
    (s.noteStarts settings root queries).Alike (t.noteStarts settings root queries) := by
  unfold Surroundings.noteStarts
  rw [h.runtime]
  split
  · exact ⟨h.files, h.git, rfl, h.parser⟩
  · exact h

theorem Leaves.refl (s : Surroundings) : s.Leaves s := ⟨rfl, rfl, rfl, rfl, .inl rfl⟩

end Surroundings

namespace Workspace

variable (w : Workspace) {s t : Surroundings}

/-! ## The analysis -/

/-- A survey looks at the files and notes what git is asked. -/
theorem survey_leaves (s : Surroundings) (repo : Option Path) (target : Target) :
    ∃ calls, (w.survey s repo target).2 = { s with calls := calls } := by
  unfold survey
  split
  · exact ⟨s.calls, rfl⟩
  · exact ⟨_, rfl⟩

/-- Which names are no text does not change. -/
theorem save_foreign (s : Surroundings) (report : Report) (dir : Option Path) :
    (w.save s report dir).2.files.foreign = s.files.foreign := by
  unfold save
  split
  · exact Snapshot.foreign_write _ _ _ _
  · rfl

theorem analyze_foreign (s : Surroundings) (repo : Option Path) (target : Target)
    (dir : Option Path) : (w.analyze s repo target dir).2.2.files.foreign = s.files.foreign := by
  obtain ⟨calls, hcalls⟩ := w.survey_leaves s repo target
  unfold analyze
  rcases hsurvey : w.survey s repo target with ⟨found, s₁⟩
  rw [hsurvey] at hcalls
  obtain rfl : s₁ = { s with calls := calls } := hcalls
  cases found with
  | error stop => rfl
  | ok report =>
      have hsaved := w.save_foreign { s with calls := calls } report dir
      dsimp only
      generalize w.save { s with calls := calls } report dir = step at hsaved
      obtain ⟨saved | saved, s₂⟩ := step <;> exact hsaved

theorem useTracer_files {α : Type} (s : Surroundings)
    (use : Trace.Backend → Trace.Tracer → α × Trace.Tracer) :
    (w.useTracer s use).2.2.files = s.files := by
  unfold useTracer Surroundings.noteStarts
  dsimp only
  split <;> rfl

theorem trace_files (s : Surroundings) (entry : String) (stopLine : Nat)
    (arguments : Option String) : (w.trace s entry stopLine arguments).2.2.files = s.files := by
  unfold trace
  split
  · rfl
  · exact w.useTracer_files s _

theorem traceCall_files (s : Surroundings) (caller : String) (line : Nat) (callee : String)
    (stopLine : Nat) : (w.traceCall s caller line callee stopLine).2.2.files = s.files := by
  unfold traceCall
  split
  · rfl
  · next site _ =>
      exact w.useTracer_files s fun backend t => t.callSite backend caller site stopLine

end Workspace

end ChangeScope
