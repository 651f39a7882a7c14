import ChangeScope.Trace.Tracer
import ChangeScope.Proofs.Ordered
import ChangeScope.Proofs.Trace.Log

/-!
# Answers from the log are what a new run would tell

A tracer takes requests one after the other. Where each run of a function follows one fixed course
and the log has room for all of it, a request is answered from the log exactly when an earlier run
came far enough, and the answer is what a new run would give, without the lines that it repeats
(`replay_law`). The invariant is that the log holds the first event of each key of the answers
that were executed, and that each of these is a beginning of the course (`Tracer.Follows`).
-/

set_option autoImplicit false

namespace ChangeScope.Trace

/-! ## Requests -/

/-- A request for a trace. -/
structure Ask where
  entry : String
  stopLine : Nat
  arguments : Option Arguments

/-- A request with its answer and the queries that it sent to the backend. -/
structure Turn where
  ask : Ask
  events : List Event
  queries : List Query

/-- The arguments of the latest of some requests for a function; the newest request stands
first. -/
def lastArguments (entry : String) : List Ask → Arguments
  | [] => {}
  | ask :: earlier =>
      if ask.entry = entry then ask.arguments.getD (lastArguments entry earlier)
      else lastArguments entry earlier

/-- The arguments that a request is about after others. -/
def Ask.argumentsAfter (ask : Ask) (past : List Turn) : Arguments :=
  ask.arguments.getD (lastArguments ask.entry (past.map (·.ask)).reverse)

/-- The function was executed with the arguments. -/
def Turn.Executes (turn : Turn) (entry : String) (arguments : Arguments) : Prop :=
  ∃ request, turn.queries = [.trace request] ∧ request.entry = entry ∧
    request.arguments = arguments

/-- The numbers of the lines in the answer. -/
def Turn.numbers (turn : Turn) : List Nat := turn.events.filterMap Event.lineNumber?

namespace Tracer

/-- One request. -/
def turn (backend : Backend) (t : Tracer) (ask : Ask) : Turn × Tracer :=
  let (events, next) := trace backend t ask.entry ask.stopLine ask.arguments
  (⟨ask, events, next.sent.drop t.sent.length⟩, next)

/-- Requests, one after the other. -/
def turns (backend : Backend) : Tracer → List Ask → List Turn
  | _, [] => []
  | t, ask :: rest => (turn backend t ask).1 :: turns backend (turn backend t ask).2 rest

/-- The log has room for the new events of each executed request. -/
def Roomy (backend : Backend) : Tracer → List Ask → Prop
  | _, [] => True
  | t, ask :: rest =>
      (∀ request, (turn backend t ask).1.queries = [.trace request] →
        t.session.log.length + (t.session.record request.entry request.arguments
          (turn backend t ask).1.events).2 ≤ t.session.capacity) ∧
      Roomy backend (turn backend t ask).2 rest

end Tracer

/-! ## Backends that follow a course -/

/-- Lines of a function, then at most one end of the call. -/
def IsCourse (file : Path) (function : String) (course : List Event) : Prop :=
  ∃ lines ending, course = lines ++ ending ∧
    (∀ event ∈ lines, ∃ number locals, event = .line file.text function number locals) ∧
    ending.length ≤ 1 ∧
    ∀ event ∈ ending, (∃ value, event = .returned value) ∨
      ∃ message traceback line file, event = .raised message traceback line file

/-- The events up to the first line from the stop line on, or all of them, and the end of the
trace. -/
def stopAt (stopLine : Nat) : List Event → List Event
  | [] => [.done]
  | event :: rest =>
      if event.lineNumber?.any (stopLine ≤ ·) then [event, .done]
      else event :: stopAt stopLine rest

/-- Each run of a function with arguments follows its course up to the stop line. -/
structure Backend.Follows (backend : Backend) (course : String → Arguments → List Event) :
    Prop where
  isCourse : ∀ entry arguments file function, FunctionId.split? entry = some (file, function) →
    IsCourse file function (course entry arguments)
  trace_eq : ∀ request function, FunctionId.split? request.entry = some (request.file, function) →
    backend.trace request = .ok (stopAt request.stopLine (course request.entry request.arguments))

/-! ### Beginnings of a course -/

theorem IsCourse.exists_lines {file : Path} {function : String} {course : List Event}
    (h : IsCourse file function course) :
    ∃ lines ending, course = lines ++ ending ∧
      (∀ event ∈ lines, ∃ number locals, event = .line file.text function number locals) ∧
      ∀ event ∈ ending, event.lineNumber? = none := by
  obtain ⟨lines, ending, heq, hlines, -, hending⟩ := h
  refine ⟨lines, ending, heq, hlines, fun event he => ?_⟩
  rcases hending event he with ⟨value, rfl⟩ | ⟨message, traceback, line, f, rfl⟩ <;> rfl

theorem stopAt_of_reach {stopLine : Nat} {lines answer : List Event} (hlines : AllLines lines)
    (h : reach stopLine lines = some answer) (ending : List Event) :
    stopAt stopLine (lines ++ ending) = answer := by
  induction lines generalizing answer with
  | nil => exact absurd h (by simp [reach])
  | cons event rest ih =>
      obtain ⟨k, hk⟩ := Option.isSome_iff_exists.mp (hlines event List.mem_cons_self)
      rw [reach, hk] at h
      rw [List.cons_append, stopAt, hk]
      by_cases hstop : stopLine ≤ k
      · simp only [if_pos hstop, Option.some.injEq] at h
        simp [hstop, h]
      · simp only [if_neg hstop] at h
        obtain ⟨answer, hanswer, rfl⟩ := Option.map_eq_some_iff.mp h
        rw [ih (fun e he => hlines e (List.mem_cons_of_mem _ he)) hanswer]
        simp [hstop]

/-- What has no line number stops no run and tells no line. -/
theorem linesOf_stopAt_ending (stopLine : Nat) {ending : List Event}
    (h : ∀ event ∈ ending, event.lineNumber? = none) : linesOf (stopAt stopLine ending) = [] := by
  induction ending with
  | nil => rfl
  | cons event rest ih =>
      obtain ⟨hnone, hrest⟩ := List.forall_mem_cons.mp h
      rw [stopAt, hnone, Option.any_none, if_neg Bool.false_ne_true, linesOf_cons_none hnone]
      exact ih hrest

/-- A run tells a beginning of the lines of its course. -/
theorem exists_linesOf_stopAt (stopLine : Nat) {lines ending : List Event}
    (hlines : AllLines lines) (hending : ∀ event ∈ ending, event.lineNumber? = none) :
    ∃ n, linesOf (stopAt stopLine (lines ++ ending)) = lines.take n := by
  induction lines with
  | nil => exact ⟨0, linesOf_stopAt_ending stopLine hending⟩
  | cons event rest ih =>
      obtain ⟨k, hk⟩ := Option.isSome_iff_exists.mp (hlines event List.mem_cons_self)
      obtain ⟨n, hn⟩ := ih fun e he => hlines e (List.mem_cons_of_mem _ he)
      rw [List.cons_append, stopAt, hk, Option.any_some]
      by_cases hstop : stopLine ≤ k
      · -- the line that stops the run is told itself
        refine ⟨1, ?_⟩
        rw [if_pos (decide_eq_true hstop), linesOf_cons_some hk, List.take_succ_cons,
          List.take_zero]
        rfl
      · refine ⟨n + 1, ?_⟩
        rw [if_neg (by simpa using hstop), linesOf_cons_some hk, List.take_succ_cons, hn]

/-- What a run tells is of its course, up to the end of the trace. -/
theorem mem_of_mem_stopAt {stopLine : Nat} {course : List Event} {event : Event}
    (h : event ∈ stopAt stopLine course) : event ∈ course ∨ event = .done := by
  induction course with
  | nil => exact Or.inr (List.mem_singleton.mp h)
  | cons first rest ih =>
      rw [stopAt] at h
      split at h
      · rcases List.mem_cons.mp h with rfl | h
        · exact Or.inl List.mem_cons_self
        · exact Or.inr (List.mem_singleton.mp h)
      · rcases List.mem_cons.mp h with rfl | h
        · exact Or.inl List.mem_cons_self
        · exact (ih h).imp_left (List.mem_cons_of_mem _)

/-- What a run tells of lines are lines of its function, written as its id has it. -/
theorem IsCourse.event_cases {file : Path} {function : String} {course : List Event}
    (h : IsCourse file function course) {stopLine : Nat} {event : Event}
    (he : event ∈ stopAt stopLine course) :
    event.lineNumber? = none ∧ event.isLineIn function file = false ∨
      ∃ number locals, event = .line file.text function number locals := by
  obtain ⟨lines, ending, rfl, hlines, -, hending⟩ := h
  rcases mem_of_mem_stopAt he with he | rfl
  · rcases List.mem_append.mp he with he | he
    · exact Or.inr (hlines event he)
    · rcases hending event he with ⟨value, rfl⟩ | ⟨message, traceback, line, f, rfl⟩ <;>
        exact Or.inl ⟨rfl, rfl⟩
  · exact Or.inl ⟨rfl, rfl⟩

/-! ## What the log tells of a run -/

/-- What an executed request has for the log. -/
def Turn.logged (turn : Turn) : List Logged :=
  match turn.queries with
  | [.trace request] => loggable (Run.of request.entry request.arguments) turn.events
  | _ => []

/-- The lines that were told when the run was executed. -/
def Turn.linesOf (run : Run) (turn : Turn) : List Event :=
  match turn.queries with
  | [.trace request] =>
      if Run.of request.entry request.arguments = run then Trace.linesOf turn.events else []
  | _ => []

/-- The requests before `t`: the log of `t` holds what was executed, each time a beginning of the
course, and `t` remembers the arguments. -/
structure Tracer.Follows (course : String → Arguments → List Event) (t : Tracer)
    (past : List Turn) : Prop where
  holds : t.session.Holds (past.flatMap Turn.logged)
  remembered : ∀ entry, (FunctionId.split? entry).isSome = true →
    (t.session.arguments.get? entry).getD {} = lastArguments entry (past.map (·.ask)).reverse
  followed : ∀ turn ∈ past, ∀ request, turn.queries = [.trace request] →
    turn.events = stopAt request.stopLine (course request.entry request.arguments)

/-- The lines of a function among logged events of its run. -/
def Logged.isLineOf (run : Run) (function : String) (file : Path) (logged : Logged) : Bool :=
  logged.run == run && logged.event.isLineIn function file

/-- The key of a line of a function in its run. -/
def EventKey.isLineOf (run : Run) (function : String) (file : Path) : EventKey → Bool
  | .line r f name _ => r == run && (name == function && Path.same ⟨f⟩ file)
  | _ => false

/-- The key tells whether an event is a line of the run. -/
theorem Logged.isLineOf_of_key {logged : Logged} {k : EventKey} (h : logged.key? = some k)
    (run : Run) (function : String) (file : Path) :
    logged.isLineOf run function file = k.isLineOf run function file := by
  obtain ⟨r, event⟩ := logged
  cases event <;> cases h <;>
    simp [Logged.isLineOf, EventKey.isLineOf, Event.isLineIn]

/-- An answer from the log is made of the logged lines of the run. -/
theorem Session.cached?_eq_reach_log (s : Session) (entry function : String) (file : Path)
    (stopLine : Nat) (arguments : Arguments) :
    s.cached? entry function file stopLine arguments =
      reach stopLine
        ((s.log.filter (Logged.isLineOf (Run.of entry arguments) function file)).map
          (·.event)) := by
  have hpick : (s.eventsOf (Run.of entry arguments)).filter (Event.isLineIn function file) =
      (s.log.filter (Logged.isLineOf (Run.of entry arguments) function file)).map (·.event) := by
    rw [Session.eventsOf, List.filter_map, List.filter_filter]
    congr 2
    funext logged
    exact Bool.and_comm _ _
  rw [Session.cached?, replayTo_eq_reach, hpick]

/-- Events with one key are both lines of the run, or neither is. -/
theorem Logged.isLineOf_congr (run : Run) (function : String) (file : Path) (x y : Logged)
    (k : EventKey) (hx : x.key? = some k) (hy : y.key? = some k) :
    x.isLineOf run function file = y.isLineOf run function file := by
  rw [Logged.isLineOf_of_key hx, Logged.isLineOf_of_key hy]

/-- The lines of a run in a log are the first ones of each number. -/
theorem lines_firstOf {run : Run} {function : String} {file : Path} {all : List Logged}
    (h : ∀ logged ∈ all, logged.isLineOf run function file = true →
      ∃ number locals, logged.event = .line file.text function number locals) :
    ((firstOf Logged.key? [] all).filter (Logged.isLineOf run function file)).map (·.event) =
      firstOf Event.lineNumber? []
        ((all.filter (Logged.isLineOf run function file)).map (·.event)) := by
  have hnumber : ∀ x ∈ all.filter (Logged.isLineOf run function file), x.key? =
      (x.event.lineNumber?).map (EventKey.line run file.text function) := by
    intro x hx
    obtain ⟨hmem, hline⟩ := List.mem_filter.mp hx
    obtain ⟨number, locals, hevent⟩ := h x hmem hline
    have hrun : x.run = run := by
      rw [Logged.isLineOf, Bool.and_eq_true] at hline
      exact eq_of_beq hline.1
    rw [Logged.key?, hevent, hrun]
    rfl
  rw [firstOf_filter (Logged.isLineOf_congr run function file)]
  exact firstOf_map (fun i j hij => by cases hij; rfl) _ hnumber []

theorem loggable_filter_other {run other : Run} (h : other ≠ run) (function : String)
    (file : Path) (events : List Event) :
    (loggable other events).filter (Logged.isLineOf run function file) = [] := by
  refine List.filter_eq_nil_iff.mpr fun logged hl => ?_
  obtain ⟨event, -, rfl⟩ := List.mem_map.mp (List.mem_filter.mp hl).1
  simp [Logged.isLineOf, h]

theorem loggable_filter_self (run : Run) {function : String} {file : Path} {events : List Event}
    (h : ∀ event ∈ events, event.lineNumber? = none ∧ event.isLineIn function file = false ∨
      ∃ number locals, event = .line file.text function number locals) :
    ((loggable run events).filter (Logged.isLineOf run function file)).map (·.event) =
      linesOf events := by
  induction events with
  | nil => rfl
  | cons event rest ih =>
      have ih := ih fun e he => h e (List.mem_cons_of_mem _ he)
      rcases h event List.mem_cons_self with ⟨hnone, hother⟩ | ⟨number, locals, rfl⟩
      · have hskip : Logged.isLineOf run function file ⟨run, event⟩ = false := by
          simp [Logged.isLineOf, hother]
        rw [linesOf_cons_none hnone]
        cases hkey : (Logged.mk run event).key? with
        | none => rw [loggable_cons_none hkey, ih]
        | some k =>
            rw [loggable_cons_some hkey, List.filter_cons, hskip]
            exact ih
      · have hkeep : Logged.isLineOf run function file
            ⟨run, .line file.text function number locals⟩ = true := by
          simp [Logged.isLineOf, Event.isLineIn, Path.same_self]
        rw [linesOf_cons_some rfl, loggable_cons_some rfl, List.filter_cons, hkeep, ← ih]
        rfl

section Course

variable {backend : Backend} {course : String → Arguments → List Event} {t : Tracer}
  {past : List Turn} {entry function : String} {file : Path} {arguments : Arguments}

/-- The lines of a run in what was executed are the ones that were told then. -/
theorem Turn.logged_lines (hback : backend.Follows course)
    (hentry : FunctionId.split? entry = some (file, function)) {turn : Turn}
    (hturn : ∀ request, turn.queries = [.trace request] →
      turn.events = stopAt request.stopLine (course request.entry request.arguments)) :
    (turn.logged.filter (Logged.isLineOf (Run.of entry arguments) function file)).map (·.event) =
      turn.linesOf (Run.of entry arguments) := by
  unfold Turn.logged Turn.linesOf
  split
  · next request hqueries =>
      split
      · next hrun =>
          obtain ⟨rfl, rfl⟩ := Run.of_inj.mp hrun
          refine loggable_filter_self _ fun event he => ?_
          rw [hturn request hqueries] at he
          exact (hback.isCourse _ _ file function hentry).event_cases he
      · next hrun => rw [loggable_filter_other hrun, List.map_nil]
  · rfl

/-- A logged line of a function in its run is written as the id has it. -/
theorem Turn.logged_cases (hback : backend.Follows course)
    (hentry : FunctionId.split? entry = some (file, function)) {turn : Turn}
    (hturn : ∀ request, turn.queries = [.trace request] →
      turn.events = stopAt request.stopLine (course request.entry request.arguments))
    {logged : Logged} (hmem : logged ∈ turn.logged)
    (hline : logged.isLineOf (Run.of entry arguments) function file = true) :
    ∃ number locals, logged.event = .line file.text function number locals := by
  rw [Logged.isLineOf, Bool.and_eq_true, beq_iff_eq] at hline
  unfold Turn.logged at hmem
  split at hmem
  · next request hqueries =>
      obtain ⟨event, he, rfl⟩ := List.mem_map.mp (List.mem_filter.mp hmem).1
      obtain ⟨rfl, rfl⟩ := Run.of_inj.mp hline.1
      rw [hturn request hqueries] at he
      rcases (hback.isCourse _ _ file function hentry).event_cases he with ⟨-, hother⟩ | hcase
      · rw [hother] at hline
        exact absurd hline.2 Bool.false_ne_true
      · exact hcase
  · exact absurd hmem List.not_mem_nil

/-- **An answer from the log is made of the lines that were told when the run was executed.** -/
theorem Tracer.Follows.cached?_eq (h : t.Follows course past) (hback : backend.Follows course)
    (hentry : FunctionId.split? entry = some (file, function)) (stopLine : Nat) :
    t.session.cached? entry function file stopLine arguments =
      (reach stopLine (past.flatMap (Turn.linesOf (Run.of entry arguments)))).map
        (firstOf Event.lineNumber? []) := by
  set run := Run.of entry arguments with hrun
  have hlines : ((past.flatMap Turn.logged).filter (Logged.isLineOf run function file)).map
      (·.event) = past.flatMap (Turn.linesOf run) := by
    rw [List.filter_flatMap, List.map_flatMap]
    exact List.flatMap_congr fun turn hturn =>
      Turn.logged_lines hback hentry (h.followed turn hturn)
  have hwritten : ∀ logged ∈ past.flatMap Turn.logged,
      logged.isLineOf run function file = true →
        ∃ number locals, logged.event = .line file.text function number locals := by
    intro logged hmem
    obtain ⟨turn, hturn, hmem⟩ := List.mem_flatMap.mp hmem
    exact Turn.logged_cases hback hentry (h.followed turn hturn) hmem
  rw [Session.cached?_eq_reach_log, h.holds.log_eq, lines_firstOf hwritten, hlines]
  exact reach_firstOf _ [] (by simp)

/-- What was told of a run is a beginning of the lines of its course. -/
theorem Turn.linesOf_eq_take (hback : backend.Follows course)
    (hentry : FunctionId.split? entry = some (file, function)) (arguments : Arguments) :
    ∃ lines ending, course entry arguments = lines ++ ending ∧ AllLines lines ∧
      (∀ event ∈ ending, event.lineNumber? = none) ∧
      ∀ turn : Turn, (∀ request, turn.queries = [.trace request] →
        turn.events = stopAt request.stopLine (course request.entry request.arguments)) →
          ∃ n, turn.linesOf (Run.of entry arguments) = lines.take n := by
  obtain ⟨lines, ending, hcourse, hlines, hending⟩ :=
    (hback.isCourse entry arguments file function hentry).exists_lines
  have hall : AllLines lines := by
    intro event he
    obtain ⟨number, locals, rfl⟩ := hlines event he
    rfl
  refine ⟨lines, ending, hcourse, hall, hending, fun turn hturn => ?_⟩
  unfold Turn.linesOf
  split
  · next request hqueries =>
      split
      · next hrun =>
          obtain ⟨rfl, rfl⟩ := Run.of_inj.mp hrun
          rw [hturn request hqueries, hcourse]
          exact exists_linesOf_stopAt _ hall hending
      · exact ⟨0, rfl⟩
  · exact ⟨0, rfl⟩

/-- **An answer from the log is the answer of a new run without repeated lines.** -/
theorem Tracer.Follows.cached?_some (h : t.Follows course past) (hback : backend.Follows course)
    (hentry : FunctionId.split? entry = some (file, function)) {stopLine : Nat}
    {events : List Event}
    (hcached : t.session.cached? entry function file stopLine arguments = some events) :
    ∃ before last number, last.lineNumber? = some number ∧ stopLine ≤ number ∧
      stopAt stopLine (course entry arguments) = before ++ [last, .done] ∧
      events = firstOf Event.lineNumber? [] before ++ [last, .done] := by
  obtain ⟨lines, ending, hcourse, hall, -, htake⟩ :=
    Turn.linesOf_eq_take hback hentry arguments
  have hnumbered : ∀ event ∈ lines, event.lineNumber?.isSome = true := hall
  -- all that was told amounts to one beginning of the course
  obtain ⟨n, hn⟩ := firstOf_flatMap_take hnumbered past fun turn hturn =>
    htake turn (h.followed turn hturn)
  rw [h.cached?_eq hback hentry, ← reach_firstOf _ [] (by simp), hn,
    reach_firstOf _ [] (by simp)] at hcached
  obtain ⟨answer, hanswer, rfl⟩ := Option.map_eq_some_iff.mp hcached
  have hwhole : reach stopLine lines = some answer := by
    conv_lhs => rw [← List.take_append_drop n lines]
    exact reach_append hanswer _
  have hstop : stopAt stopLine (course entry arguments) = answer := by
    rw [hcourse]
    exact stopAt_of_reach hall hwhole ending
  obtain ⟨before, last, after, number, -, hbefore, hlast, hle, rfl⟩ :=
    (reach_eq_some_iff hall).mp hwhole
  refine ⟨before, last, number, hlast, hle, hstop, ?_⟩
  have hnew : number ∉ before.filterMap Event.lineNumber? ++ [] := by
    rw [List.append_nil]
    intro hmem
    exact absurd (hbefore number hmem) (by omega)
  rw [firstOf_append, firstOf_new hlast hnew, firstOf_none rfl, firstOf_nil]

theorem Turn.mem_numbers_linesOf {turn : Turn} {number : Nat} :
    number ∈ (turn.linesOf (Run.of entry arguments)).filterMap Event.lineNumber? ↔
      turn.Executes entry arguments ∧ number ∈ turn.numbers := by
  have hlines : (Trace.linesOf turn.events).filterMap Event.lineNumber? = turn.numbers := by
    rw [Trace.linesOf, List.filterMap_filter, Turn.numbers]
    congr 1
    funext event
    cases event <;> rfl
  unfold Turn.linesOf Turn.Executes
  split
  · next request hqueries =>
      split
      · next hrun =>
          rw [hlines]
          exact ⟨fun hmem => ⟨⟨request, hqueries, Run.of_inj.mp hrun⟩, hmem⟩, And.right⟩
      · next hrun =>
          constructor
          · intro hmem
            exact absurd hmem List.not_mem_nil
          · rintro ⟨⟨other, hother, hsame⟩, -⟩
            rw [hqueries] at hother
            cases hother
            exact absurd (Run.of_inj.mpr hsame) hrun
  · next hqueries =>
      constructor
      · intro hmem
        exact absurd hmem List.not_mem_nil
      · rintro ⟨⟨request, hrequest, -⟩, -⟩
        exact absurd hrequest (hqueries request)

/-- **A request is answered from the log exactly when an executed one came far enough.** -/
theorem Tracer.Follows.cached?_isSome (h : t.Follows course past) (hback : backend.Follows course)
    (hentry : FunctionId.split? entry = some (file, function)) {stopLine : Nat} :
    (t.session.cached? entry function file stopLine arguments).isSome = true ↔
      ∃ earlier ∈ past, earlier.Executes entry arguments ∧
        ∃ number ∈ earlier.numbers, stopLine ≤ number := by
  rw [h.cached?_eq hback hentry, Option.isSome_map, reach_isSome_iff, List.filterMap_flatMap]
  constructor
  · rintro ⟨number, hmem, hle⟩
    obtain ⟨turn, hturn, hmem⟩ := List.mem_flatMap.mp hmem
    obtain ⟨hexec, hnumber⟩ := Turn.mem_numbers_linesOf.mp hmem
    exact ⟨turn, hturn, hexec, number, hnumber, hle⟩
  · rintro ⟨turn, hturn, hexec, number, hnumber, hle⟩
    exact ⟨number, List.mem_flatMap.mpr ⟨turn, hturn,
      Turn.mem_numbers_linesOf.mpr ⟨hexec, hnumber⟩⟩, hle⟩

end Course

/-! ## One request -/

/-- The events for an executed request: what the backend tells, or its failure. -/
def Backend.eventsFor (backend : Backend) (request : Request) : List Event :=
  match backend.trace request with
  | .ok events => events
  | .error failure => [.ofFailure failure request.stopLine (some request.file)]

theorem Backend.eventsFor_ok {backend : Backend} {request : Request} {events : List Event}
    (h : backend.trace request = .ok events) : backend.eventsFor request = events := by
  rw [eventsFor, h]

namespace Tracer

variable {backend : Backend} {t : Tracer} {ask : Ask} {file : Path} {function : String}

theorem turn_invalid (h : FunctionId.split? ask.entry = none) :
    turn backend t ask =
      (⟨ask, [.ofFailure (.invalidFunctionId ask.entry) ask.stopLine none], []⟩, t) := by
  simp only [turn, trace, h, List.drop_length]

/-- The tracer with the arguments of a request remembered. -/
def remembering (t : Tracer) (ask : Ask) : Tracer :=
  { t with session := t.session.remember ask.entry (t.argumentsFor ask.entry ask.arguments) }

/-- The query that a request sends to the backend. -/
def query (t : Tracer) (ask : Ask) (file : Path) : Request :=
  { entry := ask.entry, stopLine := ask.stopLine,
    arguments := t.argumentsFor ask.entry ask.arguments, file := file }

/-- A request that is answered from the log changes the remembered arguments alone. -/
theorem turn_cached (h : FunctionId.split? ask.entry = some (file, function))
    {events : List Event}
    (hcached : t.session.cached? ask.entry function file ask.stopLine
      (t.argumentsFor ask.entry ask.arguments) = some events) :
    turn backend t ask = (⟨ask, events, []⟩, t.remembering ask) := by
  have hcached' : (t.remembering ask).session.cached? ask.entry function file ask.stopLine
      (t.argumentsFor ask.entry ask.arguments) = some events := hcached
  rw [remembering] at hcached'
  simp only [turn, trace, h, hcached', List.drop_length, remembering]

/-- An executed request logs its answer. -/
theorem turn_executed (h : FunctionId.split? ask.entry = some (file, function))
    (hcached : t.session.cached? ask.entry function file ask.stopLine
      (t.argumentsFor ask.entry ask.arguments) = none) :
    turn backend t ask =
      (⟨ask, backend.eventsFor (t.query ask file), [.trace (t.query ask file)]⟩,
        ⟨((t.remembering ask).session.record ask.entry (t.query ask file).arguments
            (backend.eventsFor (t.query ask file))).1,
          t.sent ++ [.trace (t.query ask file)]⟩) := by
  have hcached' : (t.remembering ask).session.cached? ask.entry function file ask.stopLine
      (t.argumentsFor ask.entry ask.arguments) = none := hcached
  rw [remembering] at hcached'
  simp only [turn, trace, h, hcached', execute, List.drop_left, query, remembering]
  rfl

end Tracer

/-- What holds of a request that comes after others. -/
structure Turn.Lawful (course : String → Arguments → List Event) (past : List Turn)
    (turn : Turn) : Prop where
  /-- A text that is no id is answered by a failure. -/
  invalid : FunctionId.split? turn.ask.entry = none →
    turn.queries = [] ∧
      turn.events = [.ofFailure (.invalidFunctionId turn.ask.entry) turn.ask.stopLine none]
  /-- The backend is asked unless an executed request came far enough. -/
  asks_iff : ∀ file function, FunctionId.split? turn.ask.entry = some (file, function) →
    (turn.queries ≠ [] ↔
      ¬ ∃ earlier ∈ past, earlier.Executes turn.ask.entry (turn.ask.argumentsAfter past) ∧
        ∃ number ∈ earlier.numbers, turn.ask.stopLine ≤ number)
  /-- An executed request is answered by the course up to the stop line. -/
  executed : ∀ file function, FunctionId.split? turn.ask.entry = some (file, function) →
    turn.queries ≠ [] →
      turn.queries =
          [.trace ⟨turn.ask.entry, turn.ask.stopLine, turn.ask.argumentsAfter past, file⟩] ∧
        turn.events =
          stopAt turn.ask.stopLine (course turn.ask.entry (turn.ask.argumentsAfter past))
  /-- Any other is answered by the same without repeated lines, and stops at the same event. -/
  replayed : ∀ file function, FunctionId.split? turn.ask.entry = some (file, function) →
    turn.queries = [] →
      ∃ before last number, last.lineNumber? = some number ∧ turn.ask.stopLine ≤ number ∧
        stopAt turn.ask.stopLine (course turn.ask.entry (turn.ask.argumentsAfter past)) =
          before ++ [last, .done] ∧
        turn.events = firstOf Event.lineNumber? [] before ++ [last, .done]

namespace Tracer

variable {backend : Backend} {course : String → Arguments → List Event} {t : Tracer}
  {past : List Turn} {ask : Ask} {file : Path} {function : String}

/-- The arguments that are not given are the ones of the latest request. -/
theorem Follows.argumentsFor_eq (h : t.Follows course past)
    (hentry : FunctionId.split? ask.entry = some (file, function)) :
    t.argumentsFor ask.entry ask.arguments = ask.argumentsAfter past := by
  have hsome : (FunctionId.split? ask.entry).isSome = true := by
    rw [hentry]
    rfl
  rw [argumentsFor, h.remembered ask.entry hsome, Ask.argumentsAfter]

theorem Follows.remembered_after (h : t.Follows course past)
    (hentry : FunctionId.split? ask.entry = some (file, function)) {entry : String}
    (hsome : (FunctionId.split? entry).isSome = true) :
    ((t.remembering ask).session.arguments.get? entry).getD {} =
      lastArguments entry (ask :: (past.map (·.ask)).reverse) := by
  show ((t.session.arguments.insert ask.entry _).get? entry).getD {} = _
  rw [lastArguments]
  by_cases hsame : ask.entry = entry
  · subst hsame
    rw [if_pos rfl, OrderedMap.get?_insert_self, h.argumentsFor_eq hentry]
    rfl
  · rw [if_neg hsame, OrderedMap.get?_insert_of_ne (Ne.symm hsame)]
    exact h.remembered entry hsome

/-- One more request goes on to follow the course. -/
theorem Follows.append (h : t.Follows course past) {next : Tracer} {turn : Turn}
    (hholds : next.session.Holds (past.flatMap Turn.logged ++ turn.logged))
    (hremembered : ∀ entry, (FunctionId.split? entry).isSome = true →
      (next.session.arguments.get? entry).getD {} =
        lastArguments entry (turn.ask :: (past.map (·.ask)).reverse))
    (hfollowed : ∀ request, turn.queries = [.trace request] →
      turn.events = stopAt request.stopLine (course request.entry request.arguments)) :
    next.Follows course (past ++ [turn]) := by
  refine ⟨?_, ?_, ?_⟩
  · rw [List.flatMap_append, List.flatMap_singleton]
    exact hholds
  · intro entry hsome
    rw [List.map_append, List.map_singleton, List.reverse_append, List.reverse_singleton,
      List.singleton_append]
    exact hremembered entry hsome
  · intro other hother
    rcases List.mem_append.mp hother with hother | hother
    · exact h.followed other hother
    · rw [List.mem_singleton.mp hother]
      exact hfollowed

/-- An invalid id changes nothing. -/
theorem Follows.turn_invalid (h : t.Follows course past)
    (hentry : FunctionId.split? ask.entry = none) :
    (turn backend t ask).1.Lawful course past ∧
      (turn backend t ask).2.Follows course (past ++ [(turn backend t ask).1]) := by
  have hnot : ∀ file function, FunctionId.split? ask.entry ≠ some (file, function) := by
    intro file function hsome
    rw [hentry] at hsome
    exact absurd hsome (by simp)
  rw [Tracer.turn_invalid hentry]
  constructor
  · exact ⟨fun _ => ⟨rfl, rfl⟩, fun file function hsome => absurd hsome (hnot file function),
      fun file function hsome => absurd hsome (hnot file function),
      fun file function hsome => absurd hsome (hnot file function)⟩
  · refine h.append ?_ ?_ ?_
    · show t.session.Holds (_ ++ [])
      rw [List.append_nil]
      exact h.holds
    · intro entry hsome
      have hne : ask.entry ≠ entry := by
        rintro rfl
        rw [hentry] at hsome
        exact absurd hsome Bool.false_ne_true
      rw [lastArguments, if_neg hne]
      exact h.remembered entry hsome
    · intro request hrequest
      exact absurd hrequest (by simp)

/-- What the log answers is lawful, and stays in the log. -/
theorem Follows.turn_cached (h : t.Follows course past) (hback : backend.Follows course)
    (hentry : FunctionId.split? ask.entry = some (file, function)) {events : List Event}
    (hcached : t.session.cached? ask.entry function file ask.stopLine
      (t.argumentsFor ask.entry ask.arguments) = some events) :
    (turn backend t ask).1.Lawful course past ∧
      (turn backend t ask).2.Follows course (past ++ [(turn backend t ask).1]) := by
  rw [Tracer.turn_cached hentry hcached]
  rw [h.argumentsFor_eq hentry] at hcached
  have hfar := (h.cached?_isSome hback hentry).mp (Option.isSome_of_mem hcached)
  constructor
  · refine ⟨?_, ?_, ?_, ?_⟩
    · intro hnone
      rw [hentry] at hnone
      exact absurd hnone (by simp)
    · intro file' function' _
      exact ⟨fun hasks => absurd rfl hasks, fun hnot => absurd hfar hnot⟩
    · intro file' function' _ hasks
      exact absurd rfl hasks
    · intro file' function' _ _
      exact h.cached?_some hback hentry hcached
  · refine h.append ?_ ?_ ?_
    · show (t.remembering ask).session.Holds (_ ++ [])
      rw [List.append_nil]
      exact ⟨h.holds.log_eq, h.holds.mem_seen⟩
    · intro entry hsome
      exact h.remembered_after hentry hsome
    · intro request hrequest
      exact absurd hrequest (by simp)

/-- What is executed is lawful, and is logged. -/
theorem Follows.turn_executed (h : t.Follows course past) (hback : backend.Follows course)
    (hentry : FunctionId.split? ask.entry = some (file, function))
    (hcached : t.session.cached? ask.entry function file ask.stopLine
      (t.argumentsFor ask.entry ask.arguments) = none)
    (hroom : ∀ request, (turn backend t ask).1.queries = [.trace request] →
      t.session.log.length + (t.session.record request.entry request.arguments
        (turn backend t ask).1.events).2 ≤ t.session.capacity) :
    (turn backend t ask).1.Lawful course past ∧
      (turn backend t ask).2.Follows course (past ++ [(turn backend t ask).1]) := by
  have hrun : backend.eventsFor (t.query ask file) = stopAt ask.stopLine
      (course ask.entry (t.query ask file).arguments) :=
    Backend.eventsFor_ok (hback.trace_eq _ function hentry)
  rw [Tracer.turn_executed hentry hcached, hrun] at hroom ⊢
  have harguments : (t.query ask file).arguments = ask.argumentsAfter past :=
    h.argumentsFor_eq hentry
  -- the log would have answered, had an earlier run come that far
  have hnear : ¬ ∃ earlier ∈ past, earlier.Executes ask.entry (ask.argumentsAfter past) ∧
      ∃ number ∈ earlier.numbers, ask.stopLine ≤ number := by
    rw [← h.cached?_isSome hback hentry, ← h.argumentsFor_eq hentry, hcached]
    exact Bool.false_ne_true
  constructor
  · refine ⟨?_, ?_, ?_, ?_⟩
    · intro hnone
      rw [hentry] at hnone
      exact absurd hnone (by simp)
    · intro file' function' _
      exact ⟨fun _ => hnear, fun _ => List.cons_ne_nil _ _⟩
    · intro file' function' hentry' _
      obtain ⟨rfl, rfl⟩ : file = file' ∧ function = function' := by
        rw [hentry] at hentry'
        cases hentry'
        exact ⟨rfl, rfl⟩
      rw [← harguments]
      exact ⟨rfl, rfl⟩
    · intro file' function' _ hnil
      exact absurd hnil (List.cons_ne_nil _ _)
  · have hholds := Session.recordRun_holds _ _ h.holds (hroom _ rfl)
    rw [remembering, Session.record_remember]
    refine h.append ?_ ?_ ?_
    · exact ⟨hholds.log_eq, hholds.mem_seen⟩
    · intro entry hsome
      exact h.remembered_after hentry hsome
    · intro request hrequest
      cases hrequest
      rfl

/-- **One request is answered by the law, and the log goes on to follow the course.** -/
theorem Follows.turn (h : t.Follows course past) (hback : backend.Follows course)
    (hroom : ∀ request, (turn backend t ask).1.queries = [.trace request] →
      t.session.log.length + (t.session.record request.entry request.arguments
        (turn backend t ask).1.events).2 ≤ t.session.capacity) :
    (turn backend t ask).1.Lawful course past ∧
      (turn backend t ask).2.Follows course (past ++ [(turn backend t ask).1]) := by
  cases hentry : FunctionId.split? ask.entry with
  | none => exact h.turn_invalid hentry
  | some parts =>
      obtain ⟨file, function⟩ := parts
      cases hcached : t.session.cached? ask.entry function file ask.stopLine
          (t.argumentsFor ask.entry ask.arguments) with
      | some events => exact h.turn_cached hback hentry hcached
      | none => exact h.turn_executed hback hentry hcached hroom

/-- Requests one after the other are answered by the law. -/
theorem Follows.turns (hback : backend.Follows course) {turn : Turn} {later : List Turn}
    (asks : List Ask) : ∀ {t : Tracer} {past earlier : List Turn}, t.Follows course past →
      Roomy backend t asks → turns backend t asks = earlier ++ turn :: later →
        turn.Lawful course (past ++ earlier) := by
  induction asks with
  | nil =>
      intro t past earlier _ _ hturns
      exact absurd hturns (by simp [Tracer.turns])
  | cons ask rest ih =>
      intro t past earlier h hroom hturns
      obtain ⟨hroom, hrest⟩ := hroom
      obtain ⟨hlawful, hnext⟩ := h.turn hback hroom
      rw [Tracer.turns] at hturns
      cases earlier with
      | nil =>
          rw [← (List.cons.inj hturns).1, List.append_nil]
          exact hlawful
      | cons first earlier =>
          rw [List.cons_append] at hturns
          obtain ⟨hfirst, hothers⟩ := List.cons.inj hturns
          rw [hfirst] at hnext
          have hlater := ih hnext hrest hothers
          rw [List.append_assoc] at hlater
          exact hlater

end Tracer

/-- **Replay law.** Let the runs of a backend follow a course and let a tracer be given requests
after a reset, with room in its log. Then each answer is the one of a new run or, where an earlier
run with the same arguments came far enough, the same without the lines that it repeats. -/
theorem replay_law {backend : Backend} {course : String → Arguments → List Event}
    (hback : backend.Follows course) (t : Tracer) {asks : List Ask}
    (hroom : t.reset.Roomy backend asks) {past : List Turn} {turn : Turn} {later : List Turn}
    (hturns : t.reset.turns backend asks = past ++ turn :: later) :
    turn.Lawful course past := by
  have hstart : t.reset.Follows course [] := by
    refine ⟨⟨rfl, ?_⟩, ?_, ?_⟩
    · intro k
      simp [Tracer.reset, Session.reset]
    · intro entry _
      rfl
    · intro turn hturn
      exact absurd hturn List.not_mem_nil
  exact Tracer.Follows.turns hback asks hstart hroom hturns

/-! ### A loop -/

/-- A course that comes to one line twice. -/
def loopingCourse (entry : String) (_ : Arguments) : List Event :=
  match FunctionId.split? entry with
  | some (file, function) =>
      [.line file.text function 2 [], .line file.text function 3 [],
        .line file.text function 2 [("i", .null)], .line file.text function 4 [],
        .returned .null]
  | none => []

/-- A backend whose runs loop. -/
def loopingBackend : Backend :=
  { trace := fun request =>
      .ok (stopAt request.stopLine (loopingCourse request.entry request.arguments))
    signature := fun _ => .ok [] }

theorem loopingBackend_follows : loopingBackend.Follows loopingCourse := by
  refine ⟨fun entry arguments file function hentry => ?_, fun request function _ => rfl⟩
  rw [loopingCourse, hentry]
  refine ⟨[.line file.text function 2 [], .line file.text function 3 [],
    .line file.text function 2 [("i", .null)], .line file.text function 4 []],
    [.returned .null], rfl, ?_, by decide, ?_⟩
  · intro event he
    simp only [List.mem_cons, List.not_mem_nil, or_false] at he
    rcases he with rfl | rfl | rfl | rfl <;> exact ⟨_, _, rfl⟩
  · intro event he
    exact Or.inl ⟨_, List.mem_singleton.mp he⟩

/-- The last line of the loop, asked for twice. -/
def loopingAsks : List Ask := [⟨"m.py::f", 4, none⟩, ⟨"m.py::f", 4, some {}⟩]

/-- The second request is answered from the log, with fewer lines than the first one. -/
theorem replay_law_looping : ∃ first second : Turn,
    (Tracer.new 9).reset.Roomy loopingBackend loopingAsks ∧
      (Tracer.new 9).reset.turns loopingBackend loopingAsks = [first] ++ second :: [] ∧
      second.queries = [] ∧ first.events.length = 5 ∧ second.events.length = 4 ∧
      second.Lawful loopingCourse [first] := by
  have hroom : (Tracer.new 9).reset.Roomy loopingBackend loopingAsks := by
    refine ⟨fun request hrequest => ?_, fun request hrequest => ?_, trivial⟩
    · have heq : request = ⟨"m.py::f", 4, {}, ⟨"m.py"⟩⟩ := by
        cases hrequest
        rfl
      subst heq
      decide
    · cases hrequest
  have hturns : (Tracer.new 9).reset.turns loopingBackend loopingAsks = [_] ++ _ :: [] := rfl
  exact ⟨_, _, hroom, hturns, rfl, rfl, rfl,
    replay_law loopingBackend_follows (Tracer.new 9) hroom hturns⟩

end ChangeScope.Trace
