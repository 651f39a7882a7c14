import ChangeScope.Proofs.Trace.Separation

/-!
# Where the arguments of a call come from

A call is traced with arguments from the locals at the line of the caller that was logged last in
the run that the latest request for the caller was about. A line is logged when its run is first
executed as far as that, and neither a replay nor a repetition of the line is logged. So the line is
not always the one at which the latest answer ends (`earlier_stop_keeps_later_locals`), but it is
where that line is new to the log, and where a replay goes as far as the run has ever come
(`callSite_locals`).
-/

set_option autoImplicit false

namespace ChangeScope.Trace

/-! ## Demands -/

/-- What can be asked of a tracer. -/
inductive Demand where
  | trace (ask : Ask)
  | signature (entry : String)
  | callSite (caller : String) (site : Call.Site) (stopLine : Nat)

namespace Tracer

/-- The tracer after a demand. -/
def serve (backend : Backend) (t : Tracer) : Demand → Tracer
  | .trace ask => (trace backend t ask.entry ask.stopLine ask.arguments).2
  | .signature entry => (signature backend t entry).2
  | .callSite caller site stopLine => (callSite backend t caller site stopLine).2

/-- The tracer after demands, one after the other. -/
def serveAll (backend : Backend) (t : Tracer) (demands : List Demand) : Tracer :=
  demands.foldl (serve backend) t

/-- The request for a trace that a demand makes, and the tracer that gets it: a call is traced after
its parameters have been asked for. -/
def request? (backend : Backend) (t : Tracer) : Demand → Option (Tracer × Ask)
  | .trace ask => some (t, ask)
  | .signature _ => none
  | .callSite caller site stopLine =>
      match site.calleeId, FunctionId.split? caller with
      | some callee, some (_, callerName) =>
          let locals := (t.session.latestLocals? caller callerName).getD []
          let (params, t) := signature backend t callee
          some (t, ⟨callee, stopLine, some (Call.resolve site.args locals params.toOption)⟩)
      | _, _ => none

/-- The requests for traces that demands make, with their answers. -/
def requests (backend : Backend) : Tracer → List Demand → List Turn
  | _, [] => []
  | t, demand :: rest =>
      match request? backend t demand with
      | some (t', ask) =>
          (turn backend t' ask).1 :: requests backend (serve backend t demand) rest
      | none => requests backend (serve backend t demand) rest

/-- The two tracers have the same log and remember the same arguments. -/
structure SameLog (t t' : Tracer) : Prop where
  capacity : t'.session.capacity = t.session.capacity
  log : t'.session.log = t.session.log
  seen : t'.session.seen = t.session.seen
  arguments : t'.session.arguments = t.session.arguments

theorem SameLog.refl (t : Tracer) : SameLog t t := ⟨rfl, rfl, rfl, rfl⟩

variable {backend : Backend} {t t' : Tracer} {ask : Ask} {demand : Demand} {past : List Turn}

theorem sameLog_signature (entry : String) : SameLog t (signature backend t entry).2 := by
  unfold signature
  split
  · exact .refl t
  · split
    · exact .refl t
    · dsimp only
      split
      · exact ⟨rfl, rfl, rfl, rfl⟩
      · exact ⟨rfl, rfl, rfl, rfl⟩

/-- A demand does to the tracer what its request does. -/
theorem serve_of_request (h : request? backend t demand = some (t', ask)) :
    SameLog t t' ∧ serve backend t demand = (turn backend t' ask).2 := by
  cases demand with
  | trace ask' =>
      cases h
      exact ⟨.refl t, rfl⟩
  | signature entry => exact nomatch h
  | callSite caller site stopLine =>
      rw [request?] at h
      split at h
      · next callee file callerName hcallee hcaller =>
          cases h
          refine ⟨sameLog_signature callee, ?_⟩
          rw [serve, callSite, hcallee]
          simp only [hcaller]
          rfl
      · cases h

theorem serve_of_none (h : request? backend t demand = none) :
    SameLog t (serve backend t demand) := by
  cases demand with
  | trace ask' => exact nomatch h
  | signature entry => exact sameLog_signature entry
  | callSite caller site stopLine =>
      rw [request?] at h
      rw [serve, callSite]
      cases hcallee : site.calleeId with
      | none => exact .refl t
      | some callee =>
          cases hcaller : FunctionId.split? caller with
          | none => exact .refl t
          | some parts =>
              rw [hcallee, hcaller] at h
              exact nomatch h

end Tracer

/-! ## The lines of a function -/

/-- The event is a line of a function, by the name of the function alone. -/
def Event.isIn (function : String) : Event → Bool
  | .line _ name _ _ => name == function
  | _ => false

/-- Where a line stands. -/
def Event.spot? : Event → Option (String × Nat)
  | .line file _ number _ => some (file, number)
  | _ => none

/-- The lines of a function that were told when its run was executed. -/
def executedLines (run : Run) (function : String) (past : List Turn) : List Event :=
  past.flatMap fun turn => (turn.linesOf run).filter (Event.isIn function)

/-- The logged event is a line of a function in a run. -/
def Logged.isIn (run : Run) (function : String) (logged : Logged) : Bool :=
  logged.run == run && logged.event.isIn function

variable {run : Run} {function : String} {past : List Turn}

theorem Event.exists_line {event : Event} (h : event.isIn function = true) :
    ∃ file number locals, event = .line file function number locals := by
  cases event with
  | line file name number locals => exact ⟨file, number, locals, by rw [eq_of_beq h]⟩
  | _ => exact absurd h Bool.false_ne_true

theorem localsIn?_isSome (function : String) (event : Event) :
    (Session.localsIn? function event).isSome = event.isIn function := by
  cases event with
  | line file name number locals =>
      rw [Session.localsIn?, Event.isIn]
      by_cases h : name = function
      · rw [if_pos h, beq_iff_eq.mpr h]
        rfl
      · rw [if_neg h, beq_false_of_ne h]
        rfl
  | _ => rfl

/-- Events with one key are both lines of the function in the run, or neither is. -/
theorem Logged.isIn_congr (run : Run) (function : String) (x y : Logged) (k : EventKey)
    (hx : x.key? = some k) (hy : y.key? = some k) : x.isIn run function = y.isIn run function := by
  obtain ⟨rx, ex⟩ := x
  obtain ⟨ry, ey⟩ := y
  cases ex <;> cases hx <;> cases ey <;> cases hy <;> simp [Logged.isIn, Event.isIn]

theorem linesOf_filter_isIn (function : String) (events : List Event) :
    (linesOf events).filter (Event.isIn function) = events.filter (Event.isIn function) := by
  rw [linesOf, List.filter_filter]
  refine List.filter_congr fun event _ => ?_
  cases hin : event.isIn function with
  | false => rfl
  | true =>
      obtain ⟨file, number, locals, rfl⟩ := Event.exists_line hin
      rfl

/-- Lines have keys, so no line of the function is lost where only events with keys are logged. -/
theorem loggable_filter_isIn (run : Run) (function : String) (events : List Event) :
    (loggable run events).filter (Logged.isIn run function) =
      (events.map (Logged.mk run)).filter (Logged.isIn run function) := by
  rw [loggable, List.filter_filter]
  refine List.filter_congr fun logged _ => ?_
  cases hin : logged.isIn run function with
  | false => rfl
  | true =>
      obtain ⟨file, number, locals, hevent⟩ := Event.exists_line (Bool.and_eq_true_iff.mp hin).2
      rw [Logged.key?, hevent]
      rfl

theorem loggable_isIn_self (run : Run) (function : String) (events : List Event) :
    ((loggable run events).filter (Logged.isIn run function)).map (·.event) =
      (linesOf events).filter (Event.isIn function) := by
  have hsame : (Logged.isIn run function ∘ Logged.mk run) = Event.isIn function := by
    funext event
    simp [Logged.isIn]
  rw [loggable_filter_isIn, linesOf_filter_isIn, List.filter_map, List.map_map, hsame]
  exact List.map_id _

theorem loggable_isIn_other {other : Run} (h : other ≠ run) (events : List Event) :
    (loggable other events).filter (Logged.isIn run function) = [] := by
  refine List.filter_eq_nil_iff.mpr fun logged hlogged => ?_
  obtain ⟨event, -, rfl⟩ := List.mem_map.mp (List.mem_filter.mp hlogged).1
  simp [Logged.isIn, h]

theorem logged_filter_isIn (turn : Turn) :
    (turn.logged.filter (Logged.isIn run function)).map (·.event) =
      (turn.linesOf run).filter (Event.isIn function) := by
  unfold Turn.logged Turn.linesOf
  split
  · next request _ =>
      by_cases hrun : Run.of request.entry request.arguments = run
      · rw [if_pos hrun, ← hrun, loggable_isIn_self]
      · rw [if_neg hrun, loggable_isIn_other hrun]
        rfl
  · rfl

/-- The line of a function in a run that was logged last: a line is logged when its place is told
for the first time. -/
def lastLogged? (run : Run) (function : String) (past : List Turn) : Option Event :=
  (firstOf Event.spot? [] (executedLines run function past)).getLast?

/-- **Of the lines of a function in a run the first one told of each place is logged.** -/
theorem firstOf_filter_isIn (run : Run) (function : String) (past : List Turn) :
    ((firstOf Logged.key? [] (past.flatMap Turn.logged)).filter
        (Logged.isIn run function)).map (·.event) =
      firstOf Event.spot? [] (executedLines run function past) := by
  have hspot : ∀ x ∈ (past.flatMap Turn.logged).filter (Logged.isIn run function), x.key? =
      (x.event.spot?).map fun place => EventKey.line run place.1 function place.2 := by
    intro x hx
    obtain ⟨hrun, hin⟩ := Bool.and_eq_true_iff.mp (List.mem_filter.mp hx).2
    obtain ⟨file, number, locals, hevent⟩ := Event.exists_line hin
    rw [Logged.key?, hevent, eq_of_beq hrun]
    rfl
  have htold : ((past.flatMap Turn.logged).filter (Logged.isIn run function)).map (·.event) =
      executedLines run function past := by
    rw [List.filter_flatMap, List.map_flatMap]
    exact List.flatMap_congr fun turn _ => logged_filter_isIn turn
  rw [firstOf_filter (Logged.isIn_congr run function), ← htold]
  refine firstOf_map (fun i j hij => ?_) _ hspot []
  rw [EventKey.line.injEq] at hij
  exact Prod.ext hij.2.1 hij.2.2.2

/-- The lines of the function in one file. -/
theorem firstOf_filter_isLineOf (run : Run) (function : String) (file : Path)
    (past : List Turn) :
    ((firstOf Logged.key? [] (past.flatMap Turn.logged)).filter
        (Logged.isLineOf run function file)).map (·.event) =
      (firstOf Event.spot? [] (executedLines run function past)).filter
        (Event.isLineIn function file) := by
  rw [← firstOf_filter_isIn, List.filter_map, List.filter_filter]
  congr 1
  refine List.filter_congr fun logged _ => ?_
  obtain ⟨r, event⟩ := logged
  cases event with
  | line f name number locals =>
      show (r == run && (name == function && Path.same ⟨f⟩ file)) =
        ((name == function && Path.same ⟨f⟩ file) && (r == run && name == function))
      cases r == run <;> cases name == function <;> cases Path.same ⟨f⟩ file <;> rfl
  | _ => exact Bool.and_false _

/-- The last item that gives something, gives it. -/
theorem findSome?_reverse {α β : Type} (f : α → Option β) (l : List α) :
    l.reverse.findSome? f = ((l.filter fun x => (f x).isSome).getLast?).bind f := by
  induction l using List.reverseRecOn with
  | nil => rfl
  | append_singleton l x ih =>
      rw [List.reverse_append, List.reverse_singleton, List.singleton_append,
        List.findSome?_cons, List.filter_append, List.filter_cons]
      cases hx : f x with
      | none => simp [ih]
      | some y => simp [hx]

/-- **The latest locals of a run are those of the last of these lines.** -/
theorem lastLocals?_eq {s : Session} (h : s.Holds (past.flatMap Turn.logged)) :
    s.lastLocals? function (· == run) =
      (lastLogged? run function past).bind (Session.localsIn? function) := by
  have hpick : ((s.log.filter (·.run == run)).filter fun logged =>
      (Session.localsIn? function logged.event).isSome) =
        s.log.filter (Logged.isIn run function) := by
    rw [List.filter_filter]
    refine List.filter_congr fun logged _ => ?_
    rw [localsIn?_isSome, Bool.and_comm]
    rfl
  rw [Session.lastLocals?, List.filter_reverse, findSome?_reverse, hpick, lastLogged?,
    ← firstOf_filter_isIn, ← h.log_eq, List.getLast?_map]
  cases (s.log.filter (Logged.isIn run function)).getLast? <;> rfl

/-! ## Answers -/

/-- How a request is answered after others: a text that is no id by a failure, and any other request
from what the others have logged of its run, or by the backend. -/
inductive Turn.Answers (past : List Turn) (turn : Turn) : Prop where
  | invalid : FunctionId.split? turn.ask.entry = none → turn.queries = [] → Answers past turn
  | replayed {file : Path} {function : String} :
      FunctionId.split? turn.ask.entry = some (file, function) → turn.queries = [] →
      reach turn.ask.stopLine ((firstOf Event.spot? []
        (executedLines (Run.of turn.ask.entry (turn.ask.argumentsAfter past)) function past)).filter
          (Event.isLineIn function file)) = some turn.events →
      Answers past turn
  | executed {file : Path} {function : String} :
      FunctionId.split? turn.ask.entry = some (file, function) →
      turn.queries =
        [.trace ⟨turn.ask.entry, turn.ask.stopLine, turn.ask.argumentsAfter past, file⟩] →
      Answers past turn

theorem Fits.left {capacity : Nat} {a b : List Logged} (h : Fits capacity (a ++ b)) :
    Fits capacity a := by
  rw [Fits, firstOf_append, List.length_append] at h
  exact (Nat.le_add_right _ _).trans h

namespace Tracer

/-- The log of the tracer holds what the requests before have logged, and the tracer remembers their
arguments. -/
structure Remembers (t : Tracer) (past : List Turn) : Prop where
  keeps : t.Keeps (past.flatMap Turn.logged)
  given : ∀ entry, (FunctionId.split? entry).isSome = true →
    (t.session.arguments.get? entry).getD {} = lastArguments entry (past.map (·.ask)).reverse
  known : ∀ turn ∈ past, (FunctionId.split? turn.ask.entry).isSome = true →
    (t.session.arguments.get? turn.ask.entry).isSome = true

theorem remembers_reset (t : Tracer) : t.reset.Remembers [] := by
  refine ⟨⟨⟨rfl, fun k => ?_⟩, fun _ hl => absurd hl List.not_mem_nil, Nat.zero_le _⟩,
    fun _ _ => rfl, fun _ hturn => absurd hturn List.not_mem_nil⟩
  simp [Tracer.reset, Session.reset]

variable {backend : Backend} {t t' : Tracer} {ask : Ask} {demand : Demand}

theorem Remembers.congr (h : t.Remembers past) (hsame : SameLog t t') : t'.Remembers past := by
  refine ⟨⟨⟨hsame.log.trans h.keeps.holds.log_eq, fun k => ?_⟩, h.keeps.keyed, ?_⟩, ?_, ?_⟩
  · rw [hsame.seen]
    exact h.keeps.holds.mem_seen k
  · rw [hsame.capacity]
    exact h.keeps.fits
  · rw [hsame.arguments]
    exact h.given
  · rw [hsame.arguments]
    exact h.known

/-- The arguments that a request is about are those it gives, or those remembered. -/
theorem Remembers.argumentsFor_eq (h : t.Remembers past)
    (hentry : (FunctionId.split? ask.entry).isSome = true) :
    t.argumentsFor ask.entry ask.arguments = ask.argumentsAfter past := by
  rw [argumentsFor, h.given ask.entry hentry, Ask.argumentsAfter]

/-- **One request is answered like that, and is remembered.** -/
theorem Remembers.turn (h : t.Remembers past) (hfits : Fits t.session.capacity
      (past.flatMap Turn.logged ++ (turn backend t ask).1.logged)) :
    (turn backend t ask).1.Answers past ∧
      (turn backend t ask).2.Remembers (past ++ [(turn backend t ask).1]) ∧
      (turn backend t ask).2.session.capacity = t.session.capacity := by
  obtain ⟨hkeeps, hcapacity⟩ := h.keeps.turn hfits
  refine ⟨?_, ⟨?_, ?_, ?_⟩, hcapacity⟩
  · -- the answer
    rcases turn_cases backend t ask with
      ⟨hentry, hturn⟩ | ⟨file, function, hentry, ⟨events, hcached, hturn⟩ | ⟨-, hturn⟩⟩
    · rw [hturn]
      exact .invalid hentry rfl
    · rw [Session.cached?_eq_reach_log, h.keeps.holds.log_eq,
        h.argumentsFor_eq (by rw [hentry]; rfl), firstOf_filter_isLineOf] at hcached
      rw [hturn]
      exact .replayed hentry rfl hcached
    · rw [hturn, query, h.argumentsFor_eq (by rw [hentry]; rfl)]
      exact .executed hentry rfl
  · rw [List.flatMap_append, List.flatMap_singleton]
    exact hkeeps
  · -- the arguments of each function are those that were given last
    intro entry hentry
    rw [List.map_append, List.map_singleton, List.reverse_append, List.reverse_singleton,
      List.singleton_append, turn_ask, lastArguments, arguments_turn]
    by_cases hsame : ask.entry = entry
    · subst hsame
      rw [if_pos rfl, if_pos hentry, OrderedMap.get?_insert_self, h.argumentsFor_eq hentry]
      rfl
    · rw [if_neg hsame]
      split
      · rw [OrderedMap.get?_insert_of_ne (Ne.symm hsame)]
        exact h.given entry hentry
      · exact h.given entry hentry
  · intro other hother hentry
    rw [arguments_turn]
    by_cases hsame : other.ask.entry = ask.entry
    · rw [← hsame, if_pos hentry, OrderedMap.get?_insert_self]
      rfl
    · have hpast : other ∈ past := by
        rcases List.mem_append.mp hother with hpast | hlast
        · exact hpast
        · rw [List.mem_singleton.mp hlast, turn_ask] at hsame
          exact absurd rfl hsame
      split
      · rw [OrderedMap.get?_insert_of_ne hsame]
        exact h.known other hpast hentry
      · exact h.known other hpast hentry

/-- **So is each request among demands, one after the other.** -/
theorem Remembers.requests (demands : List Demand) : ∀ {t : Tracer} {past : List Turn},
    t.Remembers past → Fits t.session.capacity
      (past.flatMap Turn.logged ++ (requests backend t demands).flatMap Turn.logged) →
    (serveAll backend t demands).Remembers (past ++ requests backend t demands) ∧
      ∀ earlier turn later, requests backend t demands = earlier ++ turn :: later →
        turn.Answers (past ++ earlier) := by
  induction demands with
  | nil =>
      intro t past h _
      refine ⟨?_, fun earlier turn later heq => absurd heq (by simp [Tracer.requests])⟩
      rw [Tracer.requests, List.append_nil]
      exact h
  | cons demand rest ih =>
      intro t past h hfits
      rw [Tracer.requests] at hfits ⊢
      rw [serveAll, List.foldl_cons]
      cases hrequest : request? backend t demand with
      | none =>
          rw [hrequest] at hfits
          -- what makes no request leaves the log as it is
          have hsame : SameLog t (serve backend t demand) := serve_of_none hrequest
          exact ih (h.congr hsame) (hsame.capacity ▸ hfits)
      | some made =>
          obtain ⟨t', ask⟩ := made
          rw [hrequest] at hfits
          simp only [List.flatMap_cons, ← List.append_assoc] at hfits ⊢
          obtain ⟨hsame, hserve⟩ := serve_of_request hrequest
          rw [hserve] at hfits ⊢
          rw [← hsame.capacity] at hfits
          have hturn : (Tracer.turn backend t' ask).1.Answers past ∧ _ :=
            (h.congr hsame).turn hfits.left
          obtain ⟨hanswers, hnext, hcapacity⟩ := hturn
          have hpast : (past ++ [(Tracer.turn backend t' ask).1]).flatMap Turn.logged =
              past.flatMap Turn.logged ++ (Tracer.turn backend t' ask).1.logged := by
            rw [List.flatMap_append, List.flatMap_singleton]
          obtain ⟨hrest, hlater⟩ := ih hnext (by rw [hcapacity, hpast]; exact hfits)
          rw [List.append_assoc, List.singleton_append] at hrest
          refine ⟨hrest, fun earlier turn later heq => ?_⟩
          cases earlier with
          | nil =>
              rw [← (List.cons.inj heq).1, List.append_nil]
              exact hanswers
          | cons first earlier =>
              obtain ⟨hfirst, hothers⟩ := List.cons.inj heq
              have hlast := hlater earlier turn later hothers
              rwa [List.append_assoc, List.singleton_append, hfirst] at hlast

end Tracer

/-! ## The latest request -/

section Latest

variable {turn : Turn} {entry : String} {file : Path}

/-- A request for another function tells nothing of the run. -/
theorem Turn.Answers.linesOf_other (h : turn.Answers past) (hentry : turn.ask.entry ≠ run.entry) :
    turn.linesOf run = [] := by
  unfold Turn.linesOf
  split
  · next request hqueries =>
      refine if_neg fun hrun => hentry ?_
      cases h with
      | invalid _ hnone =>
          rw [hnone] at hqueries
          exact nomatch hqueries
      | replayed _ hnone _ =>
          rw [hnone] at hqueries
          exact nomatch hqueries
      | executed _ hsent =>
          rw [hsent] at hqueries
          cases hqueries
          rw [← hrun]
          rfl
  · rfl

theorem executedLines_append (past later : List Turn) :
    executedLines run function (past ++ later) =
      executedLines run function past ++ executedLines run function later :=
  List.flatMap_append

theorem executedLines_eq_nil (h : ∀ turn ∈ past, turn.linesOf run = []) :
    executedLines run function past = [] :=
  List.flatMap_eq_nil_iff.mpr fun turn hturn => by rw [h turn hturn, List.filter_nil]

/-- Answers that tell nothing of the run log no line of it. -/
theorem lastLogged?_append (past : List Turn) {later : List Turn}
    (h : ∀ turn ∈ later, turn.linesOf run = []) :
    lastLogged? run function (past ++ later) = lastLogged? run function past := by
  rw [lastLogged?, lastLogged?, executedLines_append, executedLines_eq_nil h, List.append_nil]

/-- Later requests for other functions do not change the arguments that were used last. -/
theorem lastArguments_append (l m : List Ask) (h : ∀ ask ∈ l, ask.entry ≠ entry) :
    lastArguments entry (l ++ m) = lastArguments entry m := by
  induction l with
  | nil => rfl
  | cons ask l ih =>
      obtain ⟨hask, hl⟩ := List.forall_mem_cons.mp h
      rw [List.cons_append, lastArguments, if_neg hask, ih hl]

theorem lastArguments_latest {earlier later : List Turn}
    (hlatest : ∀ other ∈ later, other.ask.entry ≠ turn.ask.entry) :
    lastArguments turn.ask.entry ((earlier ++ turn :: later).map (·.ask)).reverse =
      turn.ask.argumentsAfter earlier := by
  rw [List.map_append, List.map_cons, List.reverse_append, List.reverse_cons, List.append_assoc,
    List.singleton_append, lastArguments_append, lastArguments, if_pos rfl, Ask.argumentsAfter]
  intro ask hask
  obtain ⟨other, hother, rfl⟩ := List.mem_map.mp (List.mem_reverse.mp hask)
  exact hlatest other hother

/-- The last line of a function that an answer tells. -/
def Turn.lastLine? (function : String) (turn : Turn) : Option Event :=
  (turn.events.filter (Event.isIn function)).getLast?

theorem Turn.lines_executed {request : Request} (h : turn.queries = [.trace request])
    (function : String) :
    (turn.linesOf (Run.of request.entry request.arguments)).filter (Event.isIn function) =
      turn.events.filter (Event.isIn function) := by
  rw [Turn.linesOf, h]
  simp only [if_true, linesOf_filter_isIn]

theorem Turn.linesOf_replayed (h : turn.queries = []) (run : Run) : turn.linesOf run = [] := by
  rw [Turn.linesOf, h]

/-- The first item is always one of the first ones. -/
theorem firstOf_ne_nil {α β : Type} [DecidableEq β] {key : α → Option β} {l : List α}
    (h : l ≠ []) : firstOf key [] l ≠ [] := by
  obtain ⟨x, rest, rfl⟩ := List.exists_cons_of_ne_nil h
  cases hx : key x with
  | none =>
      rw [firstOf_none hx]
      exact List.cons_ne_nil _ _
  | some k =>
      rw [firstOf_new hx List.not_mem_nil]
      exact List.cons_ne_nil _ _

/-- What is told last and is new is logged last. -/
theorem firstOf_getLast?_new {α β : Type} [DecidableEq β] {key : α → Option β} {before : List α}
    {last : α} {k : β} (hlast : key last = some k) (hnew : k ∉ before.filterMap key) :
    (firstOf key [] (before ++ [last])).getLast? = some last := by
  rw [firstOf_append, firstOf_new hlast (by rwa [List.append_nil]), firstOf_nil,
    List.getLast?_concat]

/-- The lines logged of a run are lines of the function. -/
theorem isIn_of_mem_firstOf {event : Event}
    (h : event ∈ firstOf Event.spot? [] (executedLines run function past)) :
    event.isIn function = true := by
  obtain ⟨other, -, hin⟩ := List.mem_flatMap.mp ((firstOf_sublist _ []).mem h)
  exact (List.mem_filter.mp hin).2

/-- Each place is logged once, so the last line is not among the lines before it. -/
theorem not_mem_of_firstOf {α β : Type} [DecidableEq β] {key : α → Option β} {l front : List α}
    {last : α} {k : β} (h : firstOf key [] l = front ++ [last]) (hlast : key last = some k) :
    last ∉ front := by
  have hnodup : ((firstOf key [] l).filterMap key).Nodup := nodup_keys_firstOf _ []
  rw [h, List.filterMap_append, List.filterMap_cons_some hlast] at hnodup
  intro hearly
  exact List.disjoint_of_nodup_append hnodup (List.mem_filterMap.mpr ⟨last, hearly, hlast⟩)
    List.mem_cons_self

/-- **A replay that tells the line that was logged last ends there.** -/
theorem lastLine?_of_reach {stopLine : Nat} {events : List Event} {last : Event}
    (hreach : reach stopLine ((firstOf Event.spot? [] (executedLines run function past)).filter
      (Event.isLineIn function file)) = some events)
    (hlast : lastLogged? run function past = some last) (hmem : last ∈ events) :
    (events.filter (Event.isIn function)).getLast? = some last := by
  have hall : AllLines ((firstOf Event.spot? [] (executedLines run function past)).filter
      (Event.isLineIn function file)) := by
    intro event hevent
    have hin := (List.mem_filter.mp hevent).2
    cases event with
    | line => rfl
    | _ => exact absurd hin Bool.false_ne_true
  obtain ⟨before, final, after, number, hlines, -, -, -, rfl⟩ := (reach_eq_some_iff hall).mp hreach
  obtain ⟨front, hfront⟩ := List.getLast?_eq_some_iff.mp hlast
  have hin : last.isIn function = true := isIn_of_mem_firstOf (List.mem_of_getLast? hlast)
  obtain ⟨place, hplace⟩ : ∃ place, last.spot? = some place := by
    obtain ⟨f, n, locals, rfl⟩ := Event.exists_line hin
    exact ⟨_, rfl⟩
  have honce : last ∉ front := not_mem_of_firstOf hfront hplace
  have hstays : ∀ rest, last ∈ before ++ final :: rest := by
    intro rest
    have hshown : last ∈ before ++ [final] := by
      simp only [List.mem_append, List.mem_cons, List.not_mem_nil, or_false] at hmem ⊢
      rcases hmem with hbefore | hfinal | rfl
      · exact Or.inl hbefore
      · exact Or.inr hfinal
      · exact absurd hin Bool.false_ne_true
    rw [List.append_cons]
    exact List.mem_append_left rest hshown
  have hfile : last.isLineIn function file = true := by
    have hlisted := hstays after
    rw [← hlines] at hlisted
    exact (List.mem_filter.mp hlisted).2
  -- the last logged line is the end of the listed ones, so nothing can follow the final line but it
  rw [hfront, List.filter_append, List.filter_cons, if_pos hfile, List.filter_nil] at hlines
  rcases List.eq_nil_or_concat after with rfl | ⟨rest, x, rfl⟩
  · obtain ⟨-, hfinal⟩ := List.append_inj' hlines rfl
    obtain rfl : last = final := (List.cons.inj hfinal).1
    rw [List.filter_append, List.filter_cons, if_pos hin]
    exact List.getLast?_concat
  · -- with lines behind the end the last line would stand among the earlier ones too
    rw [List.concat_eq_append, ← List.cons_append, ← List.append_assoc] at hlines
    obtain ⟨hbefore, -⟩ := List.append_inj' hlines rfl
    have hearly : last ∈ front.filter (Event.isLineIn function file) := hbefore ▸ hstays rest
    exact absurd (List.mem_filter.mp hearly).1 honce

end Latest

/-! ## Calls -/

namespace Tracer

variable {backend : Backend} {t : Tracer} {earlier later : List Turn} {turn : Turn} {file : Path}

/-- The locals for a call are those of the line that was logged last in the run of the latest
request. -/
theorem Remembers.latestLocals?_eq (h : t.Remembers (earlier ++ turn :: later))
    (hcaller : FunctionId.split? turn.ask.entry = some (file, function))
    (hlatest : ∀ other ∈ later, other.ask.entry ≠ turn.ask.entry) {line : Event}
    (hline : lastLogged? (Run.of turn.ask.entry (turn.ask.argumentsAfter earlier)) function
      (earlier ++ turn :: later) = some line) :
    t.session.latestLocals? turn.ask.entry function = Session.localsIn? function line := by
  have hvalid : (FunctionId.split? turn.ask.entry).isSome = true := by
    rw [hcaller]
    rfl
  have hknown := h.known turn (List.mem_append_right _ List.mem_cons_self) hvalid
  have hgiven := h.given turn.ask.entry hvalid
  rw [lastArguments_latest hlatest] at hgiven
  obtain ⟨arguments, harguments⟩ := Option.isSome_iff_exists.mp hknown
  rw [harguments, Option.getD_some] at hgiven
  subst hgiven
  have hlocals : (Session.localsIn? function line).isSome = true := by
    rw [localsIn?_isSome]
    exact isIn_of_mem_firstOf (List.mem_of_getLast? hline)
  obtain ⟨locals, heq⟩ := Option.isSome_iff_exists.mp hlocals
  rw [Session.latestLocals?, harguments]
  simp only [lastLocals?_eq h.keeps.holds, hline, Option.bind_some, heq, Option.some_or]

end Tracer

variable {turn : Turn} {file : Path}

/-- If the latest answer tells a line of the function, then its run has logged one. -/
theorem Turn.Answers.lastLogged?_isSome (h : turn.Answers past)
    (hcaller : FunctionId.split? turn.ask.entry = some (file, function))
    (hline : (turn.lastLine? function).isSome = true) :
    ∃ line, lastLogged? (Run.of turn.ask.entry (turn.ask.argumentsAfter past)) function
      (past ++ [turn]) = some line := by
  have hne : executedLines (Run.of turn.ask.entry (turn.ask.argumentsAfter past)) function
      (past ++ [turn]) ≠ [] := by
    rw [executedLines_append]
    obtain ⟨last, hlast⟩ := Option.isSome_iff_exists.mp hline
    have hmem := List.mem_of_getLast? hlast
    obtain ⟨hevent, hin⟩ := List.mem_filter.mp hmem
    cases h with
    | invalid hnone _ =>
        rw [hcaller] at hnone
        exact nomatch hnone
    | replayed hid hqueries hreach =>
        obtain ⟨rfl, rfl⟩ := Prod.mk.inj (Option.some.inj (hcaller.symm.trans hid))
        have hdone : last ≠ .done := by
          rintro rfl
          exact absurd hin Bool.false_ne_true
        have hlogged := (List.mem_filter.mp (mem_of_reach hreach hevent hdone)).1
        exact List.append_ne_nil_of_left_ne_nil
          (List.ne_nil_of_mem ((firstOf_sublist _ []).mem hlogged)) _
    | executed hid hqueries =>
        refine List.append_ne_nil_of_right_ne_nil _ ?_
        rw [executedLines, List.flatMap_singleton, Turn.lines_executed hqueries]
        exact List.ne_nil_of_mem hmem
  exact Option.isSome_iff_exists.mp (List.getLast?_isSome.mpr (firstOf_ne_nil hne))

/-- The last line of an answer is logged last, if it was executed and the line is new. -/
theorem lastLine?_of_new {request : Request} (hqueries : turn.queries = [.trace request])
    (hline : (turn.lastLine? function).isSome = true)
    (hnew : ∀ before last, turn.events.filter (Event.isIn function) = before ++ [last] →
      last.spot? ∉ (executedLines (Run.of request.entry request.arguments) function past ++
        before).map Event.spot?) :
    turn.lastLine? function =
      lastLogged? (Run.of request.entry request.arguments) function (past ++ [turn]) := by
  obtain ⟨last, hlast⟩ := Option.isSome_iff_exists.mp hline
  obtain ⟨before, hbefore⟩ := List.getLast?_eq_some_iff.mp hlast
  obtain ⟨f, n, locals, rfl⟩ :=
    Event.exists_line (List.mem_filter.mp (List.mem_of_getLast? hlast)).2
  have hfresh : (f, n) ∉ (executedLines (Run.of request.entry request.arguments) function past ++
      before).filterMap Event.spot? := by
    intro hmem
    obtain ⟨event, hevent, hspot⟩ := List.mem_filterMap.mp hmem
    exact hnew before _ hbefore (List.mem_map.mpr ⟨event, hevent, hspot⟩)
  have hplace : (Event.line f function n locals).spot? = some (f, n) := rfl
  rw [hlast, lastLogged?, executedLines_append, executedLines, executedLines,
    List.flatMap_singleton, Turn.lines_executed hqueries, hbefore, ← List.append_assoc]
  exact (firstOf_getLast?_new hplace hfresh).symm

/-- **Arguments come from the line of the caller that was logged last.** Let a tracer be given
demands after a reset, with room in its log, and let the latest answer to a request for a function
tell a line of it. Then a call from that function is traced with the locals of the line of the
function that was logged last in the run of that request. It is the last line of the answer where
the request was executed and no such line was told of that place before, and where the answer is a
replay in which the line occurs. -/
theorem callSite_locals {backend : Backend} {t : Tracer} {demands : List Demand}
    (hroom : Fits t.session.capacity ((t.reset.requests backend demands).flatMap Turn.logged))
    {earlier later : List Turn}
    (hrequests : t.reset.requests backend demands = earlier ++ turn :: later)
    (hlatest : ∀ other ∈ later, other.ask.entry ≠ turn.ask.entry)
    (hcaller : FunctionId.split? turn.ask.entry = some (file, function))
    (hline : (turn.lastLine? function).isSome = true) {site : Call.Site} {callee : String}
    (hsite : site.calleeId = some callee) (stopLine : Nat) :
    let s := t.reset.serveAll backend demands
    let run := Run.of turn.ask.entry (turn.ask.argumentsAfter earlier)
    ∃ f number locals events,
      lastLogged? run function (earlier ++ [turn]) = some (.line f function number locals) ∧
      (s.callSite backend turn.ask.entry site stopLine).1 =
        .ok ⟨callee, Call.resolve site.args locals (s.signature backend callee).1.toOption,
          events⟩ ∧
      (turn.queries ≠ [] →
        (∀ before last, turn.events.filter (Event.isIn function) = before ++ [last] →
          last.spot? ∉ (executedLines run function earlier ++ before).map Event.spot?) →
        turn.lastLine? function = some (.line f function number locals)) ∧
      (turn.queries = [] → .line f function number locals ∈ turn.events →
        turn.lastLine? function = some (.line f function number locals)) := by
  intro s run
  obtain ⟨hremembers, hanswers⟩ :=
    (Tracer.remembers_reset t).requests demands (by rwa [List.flatMap_nil, List.nil_append])
  have hanswer : turn.Answers earlier := hanswers earlier turn later hrequests
  obtain ⟨line, hlogged⟩ := hanswer.lastLogged?_isSome hcaller hline
  obtain ⟨f, number, locals, rfl⟩ :=
    Event.exists_line (isIn_of_mem_firstOf (List.mem_of_getLast? hlogged))
  have hwhole : lastLogged? run function (earlier ++ turn :: later) =
      some (.line f function number locals) := by
    rw [← List.singleton_append, ← List.append_assoc, ← hlogged]
    -- the later requests are for other functions
    refine lastLogged?_append _ fun other hother => ?_
    obtain ⟨before, after, rfl⟩ := List.append_of_mem hother
    have hother' : other.Answers ([] ++ (earlier ++ turn :: before)) :=
      hanswers _ other after (by rw [hrequests, List.append_assoc, List.cons_append])
    exact hother'.linesOf_other (hlatest other hother)
  rw [List.nil_append, hrequests] at hremembers
  have hlocals := hremembers.latestLocals?_eq hcaller hlatest hwhole
  rw [Session.localsIn?, if_pos rfl] at hlocals
  refine ⟨f, number, locals, (Tracer.trace backend (Tracer.signature backend s callee).2 callee
    stopLine (some (Call.resolve site.args locals
      (Tracer.signature backend s callee).1.toOption))).1, hlogged, ?_, ?_, ?_⟩
  · rw [Tracer.callSite, hsite]
    simp only [hcaller, s, hlocals, Option.getD_some]
  · intro hasks hnew
    cases hanswer with
    | invalid _ hnone => exact absurd hnone hasks
    | replayed _ hnone _ => exact absurd hnone hasks
    | executed _ hqueries => exact (lastLine?_of_new hqueries hline hnew).trans hlogged
  · intro hnone hmem
    have hbefore : lastLogged? run function earlier = some (.line f function number locals) := by
      rw [← hlogged]
      refine (lastLogged?_append earlier fun other hother => ?_).symm
      rw [List.mem_singleton.mp hother, Turn.linesOf_replayed hnone]
    cases hanswer with
    | invalid hid _ =>
        rw [hcaller] at hid
        exact nomatch hid
    | replayed hid _ hreach =>
        obtain ⟨rfl, rfl⟩ := Prod.mk.inj (Option.some.inj (hcaller.symm.trans hid))
        exact lastLine?_of_reach hreach hbefore hmem
    | executed _ hqueries =>
        rw [hnone] at hqueries
        exact nomatch hqueries

/-! ## A function traced again -/

/-- A function with a local that is one at its line 2 and two at its line 3. -/
def steppingLines : List Event :=
  [.line "/m.py" "f" 2 [("x", .int 1)], .line "/m.py" "f" 3 [("x", .int 2)]]

/-- A backend where only this function has lines. -/
def steppingBackend : Backend :=
  { trace := fun request =>
      if request.entry = "/m.py::f" then .ok (stopAt request.stopLine steppingLines)
      else .ok [.done]
    signature := fun _ => .ok ["a"] }

/-- The function is traced as far as its line 3, and then again. -/
def steppingDemands (stopLine : Nat) : List Demand :=
  [.trace ⟨"/m.py::f", 3, none⟩, .trace ⟨"/m.py::f", stopLine, none⟩]

/-- The tracer after that. -/
def steppingTracer (stopLine : Nat) : Tracer :=
  (Tracer.new 100).reset.serveAll steppingBackend (steppingDemands stopLine)

/-- The first request is executed. -/
def steppingFirst : Turn :=
  ⟨⟨"/m.py::f", 3, none⟩, steppingLines ++ [.done], [.trace ⟨"/m.py::f", 3, {}, ⟨"/m.py"⟩⟩]⟩

/-- The second one is answered from the log. -/
def steppingSecond (stopLine : Nat) : Turn :=
  ⟨⟨"/m.py::f", stopLine, none⟩, steppingLines.take (stopLine - 1) ++ [.done], []⟩

theorem requests_stepping {stopLine : Nat} (h : stopLine = 2 ∨ stopLine = 3) :
    (Tracer.new 100).reset.requests steppingBackend (steppingDemands stopLine) =
      [steppingFirst] ++ steppingSecond stopLine :: [] := by
  rcases h with rfl | rfl <;> rfl

theorem fits_stepping {stopLine : Nat} (h : stopLine = 2 ∨ stopLine = 3) :
    Fits (Tracer.new 100).session.capacity (((Tracer.new 100).reset.requests steppingBackend
      (steppingDemands stopLine)).flatMap Turn.logged) := by
  have hcount : (firstOf Logged.key? []
      ([steppingFirst, steppingSecond stopLine].flatMap Turn.logged)).length = 2 := by
    rcases h with rfl | rfl <;> rfl
  rw [requests_stepping h, Fits, List.singleton_append, hcount]
  decide

/-- The call `g(x)`. -/
def steppingSite : Call.Site :=
  { line := 4, column := 5, name := "g", receiver := none, calleeId := some "/m.py::g"
    args := "x" }

/-- A replay as far as line 3 ends at the line that was logged last. -/
theorem callSite_locals_stepping :
    (steppingSecond 3).queries = [] ∧
      (steppingSecond 3).lastLine? "f" = some (.line "/m.py" "f" 3 [("x", .int 2)]) ∧
      ∃ events, ((steppingTracer 3).callSite steppingBackend "/m.py::f" steppingSite 1).1 =
        .ok ⟨"/m.py::g", Call.resolve "x" [("x", .int 2)] (some ["a"]), events⟩ := by
  have hcaller : FunctionId.split? (steppingSecond 3).ask.entry = some (⟨"/m.py"⟩, "f") := rfl
  have hsite : steppingSite.calleeId = some "/m.py::g" := rfl
  obtain ⟨f, number, locals, events, hlast, hcall, -, hreplayed⟩ :=
    callSite_locals (fits_stepping (.inr rfl)) (requests_stepping (.inr rfl))
      (fun _ h => nomatch h) hcaller rfl hsite 1
  have hlogged : lastLogged? (Run.of "/m.py::f" {}) "f" [steppingFirst, steppingSecond 3] =
    some (.line "/m.py" "f" 3 [("x", .int 2)]) := rfl
  obtain ⟨rfl, -, rfl, rfl⟩ := Event.line.inj (Option.some.inj (hlogged.symm.trans hlast))
  exact ⟨rfl, hreplayed rfl (.tail _ (.head _)), events, hcall⟩

/-- The latest answer ends at line 2, where the local is one, and was served from the log. The
line that was logged last is line 3, so that the call is traced with two. -/
theorem earlier_stop_keeps_later_locals :
    Fits (Tracer.new 100).session.capacity (((Tracer.new 100).reset.requests steppingBackend
        (steppingDemands 2)).flatMap Turn.logged) ∧
      (Tracer.new 100).reset.requests steppingBackend (steppingDemands 2) =
        [steppingFirst, steppingSecond 2] ∧
      (steppingSecond 2).lastLine? "f" = some (.line "/m.py" "f" 2 [("x", .int 1)]) ∧
      Call.resolve "x" [("x", .int 1)] (some ["a"]) = ⟨[.int 1], []⟩ ∧
      ∃ events, ((steppingTracer 2).callSite steppingBackend "/m.py::f" steppingSite 1).1 =
        .ok ⟨"/m.py::g", ⟨[.int 2], []⟩, events⟩ := by
  refine ⟨fits_stepping (.inl rfl), requests_stepping (.inl rfl), rfl, rfl, ?_⟩
  have hid : FunctionId.split? "/m.py::f" = some (⟨"/m.py"⟩, "f") := rfl
  have hlocals : (steppingTracer 2).session.latestLocals? "/m.py::f" "f" =
    some [("x", .int 2)] := rfl
  have hparams : (Tracer.signature steppingBackend (steppingTracer 2) "/m.py::g").1 =
    .ok ["a"] := rfl
  have hresolve : Call.resolve "x" [("x", .int 2)] (some ["a"]) = ⟨[.int 2], []⟩ := rfl
  rw [Tracer.callSite]
  simp only [steppingSite, hid, hlocals, hparams, Option.getD_some, Except.toOption, hresolve]
  exact ⟨_, rfl⟩

end ChangeScope.Trace
