import ChangeScope.Path
import ChangeScope.Trace.Arguments
import ChangeScope.Trace.Event

/-!
# Sessions

A session keeps a log of events, of bounded length, and remembers the arguments and the signatures
that were last used. A line or a return is logged once for each run, that is for each function
with its arguments; an exception is logged once for all runs. When the log is full the oldest
events go, and may then be logged anew. A run that has come far enough once is answered from the
log.
-/

set_option autoImplicit false

namespace ChangeScope.Trace

/-- A run: the id of the function and the text of the arguments. -/
structure Run where
  entry : String
  arguments : String
deriving DecidableEq, Repr, Inhabited

/-- The run of a function with arguments. -/
def Run.of (entry : String) (arguments : Arguments) : Run := ⟨entry, arguments.key⟩

/-- What makes two events the same for the log. -/
inductive EventKey where
  | line (run : Run) (file function : String) (line : Nat)
  | returned (run : Run)
  | raised (message : String) (line : Option Nat) (file : Option String)
deriving DecidableEq, Repr

/-- The key of an event; the end of a trace has none. -/
def EventKey.of? (run : Run) : Event → Option EventKey
  | .line file function number _ => some (.line run file function number)
  | .returned _ => some (.returned run)
  | .raised message _ number file => some (.raised message number file)
  | .done => none

/-- An event in the log. -/
structure Logged where
  run : Run
  event : Event
deriving Inhabited, BEq, Repr

/-- The key of a logged event. -/
def Logged.key? (logged : Logged) : Option EventKey := EventKey.of? logged.run logged.event

/-- What is remembered between requests. -/
structure Session where
  /-- The greatest length of the log. -/
  capacity : Nat
  /-- The logged events, the oldest first. -/
  log : List Logged := []
  /-- The keys of the logged events. -/
  seen : List EventKey := []
  /-- The arguments of the last run of each function. -/
  arguments : OrderedMap Arguments := []
  /-- The parameters of functions. -/
  signatures : OrderedMap (List String) := []
deriving Inhabited

namespace Session

/-- A session in which nothing has happened; its log has room for one event at least. -/
def new (maxEvents : Nat) : Session := { capacity := max maxEvents 1 }

/-- Forgets everything. -/
def reset (s : Session) : Session := { capacity := s.capacity }

/-! ## Logging -/

/-- Drops the oldest events that the log has no room for. -/
def evict (s : Session) : Session :=
  let excess := s.log.length - s.capacity
  { s with
    log := s.log.drop excess
    seen := s.seen.filter fun key => !((s.log.take excess).any fun old => old.key? == some key) }

/-- Logs an event unless its key is in the log; says whether it did. -/
def recordOne (s : Session) (logged : Logged) : Session × Bool :=
  match logged.key? with
  | none => (s, false)
  | some key =>
      if s.seen.contains key then (s, false)
      else (evict { s with log := s.log ++ [logged], seen := key :: s.seen }, true)

/-- Logs the events of a run; says how many were new. -/
def recordRun (run : Run) : List Event → Session → Session × Nat
  | [], s => (s, 0)
  | event :: rest, s =>
      let (s, isNew) := s.recordOne ⟨run, event⟩
      let (s, count) := recordRun run rest s
      (s, count + if isNew then 1 else 0)

/-- Logs the events of a function run with arguments; says how many were new. -/
def record (s : Session) (entry : String) (arguments : Arguments) (events : List Event) :
    Session × Nat :=
  recordRun (Run.of entry arguments) events s

/-! ## Answering from the log -/

/-- The line events of a function up to the first one from the stop line on, and the end of the
trace; `none` if there is no such line. -/
def replayTo (function : String) (file : Path) (stopLine : Nat) : List Event → Option (List Event)
  | [] => none
  | .line f name line locals :: rest =>
      if name == function && Path.same ⟨f⟩ file then
        if stopLine ≤ line then some [.line f name line locals, .done]
        else (replayTo function file stopLine rest).map (.line f name line locals :: ·)
      else replayTo function file stopLine rest
  | _ :: rest => replayTo function file stopLine rest

/-- The events of a run in the log. -/
def eventsOf (s : Session) (run : Run) : List Event :=
  (s.log.filter (·.run == run)).map (·.event)

/-- The answer to a request for a run that has come far enough before. -/
def cached? (s : Session) (entry function : String) (file : Path) (stopLine : Nat)
    (arguments : Arguments) : Option (List Event) :=
  replayTo function file stopLine (s.eventsOf (Run.of entry arguments))

/-- The locals of the event, if it is a line of the function. -/
def localsIn? (function : String) : Event → Option Members
  | .line _ name _ locals => if name = function then some locals else none
  | _ => none

/-- The locals at the last logged line of a function, in the runs that satisfy `p`. -/
def lastLocals? (s : Session) (function : String) (p : Run → Bool) : Option Members :=
  (s.log.reverse.filter fun logged => p logged.run).findSome? (localsIn? function ·.event)

/-- The locals at the last logged line of a function in the runs of an entry, if possible in those
with the arguments that were used last. -/
def latestLocals? (s : Session) (entry function : String) : Option Members :=
  let anyRun := s.lastLocals? function (·.entry == entry)
  match s.arguments.get? entry with
  | some arguments =>
      (s.lastLocals? function (· == Run.of entry arguments)).or anyRun
  | none => anyRun

/-! ## Remembering -/

/-- Remembers the arguments of a function. -/
def remember (s : Session) (entry : String) (arguments : Arguments) : Session :=
  { s with arguments := s.arguments.insert entry arguments }

/-- Remembers the parameters of a function. -/
def keepSignature (s : Session) (entry : String) (params : List String) : Session :=
  { s with signatures := s.signatures.insert entry params }

end Session

end ChangeScope.Trace
