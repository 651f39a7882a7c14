import ChangeScope.Call.Argument
import ChangeScope.Call.Site
import ChangeScope.Failure
import ChangeScope.Trace.Message
import ChangeScope.Trace.Session

/-!
# Tracers

A tracer answers requests for traces from its session where it can and from a backend otherwise,
and logs what the backend gives. A failure is given as a trace that holds one exception. A call is
traced with the arguments that it has where the caller was last seen.
-/

set_option autoImplicit false

namespace ChangeScope.Trace

/-- What runs functions: the answer depends on the query alone. -/
structure Backend where
  trace : Request → Except Failure (List Event)
  /-- The parameters of the function with an id. -/
  signature : String → Except Failure (List String)

/-- A session and the queries that went to the backend, the oldest first. -/
structure Tracer where
  session : Session
  sent : List Query := []
deriving Inhabited

/-- A traced call. -/
structure CallTrace where
  callee : String
  arguments : Arguments
  events : List Event
deriving Inhabited, BEq, Repr

/-- A traced call as JSON. -/
def CallTrace.toJson (t : CallTrace) : Json :=
  .obj [("callee_id", .str t.callee), ("arguments", t.arguments.toJson),
    ("events", .arr (t.events.map (·.toJson)))]

/-- A failure as an exception at the stop line. -/
def Event.ofFailure (failure : Failure) (stopLine : Nat) (file : Option Path) : Event :=
  .raised failure.message "" (some stopLine) (file.map (·.text))

namespace Tracer

/-- A tracer that has done nothing. -/
def new (maxEvents : Nat) : Tracer := { session := Session.new maxEvents }

/-- The tracer with its session forgotten. -/
def reset (t : Tracer) : Tracer := { t with session := t.session.reset }

/-- The given arguments, else those of the last request for the function, else none. -/
def argumentsFor (t : Tracer) (entry : String) (arguments : Option Arguments) : Arguments :=
  arguments.getD ((t.session.arguments.get? entry).getD {})

/-- Asks the backend for a trace and logs it. -/
def execute (backend : Backend) (t : Tracer) (request : Request) : List Event × Tracer :=
  let events :=
    match backend.trace request with
    | .ok events => events
    | .error failure => [.ofFailure failure request.stopLine (some request.file)]
  let (session, _) := t.session.record request.entry request.arguments events
  (events, { session := session, sent := t.sent ++ [.trace request] })

/-- The trace of a function up to a line. -/
def trace (backend : Backend) (t : Tracer) (entry : String) (stopLine : Nat)
    (arguments : Option Arguments) : List Event × Tracer :=
  match FunctionId.split? entry with
  | none => ([.ofFailure (.invalidFunctionId entry) stopLine none], t)
  | some (file, function) =>
      let arguments := t.argumentsFor entry arguments
      let t := { t with session := t.session.remember entry arguments }
      match t.session.cached? entry function file stopLine arguments with
      | some events => (events, t)
      | none =>
          execute backend t
            { entry := entry, stopLine := stopLine, arguments := arguments, file := file }

/-- The parameters of a function. -/
def signature (backend : Backend) (t : Tracer) (entry : String) :
    Except Failure (List String) × Tracer :=
  match t.session.signatures.get? entry with
  | some params => (.ok params, t)
  | none =>
      match FunctionId.split? entry with
      | none => (.error (.invalidFunctionId entry), t)
      | some _ =>
          let asked := { t with sent := t.sent ++ [.signature entry] }
          match backend.signature entry with
          | .error failure => (.error failure, asked)
          | .ok params =>
              (.ok params, { asked with session := asked.session.keepSignature entry params })

/-- The trace of a call, with arguments from the locals of the caller. -/
def callSite (backend : Backend) (t : Tracer) (caller : String) (site : Call.Site)
    (stopLine : Nat) : Except Failure CallTrace × Tracer :=
  match site.calleeId with
  | none => (.error (.invalidFunctionId site.name), t)
  | some callee =>
      match FunctionId.split? caller with
      | none => (.error (.invalidFunctionId caller), t)
      | some (_, callerName) =>
          let locals := (t.session.latestLocals? caller callerName).getD []
          let (params, t) := signature backend t callee
          let arguments := Call.resolve site.args locals params.toOption
          let (events, t) := trace backend t callee stopLine (some arguments)
          (.ok ⟨callee, arguments, events⟩, t)

end Tracer

end ChangeScope.Trace
