import ChangeScope.Json.Tagged

/-!
# Trace events

What a traced run tells: the lines that it comes to, with the locals there, then how the call
ends, then that the trace is over. A trace in proper form is a run of line events, at most one end
of the call, and `done`; where the run broke off, an exception stands last.
-/

set_option autoImplicit false

namespace ChangeScope.Trace

/-- One step of a traced run. -/
inductive Event where
  /-- The run comes to a line. -/
  | line (file function : String) (line : Nat) (locals : Members)
  /-- The call returns. -/
  | returned (value : Json)
  /-- The call ends with an exception. -/
  | raised (message traceback : String) (line : Option Nat) (file : Option String)
  /-- The trace is over. -/
  | done
deriving Inhabited, BEq, Repr

namespace Event

/-- The event ends the call. -/
def isTerminal : Event → Bool
  | .line _ _ _ _ => false
  | .returned _ => true
  | .raised _ _ _ _ => true
  | .done => false

/-- The name of the kind of an event. -/
def kind : Event → String
  | .line _ _ _ _ => "line"
  | .returned _ => "return"
  | .raised _ _ _ _ => "exception"
  | .done => "done"

/-! ## Written form -/

/-- A member that is left out when there is no value. -/
def member? {α : Type} (key : String) (write : α → Json) (value : Option α) :
    List (String × Json) :=
  match value with
  | some x => [(key, write x)]
  | none => []

/-- The members of an event after its tag. -/
def members : Event → List (String × Json)
  | .line file function number locals =>
      [("filename", .str file), ("function", .str function), ("line", .nat number),
        ("locals", .obj locals)]
  | .returned value => [("value", value)]
  | .raised message traceback number file =>
      [("error_message", .str message), ("traceback_text", .str traceback)] ++
        member? "line" .nat number ++ member? "filename" .str file
  | .done => []

/-- An event as JSON. -/
def toJson (e : Event) : Json := .obj (("event", .str e.kind) :: e.members)

/-- The parts of a line event. -/
structure LineParts where
  file : String := ""
  function : String := ""
  line : Nat := 0
  locals : Members := []

/-- The written form of a line event. -/
def lineRecord : Json.Record LineParts :=
  { title := "struct variant TraceEvent::Line"
    slots := [
      .of "filename" .always .string fun v e => { e with file := v },
      .of "function" .always .string fun v e => { e with function := v },
      .of "line" .always .natural fun v e => { e with line := v },
      .of "locals" .never .map fun v e => { e with locals := v }] }

/-- The written form of the end of a call by return. -/
def returnRecord : Json.Record Json :=
  { title := "struct variant TraceEvent::Return"
    slots := [.of "value" .never .any fun v _ => v] }

/-- The parts of an exception. -/
structure ExceptionParts where
  message : String := ""
  traceback : String := ""
  line : Option Nat := none
  file : Option String := none

/-- The written form of an exception. -/
def exceptionRecord : Json.Record ExceptionParts :=
  { title := "struct variant TraceEvent::Exception"
    slots := [
      .of "error_message" .always .string fun v e => { e with message := v },
      .of "traceback_text" .never .string fun v e => { e with traceback := v },
      .of "line" .never (.optional .natural) fun v e => { e with line := v },
      .of "filename" .never (.optional .string) fun v e => { e with file := v }] }

/-- The written form of the end of a trace. -/
def doneRecord : Json.Record Unit := { title := "unit variant TraceEvent::Done", slots := [] }

/-- The result of a decoder, changed. -/
def into {α β : Type} (read : Json.Decode α) (f : α → β) : Json.Decode β :=
  fun ctx tree => (read ctx tree).map f

/-- Reads an event. -/
def decode : Json.Decode Event :=
  .tagged "internally tagged enum TraceEvent" "event" [
    ("line", into (lineRecord.decode {}) fun e => .line e.file e.function e.line e.locals),
    ("return", into (returnRecord.decode .null) .returned),
    ("exception", into (exceptionRecord.decode {}) fun e =>
      .raised e.message e.traceback e.line e.file),
    ("done", into (doneRecord.decode ()) fun _ => .done)]

end Event

/-! ## Proper form -/

/-- The events up to the end of the trace, without those that follow the end of the call;
`ended` says that the call has ended. A trace that breaks off before either gets an exception. -/
def settleFrom (broken : Event) : Bool → List Event → List Event
  | true, [] => [.done]
  | false, [] => [broken]
  | _, .done :: _ => [.done]
  | true, _ :: rest => settleFrom broken true rest
  | false, event :: rest => event :: settleFrom broken event.isTerminal rest

/-- The trace in proper form; `reason` and `details` describe a run that broke off. -/
def settle (events : List Event) (reason details : String) : List Event :=
  settleFrom (.raised reason details none none) false events

end ChangeScope.Trace
