import ChangeScope.Path
import ChangeScope.Trace.Arguments
import ChangeScope.Trace.Event

/-!
# Messages

What goes to the runtime and what comes back. A request is one line of JSON; the runtime answers
with a JSON value a line: events, the parameters of a function, or an error.
-/

set_option autoImplicit false

namespace ChangeScope.Trace

/-! ## Requests -/

/-- The wish to run a function up to a line. -/
structure Request where
  /-- The id of the function. -/
  entry : String := ""
  /-- The run stops at the first line from here on. -/
  stopLine : Nat := 0
  arguments : Arguments := {}
  /-- The file of the function. -/
  file : Path := ⟨""⟩
deriving Inhabited, BEq, Repr

/-- The written form of a request for a run. -/
def Request.record : Json.Record Request :=
  { title := "struct TraceRequest"
    slots := [
      .of "entry_function_id" .always .string fun v r => { r with entry := v },
      .of "stop_line" .always .natural fun v r => { r with stopLine := v },
      .of "arguments" .always Arguments.decode fun v r => { r with arguments := v },
      .of "target_filename" .always .path fun v r => { r with file := ⟨v⟩ }] }

/-- What the runtime can be asked for. -/
inductive Query where
  | trace (request : Request)
  /-- The parameters of the function with an id. -/
  | signature (entry : String)
deriving Inhabited, BEq, Repr

/-- The name of what is asked for. -/
def Query.operation : Query → String
  | .trace _ => "trace"
  | .signature _ => "signature"

/-- The function that a query is about. -/
def Query.entry : Query → String
  | .trace request => request.entry
  | .signature entry => entry

/-- A query as JSON. -/
def Query.toJson : Query → Json
  | .trace request =>
      .obj [("op", .str "trace"), ("entry_function_id", .str request.entry),
        ("stop_line", .nat request.stopLine), ("arguments", request.arguments.toJson),
        ("target_filename", .str request.file.text)]
  | .signature entry => .obj [("op", .str "signature"), ("entry_function_id", .str entry)]

/-! ## Messages of the runtime -/

/-- What the runtime says. -/
inductive Message where
  | event (event : Event)
  | signature (params : List String)
  | error (message : String)
deriving Inhabited, BEq, Repr

namespace Message

/-- The written form of parameters. -/
def signatureRecord : Json.Record (List String) :=
  { title := "struct variant ControlMessage::Signature"
    slots := [.of "param_names" .never (.list .string) fun v _ => v] }

/-- The written form of an error. -/
def errorRecord : Json.Record String :=
  { title := "struct variant ControlMessage::Error"
    slots := [.of "message" .always .string fun v _ => v] }

/-- Reads a message that is no event. -/
def decodeControl : Json.Decode Message :=
  .tagged "internally tagged enum ControlMessage" "event" [
    ("signature", fun ctx tree => (signatureRecord.decode [] ctx tree).map .signature),
    ("error", fun ctx tree => (errorRecord.decode "" ctx tree).map .error)]

/-- Reads a message. -/
def decode : Json.Decode Message :=
  .firstOf "RuntimeMessage" [fun ctx tree => (Event.decode ctx tree).map .event, decodeControl]

end Message

end ChangeScope.Trace
