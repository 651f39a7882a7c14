import ChangeScope.Json.Decode
import ChangeScope.Workspace

/-!
# The service

The service answers requests, one JSON object a line, with responses, one JSON object a line. A
blank line is no request. Whatever a request is, it gets one response; after the request to shut
down nothing more is read.
-/

set_option autoImplicit false

namespace ChangeScope.Service

/-! ## Requests -/

/-- A request: the name of a command and its parameters. -/
structure Request where
  command : String := ""
  params : Option Json := none
deriving Inhabited

/-- The written form of a request. -/
def Request.record : Json.Record Request :=
  { title := "struct CommandReq"
    slots := [
      .of "command" .always .string fun v r => { r with command := v },
      .of "params" .inArrays (.optional .any) fun v r => { r with params := v }] }

/-- The wish to analyse a change. -/
structure AnalysisParams where
  repo : Option String := none
  range : Option String := none
  staged : Bool := false
  /-- Where the snapshot goes. -/
  dir : Option String := none
deriving Inhabited

/-- The written form of the wish to analyse a change. -/
def AnalysisParams.record : Json.Record AnalysisParams :=
  { title := "struct ChangedFunctionsParams"
    slots := [
      .of "repo_path" .inArrays (.optional .path) fun v p => { p with repo := v },
      .of "range" .inArrays (.optional .string) fun v p => { p with range := v },
      .of "staged" .never .bool fun v p => { p with staged := v },
      .of "output_dir" .inArrays (.optional .path) fun v p => { p with dir := v }] }

/-- The wish to trace a function. -/
structure TraceParams where
  entry : String := ""
  stopLine : Nat := 0
  /-- The arguments, or a text of them. -/
  arguments : Option Json := none
deriving Inhabited

/-- The written form of the wish to trace a function. -/
def TraceParams.record : Json.Record TraceParams :=
  { title := "struct TracerEventParams"
    slots := [
      .of "entry_function_id" .always .string fun v p => { p with entry := v },
      .of "stop_line" .always .natural fun v p => { p with stopLine := v },
      .of "arguments_json" .inArrays (.optional .any) fun v p => { p with arguments := v }] }

/-- The wish to trace a call. -/
structure CallParams where
  caller : String := ""
  line : Nat := 0
  callee : String := ""
  stopLine : Nat := 0
deriving Inhabited

/-- The written form of the wish to trace a call. -/
def CallParams.record : Json.Record CallParams :=
  { title := "struct CallSiteParams"
    slots := [
      .of "caller_id" .always .string fun v p => { p with caller := v },
      .of "call_line" .always .natural fun v p => { p with line := v },
      .of "callee_id" .always .string fun v p => { p with callee := v },
      .of "stop_line" .always .natural fun v p => { p with stopLine := v }] }

/-- The written form of the wish for the parameters of a function. -/
def signatureRecord : Json.Record String :=
  { title := "struct SignatureParams"
    slots := [.of "entry_function_id" .always .string fun v _ => v] }

/-! ## Problems -/

/-- Why a request cannot be met. -/
inductive Problem where
  | invalidRequest (mismatch : Json.Mismatch)
  | invalidParams (command : String) (mismatch : Json.Mismatch)
  | unknownCommand (name : String)
  /-- A range of revisions and the staged change are asked for at once. -/
  | twoTargets
  | failed (failure : Failure)
  | callFailed (failure : CallFailure)
  /-- What has been found cannot be told. -/
  | untold (cause : FileError)
deriving DecidableEq, Repr

/-- The wording of a failure, and after it that of its cause if it has one. -/
def withCause (failure : Failure) : String :=
  match failure with
  | .io cause => failure.message ++ ": " ++ cause.message
  | _ => failure.message

/-- The wording of a problem. -/
def Problem.message : Problem → String
  | .invalidRequest mismatch => "Invalid JSON format: " ++ mismatch.message
  | .invalidParams command mismatch =>
      "Invalid params for " ++ command ++ ": " ++ mismatch.message
  | .unknownCommand name => "Unknown command: " ++ name
  | .twoTargets => "'range' and 'staged' are mutually exclusive"
  | .failed failure => withCause failure
  | .callFailed failure => failure.message
  | .untold cause => cause.message

/-! ## Responses -/

/-- A response: the data that were asked for, or the problem. -/
abbrev Response := Except Problem Json

/-- The line of a response. -/
def Response.text (response : Response) : String :=
  let value : Json :=
    match response with
    | .ok data => .obj [("status", .str "success"), ("data", data)]
    | .error problem => .obj [("status", .str "error"), ("message", .str problem.message)]
  value.sorted.compact

/-- Traced events as JSON. -/
def eventsJson (events : List Trace.Event) : Json :=
  .obj [("events", .arr (events.map (·.toJson)))]

/-- The parameters of a function, or why they are not known, as JSON. -/
def signatureJson : Except Failure (List String) → Json
  | .ok params => .obj [("param_names", .strings params)]
  | .error failure => .obj [("error", .str failure.message)]

/-! ## Commands -/

/-- The change that the parameters pick. -/
def AnalysisParams.target (params : AnalysisParams) : Except Problem Target :=
  match params.range, params.staged with
  | some _, true => .error .twoTargets
  | some range, false => .ok (.range range)
  | none, true => .ok .staged
  | none, false => .ok .workingTree

/-- The text of the arguments, which may be given as a text or as a value. -/
def TraceParams.argumentsText (params : TraceParams) : Option String :=
  match params.arguments with
  | none => none
  | some .null => none
  | some (.str text) => some text
  | some value => some value.compact

/-- Reads the parameters of a request. -/
def paramsOf {α : Type} (request : Request) (record : Json.Record α) (blank : α) :
    Except Problem α :=
  (Json.decodeValue (record.decode blank) (request.params.getD (.obj []))).mapError
    (.invalidParams request.command)

/-- The outcome of a request: the response, or an aborted run, and what has become of the
workspace and its surroundings. -/
abbrev Outcome := Except Abort Response × Workspace × Surroundings

/-- Meets the wish to analyse a change. The report is put in words only after the workspace has
adopted it. -/
def analyze (w : Workspace) (s : Surroundings) (params : AnalysisParams) (target : Target) :
    Outcome :=
  match w.analyze s (params.repo.map Path.mk) target (params.dir.map Path.mk) with
  | (.ok report, w, s) => (.ok ((report.value s.files).mapError .untold), w, s)
  | (.error (.failed failure), w, s) => (.ok (.error (.failed failure)), w, s)
  | (.error (.aborted cause), w, s) => (.error cause, w, s)

/-- Meets the wish to trace a function. -/
def trace (w : Workspace) (s : Surroundings) (params : TraceParams) : Outcome :=
  let (events, w, s) := w.trace s params.entry params.stopLine params.argumentsText
  (.ok (.ok (eventsJson events)), w, s)

/-- Meets the wish to trace a call. -/
def traceCall (w : Workspace) (s : Surroundings) (params : CallParams) : Outcome :=
  let (traced, w, s) := w.traceCall s params.caller params.line params.callee params.stopLine
  (.ok ((traced.map (·.toJson)).mapError .callFailed), w, s)

/-- Meets the wish for the parameters of a function. That they are not known is an answer too. -/
def signature (w : Workspace) (s : Surroundings) (entry : String) : Outcome :=
  let (found, w, s) := w.signature s entry
  (.ok (.ok (signatureJson found)), w, s)

/-- Goes on with parameters that could be read. -/
def withParams {α : Type} (w : Workspace) (s : Surroundings) (params : Except Problem α)
    (next : α → Outcome) : Outcome :=
  match params with
  | .ok params => next params
  | .error problem => (.ok (.error problem), w, s)

/-- The command that ends the service. -/
def shutdown : String := "SHUTDOWN"

/-- Answers a request. -/
def answer (w : Workspace) (s : Surroundings) (request : Request) : Outcome :=
  match request.command with
  | "PING" => (.ok (.ok (.str "PONG")), w, s)
  | "GET_CHANGED_FUNCTIONS" =>
      withParams w s (paramsOf request AnalysisParams.record {}) fun params =>
        withParams w s params.target (analyze w s params)
  | "GET_NEXT_TRACER_EVENT" =>
      withParams w s (paramsOf request TraceParams.record {}) (trace w s)
  | "TRACE_CALL_SITE" => withParams w s (paramsOf request CallParams.record {}) (traceCall w s)
  | "GET_FUNCTION_SIGNATURE" =>
      withParams w s (paramsOf request signatureRecord "") (signature w s)
  | "RESET" => (.ok (.ok (.str "OK")), w.reset, s)
  | "SHUTDOWN" => (.ok (.ok (.str "Shutting down...")), w, s)
  | name => (.ok (.error (.unknownCommand name)), w, s)

/-! ## Lines -/

/-- The request of a line. -/
def requestOf (line : List Char) : Except Problem Request :=
  (Json.decodeText (Request.record.decode {}) line).mapError .invalidRequest

/-- Answers a line that is not blank. -/
def answerLine (w : Workspace) (s : Surroundings) (line : List Char) : Outcome :=
  withParams w s (requestOf line) (answer w s)

/-- The line ends the service. -/
def endsService (line : List Char) : Bool :=
  match requestOf line with
  | .ok request => request.command == shutdown
  | .error _ => false

/-- Serves lines to their end or to the request to shut down; gives the responses in order. -/
def serveLines (w : Workspace) (s : Surroundings) :
    List (List Char) → Except Abort (List Response) × Workspace × Surroundings
  | [] => (.ok [], w, s)
  | line :: rest =>
      let line := Text.trim line
      if line.isEmpty then serveLines w s rest
      else
        match answerLine w s line with
        | (.error cause, w, s) => (.error cause, w, s)
        | (.ok response, w, s) =>
            if endsService line then (.ok [response], w, s)
            else
              let (responses, w, s) := serveLines w s rest
              (responses.map (response :: ·), w, s)

/-- Serves the lines of a text. -/
def serve (w : Workspace) (s : Surroundings) (input : List Char) :
    Except Abort (List Response) × Workspace × Surroundings :=
  serveLines w s (Text.lines input)

end ChangeScope.Service
