import ChangeScope.Settings
import ChangeScope.Text.Utf8
import ChangeScope.Trace.Tracer

/-!
# Runtimes

A runtime is a program that is started once for each query. It writes messages, one to a line,
and ends; what else it writes is left out unless it looks like a message. From what it writes a
trace in proper form is made, whatever that is.
-/

set_option autoImplicit false

namespace ChangeScope.Trace

/-- How a program ended. -/
inductive Ending where
  /-- By itself, with a code. -/
  | exited (code : Nat)
  /-- By a signal, which may have a name, perhaps after its memory was written out. -/
  | killed (signal : Nat) (name : Option String) (dumped : Bool)
deriving DecidableEq, Repr, Inhabited

instance : Coe Nat Ending := ⟨.exited⟩

instance (code : Nat) : OfNat Ending code := ⟨.exited code⟩

/-- The wording of an ending. -/
def Ending.text : Ending → String
  | .exited code => "exit status: " ++ toString code
  | .killed signal name dumped =>
      "signal: " ++ toString signal ++ (name.map fun name => " (" ++ name ++ ")").getD "" ++
        if dumped then " (core dumped)" else ""

/-- What a program does with a query. -/
structure Reply where
  stdout : List Char := []
  stderr : Bytes := []
  exit : Ending := 0
  /-- The program does not end by itself. -/
  hangs : Bool := false
deriving Inhabited

/-- The programs by name, each with what it does; `none` where there is no such program. -/
abbrev Runtime := String → Option (Query → Reply)

/-- What is read of a reply. -/
structure Exchange where
  messages : List Message
  exit : Ending
  /-- The last lines of the error output. -/
  errors : String
deriving Inhabited, BEq, Repr

/-! ## Reading -/

/-- The message of a line. A line that begins like an object but is no message is reported as an
error; any other line that is no message is none. -/
def message? (line : List Char) : Option Message :=
  match Json.decodeText Message.decode line with
  | .ok message => some message
  | .error mismatch =>
      if line.head? = some '\x7b' then
        let text := "unparseable event (" ++ mismatch.message ++ "): " ++ String.ofList line
        some (.error (Failure.tracerProtocol text).message)
      else none

/-- The messages of some lines, up to the end of the trace. -/
def readMessages : List (List Char) → List Message
  | [] => []
  | line :: rest =>
      match message? (Text.trim line) with
      | some (.event .done) => [.event .done]
      | some message => message :: readMessages rest
      | none => readMessages rest

/-- How many lines of the error output are kept. -/
def keptErrorLines : Nat := 20

/-- The last lines of a text. -/
def lastLines (count : Nat) (text : List Char) : List Char :=
  let lines := Text.lines text
  Text.join ['\n'] (lines.drop (lines.length - count))

/-- The error output that is kept; one that is no text is left out. -/
def Reply.errors (reply : Reply) : String :=
  String.ofList (lastLines keptErrorLines ((Text.Utf8.decode? reply.stderr).getD []))

/-- Starts the program of the settings for a query. No program ends in no time at all. -/
def exchange (runtime : Runtime) (settings : Settings.Tracer) (query : Query) :
    Except Failure Exchange :=
  match runtime settings.program with
  | none =>
      .error (.tracerStart (settings.program ++ ": " ++ FileError.message .notFound))
  | some program =>
      let reply := program query
      if reply.hangs || settings.timeoutMs = 0 then .error (.tracerTimeout settings.timeoutMs)
      else .ok ⟨readMessages (Text.lines reply.stdout), reply.exit, reply.errors⟩

/-! ## Answers -/

/-- How the program ended, in words. -/
def Exchange.status (e : Exchange) : String := e.exit.text

/-- The event of a message; an error counts as an exception. -/
def Exchange.event? (e : Exchange) : Message → Option Event
  | .event event => some event
  | .error message => some (.raised message e.errors none none)
  | .signature _ => none

/-- The trace that an exchange amounts to. -/
def Exchange.trace (e : Exchange) : List Event :=
  settle (e.messages.filterMap e.event?) ("tracer exited before completing (" ++ e.status ++ ")")
    e.errors

/-- What the messages say of the parameters of a function. -/
def signatureIn (entry : String) : List Message → Option (Except Failure (List String))
  | [] => none
  | .signature params :: _ => some (.ok params)
  | .error message :: _ => some (.error (.signatureLookup entry message))
  | .event _ :: rest => signatureIn entry rest

/-- The parameters that an exchange gives. -/
def Exchange.signature (e : Exchange) (entry : String) : Except Failure (List String) :=
  (signatureIn entry e.messages).getD
    (.error (.signatureLookup entry
      ("no signature in tracer output (" ++ e.status ++ "): " ++ e.errors)))

/-- The backend that starts a program for each query. -/
def Runtime.backend (runtime : Runtime) (settings : Settings.Tracer) : Backend :=
  { trace := fun request => (exchange runtime settings (.trace request)).map (·.trace)
    signature := fun entry =>
      match exchange runtime settings (.signature entry) with
      | .ok e => e.signature entry
      | .error failure => .error (.signatureLookup entry failure.message) }

/-- The arguments with which a program is started to work in a repository. -/
def startArguments (settings : Settings.Tracer) (root : Path) : List String :=
  settings.args ++ ["--repo-root", root.text]

end ChangeScope.Trace
