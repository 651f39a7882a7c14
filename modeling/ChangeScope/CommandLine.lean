import ChangeScope.CommandLine.Command
import ChangeScope.Service

/-!
# The command line

What the program writes and how it ends, from its arguments, its input and its surroundings. It
ends with 0 when it did what was asked, with 1 when that failed and with 2 when the arguments are
wrong.
-/

set_option autoImplicit false

namespace ChangeScope.CommandLine

/-- How a run of the program ends. -/
structure Outcome where
  exit : Nat
  stdout : String := ""
  stderr : String := ""
deriving DecidableEq, Repr, Inhabited

namespace Outcome

/-- All went well. -/
def done (stdout : String) : Outcome := { exit := 0, stdout := stdout }

/-- The command failed. -/
def failed (message : String) : Outcome := { exit := 1, stderr := "Error: " ++ message ++ "\n" }

end Outcome

/-! ## Texts about the program -/

/-- The name and the version of the program. -/
def versionText : String := "flowlens 0.1.0\n"

/-- How the program is called. -/
def usageText : String :=
  "Usage: flowlens [OPTIONS] <COMMAND>\n\n" ++
  "Commands: init, analyze, trace, signature, serve, help\n\n" ++
  "Options: -c, --config <CONFIG>; -v, --verbose; -h, --help; -V, --version\n"

/-- The end of a run that has nothing to do. -/
def Halt.outcome : Halt → Outcome
  | .misuse => { exit := 2, stderr := usageText }
  | .help => .done usageText
  | .version => .done versionText

/-! ## Commands -/

/-- An indented value and the end of the line. -/
def document (value : Json) : String := value.pretty ++ "\n"

/-- What remains after a run: how it ended, or that it was aborted, and the surroundings. -/
abbrev Result := Except Abort Outcome × Surroundings

/-- Writes the default settings into a directory, by default the working directory. -/
def runInit (s : Surroundings) (dir : Option Path) : Result :=
  let dir := dir.getD (FileTree.pathOf s.files.working)
  match Settings.saveDefaults s.files dir with
  | (files, .ok file) => (.ok (.done (file.text ++ "\n")), { s with files := files })
  | (files, .error failure) => (.ok (.failed failure.message), { s with files := files })

/-- Analyses a change and prints the report. A place for a snapshot must not be named when none is
written. -/
def runAnalyze (w : Workspace) (s : Surroundings) (repo : Option Path) (target : Target)
    (dir : Option Path) (writesSnapshot : Bool) : Result :=
  if !writesSnapshot && dir.isSome then
    (.ok (.failed "--output has no effect with --no-artifacts"), s)
  else
    let w := if writesSnapshot then w else w.withoutSnapshots
    match w.analyze s repo target dir with
    | (.ok report, _, s) =>
        match report.value s.files with
        | .ok value => (.ok (.done (document value)), s)
        | .error cause => (.ok (.failed cause.message), s)
    | (.error (.failed failure), _, s) => (.ok (.failed failure.message), s)
    | (.error (.aborted cause), _, s) => (.error cause, s)

/-- Traces a function and prints the events. -/
def runTrace (w : Workspace) (s : Surroundings) (entry : String) (stopLine : Nat)
    (arguments : Option String) : Result :=
  let (events, _, s) := w.trace s entry stopLine arguments
  (.ok (.done (document (Service.eventsJson events).sorted)), s)

/-- Prints the parameters of a function, or why they are not known. -/
def runSignature (w : Workspace) (s : Surroundings) (entry : String) : Result :=
  let (found, _, s) := w.signature s entry
  (.ok (.done (document (Service.signatureJson found))), s)

/-- Answers the requests of an input. -/
def runServe (w : Workspace) (s : Surroundings) (input : List Char) : Result :=
  let (responses, _, s) := Service.serve w s input
  let output := fun responses =>
    Outcome.done (String.join (responses.map fun r => Service.Response.text r ++ "\n"))
  (responses.map output, s)

/-- Carries out a command. -/
def Command.run (w : Workspace) (s : Surroundings) (input : List Char) : Command → Result
  | .init dir => runInit s dir
  | .analyze repo target dir writesSnapshot => runAnalyze w s repo target dir writesSnapshot
  | .trace entry stopLine arguments => runTrace w s entry stopLine arguments
  | .signature entry => runSignature w s entry
  | .serve => runServe w s input

/-- Runs the program on arguments and an input; `program` replaces the program that runs
functions. -/
def run (s : Surroundings) (program : Option String) (arguments : List String)
    (input : List Char) : Result :=
  match Invocation.ofArguments arguments with
  | .error halt => (.ok halt.outcome, s)
  | .ok invocation =>
      match Workspace.load s.files program invocation.settings with
      | .error failure => (.ok (.failed failure.message), s)
      | .ok w => invocation.command.run w s input

/-- The run needs its input. -/
def readsInput (arguments : List String) : Bool :=
  match Invocation.ofArguments arguments with
  | .ok invocation => invocation.command == .serve
  | .error _ => false

end ChangeScope.CommandLine
