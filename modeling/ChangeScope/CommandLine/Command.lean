import ChangeScope.CommandLine.Options
import ChangeScope.Git

/-!
# Commands

What an argument list asks for. Options that hold for every command come first, then the name of
the command, then its own options; nothing may follow.
-/

set_option autoImplicit false

namespace ChangeScope.CommandLine

/-- What the program can be asked to do. -/
inductive Command where
  /-- Write the default settings into a directory. -/
  | init (dir : Option Path)
  /-- Analyse a change of a repository and write a snapshot into a directory. -/
  | analyze (repo : Option Path) (target : Target) (dir : Option Path) (writesSnapshot : Bool)
  /-- Trace a function up to a line. -/
  | trace (entry : String) (stopLine : Nat) (arguments : Option String)
  /-- Show the parameters of a function. -/
  | signature (entry : String)
  /-- Answer the requests on standard input. -/
  | serve
deriving DecidableEq, Repr

/-- A command and the file of settings that is named for it. -/
structure Invocation where
  settings : Option Path
  command : Command
deriving DecidableEq, Repr

/-! ## Options -/

/-- The request for help, which every list of options holds. -/
def helpOption : OptionSpec := { name := "help", letter := some 'h', kind := .halting .help }

/-- The options before the name of the command. -/
def commonOptions : List OptionSpec := [
  { name := "config", letter := some 'c', kind := .path },
  { name := "verbose", letter := some 'v', kind := .flag },
  { name := "version", letter := some 'V', kind := .halting .version },
  helpOption]

/-- The options of each command. -/
def commandOptions : List (String × List OptionSpec) := [
  ("init", [{ name := "path", letter := some 'p', kind := .path }]),
  ("analyze", [
    { name := "repo", letter := some 'r', kind := .path },
    { name := "range", kind := .text },
    { name := "staged", kind := .flag },
    { name := "output", letter := some 'o', kind := .path },
    { name := "no-artifacts", kind := .flag }]),
  ("trace", [
    { name := "entry", kind := .text },
    { name := "stop-line", kind := .number },
    { name := "args", kind := .text }]),
  ("signature", [{ name := "entry", kind := .text }]),
  ("serve", [])]

/-! ## Reading commands -/

/-- The path that an option names. -/
def path? (given : Given) (name : String) : Option Path := (given.lookup name).map Path.mk

/-- The value of an option that must be given. -/
def required (given : Given) (name : String) : Except Halt String :=
  match given.lookup name with
  | some value => .ok value
  | none => .error .misuse

/-- The change that is asked for; a range and the staged change exclude one another. -/
def targetOf (given : Given) : Except Halt Target :=
  match given.lookup "range", given.lookup "staged" with
  | some _, some _ => .error .misuse
  | some range, none => .ok (.range range)
  | none, some _ => .ok .staged
  | none, none => .ok .workingTree

/-- The command with a name and options. -/
def Command.ofOptions (name : String) (given : Given) : Except Halt Command :=
  match name with
  | "init" => .ok (.init (path? given "path"))
  | "analyze" => do
      let target ← targetOf given
      .ok (.analyze (path? given "repo") target (path? given "output")
        (given.lookup "no-artifacts").isNone)
  | "trace" => do
      let entry ← required given "entry"
      let stopLine ← required given "stop-line"
      .ok (.trace entry ((Text.natural? stopLine.toList).getD 0) (given.lookup "args"))
  | "signature" => do
      let entry ← required given "entry"
      .ok (.signature entry)
  | "serve" => .ok .serve
  | _ => .error .misuse

/-- Reads a command from its name and the arguments after it. -/
def Command.ofArguments (name : String) (arguments : List String) : Except Halt Command :=
  match commandOptions.lookup name with
  | none => .error .misuse
  | some options => do
      let reading ← readOptions (options ++ [helpOption]) [] arguments
      if reading.rest.isEmpty then ofOptions name reading.given else .error .misuse

/-- Help is asked for about the program, about a command or about help. -/
def helpOn (arguments : List String) : Halt :=
  match arguments with
  | [] => .help
  | [name] => if name = "help" || (commandOptions.lookup name).isSome then .help else .misuse
  | _ => .misuse

/-- Reads an argument list. -/
def Invocation.ofArguments (arguments : List String) : Except Halt Invocation := do
  let reading ← readOptions commonOptions [] arguments
  if reading.ended then .error .misuse
  else
    match reading.rest with
    | [] => .error .misuse
    | "help" :: rest => .error (helpOn rest)
    | name :: rest => do
        let command ← Command.ofArguments name rest
        .ok ⟨path? reading.given "config", command⟩

end ChangeScope.CommandLine
