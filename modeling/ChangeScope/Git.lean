import ChangeScope.Failure
import ChangeScope.Settings
import ChangeScope.Text.Utf8

/-!
# Version control

What is asked of git: the patch of a change, and the files that are not under version control.
What git answers depends on its arguments alone. Every call is noted, whether its answer is used
or not.
-/

set_option autoImplicit false

namespace ChangeScope

/-- Which change is meant. -/
inductive Target where
  /-- What is not staged, and files not under version control. -/
  | workingTree
  /-- What is staged. -/
  | staged
  /-- What a range of revisions changes. -/
  | range (text : String)
deriving DecidableEq, Repr, Inhabited

namespace Git

/-- What a call of git gives. -/
structure Output where
  stdout : Bytes := []
  stderr : Bytes := []
  exit : Nat := 0
deriving DecidableEq, Repr, Inhabited

/-- The arguments of a call. -/
abbrev Arguments := List String

end Git

/-- Git, as answers to its arguments; `none` where it is not installed. -/
abbrev Git := Option (Git.Arguments → Git.Output)

namespace Git

/-- The result of some calls, and the calls in order. -/
abbrev Asking (α : Type) := ExceptT Failure (StateM (List Arguments)) α

/-- Calls git. -/
def call (git : Git) (arguments : Arguments) : Asking Output :=
  match git with
  | none => throw (.diff ("failed to run git: " ++ FileError.message .notFound))
  | some answer =>
      if arguments.any fun argument => argument.toList.contains '\x00' then
        throw (.diff "failed to run git: nul byte found in provided data")
      else do
        modify (· ++ [arguments])
        pure (answer arguments)

/-- The standard output of a call that ends well; `command` names the call in messages. -/
def text (git : Git) (command : String) (arguments : Arguments) : Asking (List Char) := do
  let output ← call git arguments
  if output.exit = 0 then pure (Text.Utf8.decodeLossy output.stdout)
  else
    let reason := Text.trim (Text.Utf8.decodeLossy output.stderr)
    throw (.diff ("git " ++ command ++ " failed: " ++ String.ofList reason))

/-! ## Patches -/

/-- The options that leave out changes of white space. -/
def ignoreWhitespace : Arguments :=
  ["--ignore-space-at-eol", "-b", "-w", "--ignore-blank-lines"]

/-- The arguments that pick a change. A range must not look like an option. -/
def targetArguments : Target → Except Failure Arguments
  | .workingTree => .ok []
  | .staged => .ok ["--cached"]
  | .range text =>
      if text.toList.head? = some '-' then
        .error (.diff ("invalid revision range '" ++ text ++ "'"))
      else .ok [text, "--"]

/-- The arguments that ask for the patch of a change. -/
def patchArguments (settings : Settings.Analysis) (root : Path) (target : Target) :
    Except Failure Arguments := do
  let picked ← targetArguments target
  .ok (["-C", root.text, "diff", "--relative", "--no-color", "--no-ext-diff", "-U0"] ++
    (if settings.ignoreWhitespace then ignoreWhitespace else []) ++ picked)

/-- The patch of a change, as git gives it. -/
def patch (git : Git) (settings : Settings.Analysis) (root : Path) (target : Target) :
    Asking (List Char) :=
  match patchArguments settings root target with
  | .error failure => throw failure
  | .ok arguments => text git "diff" arguments

/-! ## Untracked files -/

/-- The arguments that ask for the files that are not under version control. -/
def untrackedArguments (root : Path) : Arguments :=
  ["-C", root.text, "ls-files", "--others", "--exclude-standard"]

/-- The paths, from the root, of the files that are not under version control. -/
def untracked (git : Git) (root : Path) : Asking (List Path) := do
  let listing ← text git "ls-files" (untrackedArguments root)
  let lines := (Text.lines listing).filter fun line => !Text.isBlankText line
  pure (lines.map fun line => ⟨String.ofList line⟩)

end Git

end ChangeScope
