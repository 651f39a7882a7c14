import ChangeScope.Git
import ChangeScope.Python.Tree
import ChangeScope.Trace.Runtime

/-!
# Surroundings

All that a workspace meets outside itself: the files, git, the programs that run functions, and the
parser of source files.
Git and the programs only answer; the calls of git and the starts of programs are noted in the
order in which they happen.
-/

set_option autoImplicit false

namespace ChangeScope

/-- The start of a program for a query. -/
structure Start where
  arguments : List String
  query : Trace.Query
deriving Inhabited, BEq, Repr

/-- Files, git and programs. -/
structure Surroundings where
  files : FileTree := .empty
  git : Git := none
  runtime : Trace.Runtime := fun _ => none
  /-- The parser of source files. -/
  parser : Syntax.Parser := Python.parser
  /-- The calls of git so far. -/
  calls : List Git.Arguments := []
  /-- The starts of programs so far. -/
  starts : List Start := []

namespace Surroundings

/-- Notes that a program was started for queries; a program that is not there does not start. -/
def noteStarts (s : Surroundings) (settings : Settings.Tracer) (root : Path)
    (queries : List Trace.Query) : Surroundings :=
  if (s.runtime settings.program).isSome then
    { s with starts := s.starts ++ queries.map (Start.mk (Trace.startArguments settings root)) }
  else s

/-- The same surroundings with nothing noted. -/
def forget (s : Surroundings) : Surroundings := { s with calls := [], starts := [] }

end Surroundings

end ChangeScope
