import ChangeScope.Ordered
import ChangeScope.Path

/-!
# Patches

A patch is a text in the unified format with no context lines. It is cut into the sections of its
files; a section is a header, which names the file and says what became of it, and the hunks. What
is kept of a hunk are the lines of the new file that it touches and the text that it removes.
-/

set_option autoImplicit false

namespace ChangeScope.Patch

/-- One line of a patch, without its end. -/
abbrev Line := List Char

/-- What became of a file. -/
inductive Status where
  | added
  | modified
  | deleted
  | untracked
deriving DecidableEq, Repr, Inhabited

/-- The statuses by name. -/
def Status.names : List (String × Status) :=
  [("added", .added), ("modified", .modified), ("deleted", .deleted), ("untracked", .untracked)]

/-- The name of a status. -/
def Status.name : Status → String
  | .added => "added"
  | .modified => "modified"
  | .deleted => "deleted"
  | .untracked => "untracked"

/-! ## Changes of files -/

/-- A set of line numbers, in increasing order. -/
abbrev LineSet := List Nat

/-- What a patch says about one file. -/
structure FileChange where
  /-- The path from the root of the repository. -/
  path : Path
  status : Status
  /-- The lines of the new file that are touched. -/
  lines : LineSet
  /-- The removed lines, each with a line feed. -/
  removed : List Char
deriving DecidableEq, Repr, Inhabited

/-- The first line and the number of lines of the new side, from the line that opens a hunk. -/
def hunkRange? (line : Line) : Option (Nat × Nat) := do
  let rest ← "@@ -".toList.isPrefixOf? line
  let (_, after) ← Text.splitOnce " +".toList rest
  let range ← (Text.words after).head?
  match Text.splitOnce [','] range with
  | some (start, count) => do
      let start ← Text.natural? start
      let count ← Text.natural? count
      some (start, count)
  | none => do
      let start ← Text.natural? range
      some (start, 1)

/-- The first line of a section. -/
def isFileLine (line : Line) : Bool := Text.startsWith "diff --git ".toList line

/-- The line says that the file is deleted. -/
def isDeletionLine (line : Line) : Bool := Text.startsWith "deleted file mode".toList line

/-- The path that the first line of a section names, which later lines make precise. -/
def titlePath (line : Line) : List Char :=
  match Text.splitLast " b/".toList (line.drop "diff --git ".length) with
  | some (_, path) => path
  | none => []

/-- What is known of a file inside the header of its section. -/
structure Heading where
  path : List Char
  status : Status
deriving DecidableEq, Repr

/-- Takes one line of the header into account. -/
def Heading.read (heading : Heading) (line : Line) : Heading :=
  if Text.startsWith "new file mode".toList line then { heading with status := .added }
  else if isDeletionLine line then { heading with status := .deleted }
  else
    match "+++ b/".toList.isPrefixOf? line with
    | some path => { heading with path := Text.trimEnd path }
    | none =>
        match "--- a/".toList.isPrefixOf? line with
        | some path =>
            if heading.path.isEmpty then { heading with path := Text.trimEnd path } else heading
        | none => heading

/-- The number of the line after a line. Line numbers are words of 64 bits. -/
def nextLine (n : Nat) : Nat := (n + 1) % 0x10000000000000000

/-- The touched lines of some hunks; `next` is the number that the next line of the new side has.
A hunk without new lines touches the line at which it takes place. -/
def touchedLines (next : Nat) : List Line → List Nat
  | [] => []
  | line :: rest =>
      match hunkRange? line with
      | some (start, 0) => max start 1 :: touchedLines start rest
      | some (start, _ + 1) => touchedLines start rest
      | none =>
          match line with
          | '+' :: _ => next :: touchedLines (nextLine next) rest
          | ' ' :: _ => touchedLines (nextLine next) rest
          | _ => touchedLines next rest

/-- The text that some hunks remove. -/
def removedText (lines : List Line) : List Char :=
  lines.flatMap fun line =>
    match line with
    | '-' :: text => text ++ ['\n']
    | _ => []

/-- What a section says about its file. Of a deleted file no line is left to be touched. -/
def FileChange.ofSection (title : Line) (body : List Line) : FileChange :=
  let (header, hunks) := body.span fun line => (hunkRange? line).isNone
  let heading := header.foldl Heading.read ⟨titlePath title, .modified⟩
  { path := ⟨String.ofList heading.path⟩
    status := heading.status
    lines := if heading.status = .deleted then [] else OrderedSet.ofList (touchedLines 0 hunks)
    removed := removedText hunks }

/-- The changes of files that a patch holds. -/
def changes (text : List Char) : List FileChange :=
  (Text.cutBefore isFileLine (Text.lines text)).2.map fun (title, body) =>
    FileChange.ofSection title body

end ChangeScope.Patch
