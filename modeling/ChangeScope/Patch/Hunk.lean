import ChangeScope.Patch
import ChangeScope.Patch.Signature
import ChangeScope.Text.Similarity

/-!
# Hunks that matter

A hunk matters unless it touches only comments and blank lines, or only signature lines that keep
their names and nearly their parameters. A patch can be written anew without the other hunks.
-/

set_option autoImplicit false

namespace ChangeScope.Patch

/-- The added lines of a hunk. -/
def addedLines (hunk : List Line) : List Line := hunk.filterMap (['+'].isPrefixOf? ·)

/-- The removed lines of a hunk. -/
def removedLines (hunk : List Line) : List Line := hunk.filterMap (['-'].isPrefixOf? ·)

/-- A blank line or a comment. -/
def isNoise (line : Line) : Bool :=
  match Text.trim line with
  | [] => true
  | c :: _ => c == '#'

/-- Neither noise nor a signature line. -/
def isSubstantive (line : Line) : Bool := !isNoise line && (signature? line).isNone

/-- The least similarity of two plain signatures that count as the same. -/
def closeEnough : Rat := 17 / 20

/-- The signatures differ in more than form. -/
def differs (a b : Signature) : Bool :=
  a.plain != b.plain && decide (Text.similarity a.plain b.plain < closeEnough)

/-- The added lines hold no signature of the same name, or the first one differs. -/
def isLost (added : List Signature) (removed : Signature) : Bool :=
  match added.find? (·.name == removed.name) with
  | some kept => differs removed kept
  | none => true

/-- The hunk changes more than form. -/
def isImportant (hunk : List Line) : Bool :=
  let added := addedLines hunk
  let removed := removedLines hunk
  if added.all isNoise && removed.all isNoise then false
  else if added.any isSubstantive || removed.any isSubstantive then true
  else
    let old := removed.filterMap signature?
    let new := added.filterMap signature?
    old.any (isLost new) || (old.isEmpty && !added.isEmpty)

/-- The first line of a hunk. -/
def isHunkLine (line : Line) : Bool := Text.startsWith "@@".toList line

/-- The lines of some files and hunks without the hunks that change only form. With `keepAll`,
which holds in the section of a deleted file, hunks stay. -/
def keepImportant : Bool → List (Line × List Line) → List Line
  | _, [] => []
  | keepAll, (head, body) :: rest =>
      if isFileLine head then head :: (body ++ keepImportant (body.any isDeletionLine) rest)
      else if keepAll || isImportant body then head :: (body ++ keepImportant keepAll rest)
      else keepImportant keepAll rest

/-- The patch without the hunks that change only form. -/
def dropTrivialHunks (text : List Char) : List Char :=
  let lines := Text.lines text
  let (front, parts) := Text.cutBefore (fun line => isFileLine line || isHunkLine line) lines
  (front ++ keepImportant (front.any isDeletionLine) parts).flatMap (· ++ ['\n'])

end ChangeScope.Patch
