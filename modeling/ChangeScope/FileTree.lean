import ChangeScope.Path
import ChangeScope.Text.Utf8

/-!
# File trees

The files, directories and links that the program meets, as a value. A place is the list of names
from the root. Every lookup walks the components of a path from the working directory and follows
the symbolic links that it meets, so a path through a missing directory, through a file or around a
circle of links fails as it does on disk. A file may have several names (hard links); other bytes
under one of them are other bytes under all.

What the tree allows may still fail, for want of rights or of room: the refusals of a tree say
where.
-/

set_option autoImplicit false

namespace ChangeScope

/-- The content of a file. -/
abbrev Bytes := List UInt8

/-- The names on the way from the root. -/
abbrev Place := List (List Char)

/-- What stands at a place. -/
inductive Entry where
  /-- A file with one name. -/
  | file (content : Bytes)
  /-- One of the names of a file that has several. -/
  | shared (number : Nat)
  | directory
  /-- A symbolic link. -/
  | link (target : Path)
deriving DecidableEq, Repr

/-- Both are names of one file. -/
def Entry.isSame : Entry → Entry → Bool
  | .shared number, .shared other => number == other
  | _, _ => false

/-- What a path can lead to. -/
inductive Found where
  | file (content : Bytes)
  | directory
deriving DecidableEq, Repr

/-- The file or directory that an entry is, by the contents of the files with several names; a link
is neither. -/
def Entry.found? (contents : List (Nat × Bytes)) : Entry → Option Found
  | .file content => some (.file content)
  | .shared number => some (.file ((contents.lookup number).getD []))
  | .directory => some .directory
  | .link _ => none

/-- Why an operation on files fails. -/
inductive FileError where
  | notFound
  | exists_
  | notDirectory
  | isDirectory
  | tooManyLinks
  | notText
  | nulByte
  /-- The system refuses what the tree allows. -/
  | refused (wording : String)
  /-- The path of a file has to be written as a text and is none. -/
  | pathNotText
deriving DecidableEq, Repr

/-- The wording of a failure. -/
def FileError.message : FileError → String
  | .notFound => "No such file or directory (os error 2)"
  | .exists_ => "File exists (os error 17)"
  | .notDirectory => "Not a directory (os error 20)"
  | .isDirectory => "Is a directory (os error 21)"
  | .tooManyLinks => "Too many levels of symbolic links (os error 40)"
  | .notText => "stream did not contain valid UTF-8"
  | .nulByte => "file name contained an unexpected NUL byte"
  | .refused wording => wording
  | .pathNotText => "path contains invalid UTF-8 characters"

/-- What the system refuses although the tree allows it, by place and with the wording. -/
structure Refusals where
  /-- Directories that are not made. -/
  make : List (Place × String) := []
  /-- Files that are not opened to be written. -/
  open_ : List (Place × String) := []
  /-- Files that are opened, and whose writing breaks off after a number of bytes. -/
  write : List (Place × Nat × String) := []
  /-- Names that no file is given. -/
  rename : List (Place × String) := []
deriving DecidableEq, Repr, Inhabited

/-- Files, directories and links by place. The working directory and those around it are always
there. -/
structure FileTree where
  entries : List (Place × Entry) := []
  /-- The files with several names, by number. -/
  contents : List (Nat × Bytes) := []
  /-- The place of the working directory. -/
  working : Place := ["repo".toList]
  refusals : Refusals := {}
  /-- Names that are no text. What stands for them here is the name of nothing else. -/
  foreign : List (List Char) := []
deriving DecidableEq, Repr, Inhabited

namespace FileTree

/-- No file at all. -/
def empty : FileTree := {}

/-! ## Places -/

/-- What stands at a place. -/
def entryAt? (tree : FileTree) (place : Place) : Option Entry :=
  if place.isPrefixOf tree.working then some .directory else tree.entries.lookup place

/-- The tree with an entry set. -/
def set (tree : FileTree) (place : Place) (entry : Entry) : FileTree :=
  { tree with entries := (place, entry) :: tree.entries.filter fun e => e.1 != place }

/-- The tree without an entry. -/
def erase (tree : FileTree) (place : Place) : FileTree :=
  { tree with entries := tree.entries.filter fun e => e.1 != place }

/-- The tree with other bytes in the file at a place, or with a new file there. -/
def put (tree : FileTree) (place : Place) (content : Bytes) : FileTree :=
  match tree.entryAt? place with
  | some (.shared number) =>
      { tree with
        contents := (number, content) :: tree.contents.filter fun file => file.1 != number }
  | _ => tree.set place (.file content)

/-- The file or directory at a place. -/
def foundAt? (tree : FileTree) (place : Place) : Option Found :=
  (tree.entryAt? place).bind (Entry.found? tree.contents)

/-! ## Ways -/

/-- A way goes on in a directory only. -/
def enter (tree : FileTree) (here : Place) : Except FileError Unit :=
  match tree.entryAt? here with
  | some .directory => .ok ()
  | some _ => .error .notDirectory
  | none => .error .notFound

/-- Where a component leads from a place. -/
def next (here : Place) : Path.Component → Place
  | .root => []
  | .current => here
  | .parent => here.dropLast
  | .name n => here ++ [n]

/-- How far a way leads without a link. -/
inductive Stage where
  | arrived (place : Place)
  /-- A link in the directory `around`, with what is left of the way behind it. -/
  | link (around : Place) (target : Path) (rest : List Path.Component)
deriving DecidableEq, Repr

/-- Walks from a place along components up to the first link; `follow` says whether a link at the
end of the way is one that is followed. -/
def stage (tree : FileTree) (follow : Bool) : Place → List Path.Component → Except FileError Stage
  | here, [] => .ok (.arrived here)
  | here, c :: rest =>
      match tree.enter here with
      | .error cause => .error cause
      | .ok () =>
          match tree.entryAt? (next here c) with
          | some (.link target) =>
              if follow || !rest.isEmpty then .ok (.link here target rest)
              else .ok (.arrived (next here c))
          | _ => stage tree follow (next here c) rest

/-- The `.` that a path ends in, if it ends in one. -/
def lastDot (p : Path) : List Path.Component :=
  if ((Path.pieces p.text.toList).filter (!·.isEmpty)).getLast? = some ['.'] then [.current] else []

/-- The components of the target of a link. One that ends like a directory leads to a directory
only. -/
def linkWay (target : Path) : List Path.Component :=
  target.components ++
    (if target.text.toList.getLast? = some '/' then [.current] else lastDot target)

/-- Walks from a place along components. A link leads on from the directory in which it stands, as
long as `links` are left to be followed; gives the place and how many links are left then. -/
def walk (tree : FileTree) (follow : Bool) :
    Nat → Place → List Path.Component → Except FileError (Place × Nat)
  | 0, here, components =>
      match tree.stage follow here components with
      | .error cause => .error cause
      | .ok (.arrived place) => .ok (place, 0)
      | .ok (.link _ _ _) => .error .tooManyLinks
  | links + 1, here, components =>
      match tree.stage follow here components with
      | .error cause => .error cause
      | .ok (.arrived place) => .ok (place, links + 1)
      | .ok (.link around target rest) => walk tree follow links around (linkWay target ++ rest)

/-- The number of links that one way may follow. -/
def maxLinks : Nat := 40

/-- The place that components lead to from the working directory, with every link followed. -/
def lead (tree : FileTree) (components : List Path.Component) : Except FileError Place :=
  (tree.walk true maxLinks tree.working components).map (·.1)

/-- The place that the last of the components names, which may be that of a link. -/
def locate (tree : FileTree) (components : List Path.Component) : Except FileError Place :=
  (tree.walk false maxLinks tree.working components).map (·.1)

/-- What a path is before it is looked up: neither empty nor with a zero inside. -/
def check (p : Path) : Except FileError Unit :=
  if p.text.toList.contains '\x00' then .error .nulByte
  else if p.text.isEmpty then .error .notFound
  else .ok ()

/-- The place that a path leads to, which need not exist; the directory around it must. -/
def place (tree : FileTree) (p : Path) : Except FileError Place :=
  (check p).bind fun () => tree.lead p.components

/-- The place that a path names, be it that of a link. -/
def placeOfName (tree : FileTree) (p : Path) : Except FileError Place :=
  (check p).bind fun () => tree.locate p.components

/-- The place that a path leads to and what is there. -/
def find (tree : FileTree) (p : Path) : Except FileError (Place × Found) := do
  let place ← tree.place p
  match tree.foundAt? place with
  | some .directory => .ok (place, .directory)
  | some (.file content) =>
      if p.text.toList.getLast? = some '/' then .error .notDirectory
      else .ok (place, .file content)
  | none => .error .notFound

/-- The path is a text. -/
def isText (tree : FileTree) (p : Path) : Bool :=
  p.components.all fun component =>
    match component with
    | .name n => !tree.foreign.contains n
    | _ => true

/-! ## Reading -/

/-- The path names a file. -/
def isFile (tree : FileTree) (p : Path) : Bool :=
  match tree.find p with
  | .ok (_, .file _) => true
  | _ => false

/-- The path names a directory. -/
def isDirectory (tree : FileTree) (p : Path) : Bool :=
  match tree.find p with
  | .ok (_, .directory) => true
  | _ => false

/-- The path names something. -/
def exists? (tree : FileTree) (p : Path) : Bool := (tree.find p).isOk

/-- The bytes of a file. -/
def read (tree : FileTree) (p : Path) : Except FileError Bytes := do
  match (← tree.find p).2 with
  | .file content => .ok content
  | .directory => .error .isDirectory

/-- The text of a file. -/
def readText (tree : FileTree) (p : Path) : Except FileError (List Char) := do
  match Text.Utf8.decode? (← tree.read p) with
  | some text => .ok text
  | none => .error .notText

/-- The absolute path of a place. -/
def pathOf (place : Place) : Path :=
  ⟨String.ofList (if place.isEmpty then ['/'] else place.flatMap ('/' :: ·))⟩

/-- The absolute path without `.` and `..` of something that exists. -/
def canonical (tree : FileTree) (p : Path) : Except FileError Path := do
  let (place, _) ← tree.find p
  .ok (pathOf place)

/-- The names in a directory, in the order of their text. -/
def names (tree : FileTree) (place : Place) : List (List Char) :=
  let inside := tree.entries.filterMap fun (p, _) =>
    match p.getLast? with
    | some name => if p.dropLast = place then some name else none
    | none => none
  (inside.map String.ofList).mergeSort (fun a b => decide (a ≤ b)) |>.map String.toList

/-! ## Writing -/

/-- Makes a directory at a place that is free; only a name can be one. -/
def makeDirectory (tree : FileTree) (components : List Path.Component) :
    Except FileError FileTree := do
  let place ← tree.locate components
  match components.getLast?, tree.entryAt? place with
  | some (.name _), none =>
      match tree.refusals.make.lookup place with
      | none => .ok (tree.set place .directory)
      | some wording => .error (.refused wording)
  | some (.name _), some _ => .error .exists_
  | _, some .directory => .error .exists_
  | _, some _ => .error .notDirectory
  | _, none => .error .notFound

/-- The components lead to a directory. -/
def leadsToDirectory (tree : FileTree) (components : List Path.Component) : Bool :=
  match tree.lead components with
  | .ok place => tree.entryAt? place = some .directory
  | .error _ => false

/-- What came of making a directory; one that is there already is no failure. -/
def settleDirectory (tree : FileTree) (components : List Path.Component) :
    FileTree × Except FileError Unit :=
  match tree.makeDirectory components with
  | .ok made => (made, .ok ())
  | .error cause =>
      if tree.leadsToDirectory components then (tree, .ok ()) else (tree, .error cause)

/-- Makes the directory of some components, given from the last one on, with a `.` perhaps behind
them. Where something is missing on the way, the directories around it are made first. -/
def makeAround (tree : FileTree) :
    List Path.Component → List Path.Component → FileTree × Except FileError Unit
  | [], _ => (tree, .ok ())
  | last :: around, behind =>
      let components := (last :: around).reverse ++ behind
      match tree.makeDirectory components with
      | .error .notFound =>
          match tree.makeAround around [] with
          | (made, .error cause) => (made, .error cause)
          | (made, .ok ()) => made.settleDirectory components
      | _ => tree.settleDirectory components

/-- Makes a directory and those around it that are missing; one that is there already is left as
it is. A failure leaves the directories that were made before it. -/
def makeDirectories (tree : FileTree) (p : Path) : FileTree × Except FileError Unit :=
  if p.text.toList.contains '\x00' then (tree, .error .nulByte)
  else tree.makeAround p.components.reverse (lastDot p)

/-- The place of a file that is opened to be written: that of a file, or a free one in a
directory. -/
def openPlace (tree : FileTree) (p : Path) : Except FileError Place := do
  let place ← tree.place p
  match tree.entryAt? place with
  | some .directory => .error .isDirectory
  | _ =>
      tree.enter place.dropLast
      if p.text.toList.getLast? = some '/' then .error .isDirectory
      else
        match tree.refusals.open_.lookup place with
        | none => .ok place
        | some wording => .error (.refused wording)

/-- Writes a file. A file that could be opened holds what was written before a failure. -/
def write (tree : FileTree) (p : Path) (content : Bytes) : FileTree × Except FileError Unit :=
  match tree.openPlace p with
  | .error cause => (tree, .error cause)
  | .ok place =>
      match tree.refusals.write.lookup place with
      | none => (tree.put place content, .ok ())
      | some (count, wording) => (tree.put place (content.take count), .error (.refused wording))

/-- Gives a file or a link another name, in the place of what has that name. A link stays the link
that it is, and two names of one file are left as they are. No directory is moved. -/
def rename (tree : FileTree) (source target : Path) : Except FileError FileTree := do
  let sourcePlace ← tree.placeOfName source
  let targetPlace ← tree.placeOfName target
  match tree.entryAt? sourcePlace, tree.entryAt? targetPlace with
  | none, _ => .error .notFound
  | some .directory, _ => .error .isDirectory
  | some _, some .directory => .error .isDirectory
  | some entry, replaced =>
      if sourcePlace = targetPlace || replaced.any entry.isSame then .ok tree
      else
        match tree.refusals.rename.lookup targetPlace with
        | none => .ok ((tree.erase sourcePlace).set targetPlace entry)
        | some wording => .error (.refused wording)

/-! ## Making a tree -/

/-- The tree with a file and the directories around it. -/
def putFile (tree : FileTree) (p : Path) (content : Bytes) : FileTree :=
  let around := (p.parent?.map fun dir => (tree.makeDirectories dir).1).getD tree
  match around.place p with
  | .ok place => around.set place (.file content)
  | .error _ => around

/-- The tree without the file of a path. -/
def removeFile (tree : FileTree) (p : Path) : FileTree :=
  match tree.place p with
  | .ok place => tree.erase place
  | .error _ => tree

/-- The tree of some files. -/
def ofFiles (files : List (Path × Bytes)) : FileTree :=
  files.foldl (fun tree (p, content) => tree.putFile p content) empty

end FileTree

end ChangeScope
