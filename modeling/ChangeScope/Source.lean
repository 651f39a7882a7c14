import ChangeScope.Python.Extract
import ChangeScope.Python.Tree
import ChangeScope.Settings

/-!
# Indexed source files

A source file with the functions that it defines and the names that it imports.
-/

set_option autoImplicit false

namespace ChangeScope

/-- An indexed source file. -/
structure SourceFile where
  path : Path
  language : String
  functions : List FunctionDef
  /-- The bindings of all import statements, in order. -/
  bindings : List Import.Binding
deriving Repr, Inhabited

namespace SourceFile

/-- The names that the imports leave bound. -/
def imports (file : SourceFile) : Import.Table := Import.Table.ofBindings file.bindings

/-- Indexes a text as the content of a file. -/
def ofText (path : Path) (text : List Char) (parser : Syntax.Parser := Python.parser) :
    Except Failure SourceFile :=
  if path.extension? = some "py" then
    match Python.parse parser path text with
    | .ok parsed =>
        .ok
          { path := path
            language := "python"
            functions := parsed.functions
            bindings := parsed.imports }
    | .error failure => .error failure
  else .error (.parse path "Could not detect language")

/-- Indexes a file, unless it is too large. -/
def load (tree : FileTree) (settings : Settings.Analysis) (path : Path)
    (parser : Syntax.Parser := Python.parser) : Except Failure SourceFile := do
  let size ←
    match tree.find path with
    | .ok (_, .file content) => .ok content.length
    | .ok (_, .directory) => .ok 0
    | .error cause => .error (.io cause)
  if settings.maxFileSize < size then .error (.parse path "file exceeds maximum size limit")
  else do
    let text ← Failure.ofFile (tree.readText path)
    ofText path text parser

end SourceFile

/-- A source file under the path by which it was asked for. Paths that are written differently can
be the same, so the file may have its own path in another spelling. -/
structure IndexedFile where
  path : Path
  source : SourceFile
deriving Repr, Inhabited

/-- What became of each of some files that were to be indexed. -/
abbrev FileIndex := List (Path × Except Failure SourceFile)

namespace FileIndex

/-- The index with the result for a path set. A path that is there already is kept as it is written,
with the new result. -/
def insert (file : Path) (result : Except Failure SourceFile) : FileIndex → FileIndex
  | [] => [(file, result)]
  | (other, old) :: rest =>
      if other.same file then (other, result) :: rest
      else (other, old) :: insert file result rest

/-- The result for a path, and the index without it. -/
def remove (file : Path) : FileIndex → Option (Except Failure SourceFile) × FileIndex
  | [] => (none, [])
  | (other, result) :: rest =>
      if other.same file then (some result, rest)
      else
        let (found, left) := remove file rest
        (found, (other, result) :: left)

/-- Indexes files, each by itself. -/
def ofFiles (parser : Syntax.Parser) (tree : FileTree) (settings : Settings.Analysis)
    (files : List Path) : FileIndex :=
  files.foldl (fun index file => index.insert file (SourceFile.load tree settings file parser)) []

end FileIndex

end ChangeScope
