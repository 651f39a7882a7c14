import ChangeScope.Text.Letter
import ChangeScope.Toml.Draft
import ChangeScope.Toml.Quoted
import ChangeScope.Toml.Scalar

/-!
# TOML documents

A document is a sequence of statements: a key with a value, the header of a table, or the header
of one more table of an array. Arrays may go over several lines and hold comments; inline tables
stay on one line. Arrays and inline tables are nested less than 80 deep, and a key has fewer than
80 parts.
-/

set_option autoImplicit false

namespace ChangeScope.Toml

/-! ## Keys -/

/-- The bound on the nesting of values and on the parts of a key. -/
def nestingLimit : Nat := 80

/-- A character of a key without quotes. -/
def isBare (c : Char) : Bool :=
  Text.isAsciiDigit c || Text.isAsciiLetter c || c == '_' || c == '-'

/-- One part of a key. -/
def readKeyPart (cs : List Char) : Option (String × List Char) :=
  match cs with
  | '"' :: rest => (readBasic rest).map fun (s, rest) => (String.ofList s, rest)
  | '\'' :: rest => (readLiteral rest).map fun (s, rest) => (String.ofList s, rest)
  | cs =>
      let bare := cs.takeWhile isBare
      if bare.isEmpty then none else some (String.ofList bare, cs.dropWhile isBare)

/-- At most `limit` parts of a key with dots between them, white space around each. -/
def readParts : Nat → List Char → Option (List String × List Char)
  | 0, _ => none
  | limit + 1, cs =>
      (readKeyPart (cs.dropWhile isSpace)).bind fun (part, rest) =>
        match rest.dropWhile isSpace with
        | '.' :: rest => (readParts limit rest).map fun (parts, rest) => (part :: parts, rest)
        | rest => some ([part], rest)

/-- A key as its parts before the last one, and the last one. -/
def readKey (cs : List Char) : Option ((List String × String) × List Char) :=
  (readParts (nestingLimit - 1) cs).bind fun (parts, rest) =>
    parts.getLast?.map fun last => ((parts.dropLast, last), rest)

/-! ## Ends of lines -/

/-- Drops a comment up to the end of its line. -/
def skipComment : List Char → List Char
  | '#' :: rest => rest.dropWhile isPlain
  | cs => cs

/-- The text after the rest of a line, which may hold white space and a comment. -/
def endLine? (cs : List Char) : Option (List Char) :=
  match skipComment (cs.dropWhile isSpace) with
  | [] => some []
  | rest => newline? rest

/-- Drops white space, ends of lines and comments; `fuel` bounds the number of comments. -/
def skipFiller : Nat → List Char → List Char
  | 0, cs => cs
  | fuel + 1, cs =>
      match skipBlank cs with
      | '#' :: rest => skipFiller fuel (rest.dropWhile isPlain)
      | rest => rest

/-! ## Values -/

mutual

/-- A value; arrays and tables in it may be nested `depth` deep. -/
def readValue : Nat → Nat → List Char → Option (Toml × List Char)
  | 0, _, _ => none
  | fuel + 1, depth, cs =>
      match cs with
      | '"' :: _ => (readString cs).map fun (s, rest) => (.string (String.ofList s), rest)
      | '\'' :: _ => (readString cs).map fun (s, rest) => (.string (String.ofList s), rest)
      | '[' :: rest =>
          match depth with
          | 0 => none
          | depth + 1 =>
              (readItems fuel depth rest).map fun (items, rest) => (.array items, rest)
      | '\x7b' :: rest =>
          match depth with
          | 0 => none
          | depth + 1 =>
              match rest.dropWhile isSpace with
              | '\x7d' :: rest => some (.table [], rest)
              | _ =>
                  (readMembers fuel depth [] rest).map fun (members, rest) =>
                    (.table (Draft.finishMembers members), rest)
      | cs => readScalar cs

/-- The items of an array after its bracket or a comma. -/
def readItems : Nat → Nat → List Char → Option (List Toml × List Char)
  | 0, _, _ => none
  | fuel + 1, depth, cs =>
      match skipFiller cs.length cs with
      | ']' :: rest => some ([], rest)
      | cs =>
          (readValue fuel depth cs).bind fun (item, rest) =>
            match skipFiller rest.length rest with
            | ']' :: rest => some ([item], rest)
            | ',' :: rest =>
                (readItems fuel depth rest).map fun (items, rest) => (item :: items, rest)
            | _ => none

/-- The members of an inline table after its brace or a comma, added to those before. -/
def readMembers : Nat → Nat → Draft.Members → List Char → Option (Draft.Members × List Char)
  | 0, _, _, _ => none
  | fuel + 1, depth, members, cs =>
      (readKey cs).bind fun ((path, key), rest) =>
        match rest with
        | '=' :: rest =>
            (readValue fuel depth (rest.dropWhile isSpace)).bind fun (value, rest) =>
              (Draft.setValue path key value members).bind fun members =>
                match rest.dropWhile isSpace with
                | '\x7d' :: rest => some (members, rest)
                | ',' :: rest => readMembers fuel depth members rest
                | _ => none
        | _ => none

end

/-! ## Statements -/

/-- A statement of a document; a key is given by the parts before the last one and the last
one. -/
inductive Statement where
  | pair (path : List String) (key : String) (value : Toml)
  | header (path : List String) (key : String)
  | element (path : List String) (key : String)
deriving Inhabited

/-- A key and a value. -/
def readPair (cs : List Char) : Option (Statement × List Char) :=
  (readKey cs).bind fun ((path, key), rest) =>
    match rest with
    | '=' :: rest =>
        (readValue (2 * rest.length + 2) (nestingLimit - 1) (rest.dropWhile isSpace)).map
          fun (value, rest) => (.pair path key value, rest)
    | _ => none

/-- A statement, up to the rest of its line. -/
def readStatement : List Char → Option (Statement × List Char)
  | '[' :: '[' :: rest =>
      (readKey rest).bind fun ((path, key), rest) =>
        match rest with
        | ']' :: ']' :: rest => some (.element path key, rest)
        | _ => none
  | '[' :: rest =>
      (readKey rest).bind fun ((path, key), rest) =>
        match rest with
        | ']' :: rest => some (.header path key, rest)
        | _ => none
  | cs => readPair cs

/-- The statements of a document; `fuel` bounds their number. -/
def readStatements : Nat → List Char → Option (List Statement)
  | 0, _ => none
  | fuel + 1, cs =>
      match skipBlank cs with
      | [] => some []
      | '#' :: rest => (endLine? ('#' :: rest)).bind (readStatements fuel)
      | cs =>
          (readStatement cs).bind fun (statement, rest) =>
            (endLine? rest).bind fun rest =>
              (readStatements fuel rest).map (statement :: ·)

/-! ## Building the tables -/

/-- The tables read so far, and the table that the next keys belong to. -/
structure Progress where
  root : Draft.Members
  path : List String
deriving Inhabited

/-- Takes a statement into account. -/
def Progress.step (p : Progress) : Statement → Option Progress
  | .pair path key value =>
      (Draft.alter false (fun _ members => Draft.setValue path key value members) .defined p.path
        p.root).map fun root => { p with root := root }
  | .header path key =>
      (Draft.alter false (fun _ members => Draft.openTable key members) .defined path p.root).map
        fun root => ⟨root, path ++ [key]⟩
  | .element path key =>
      (Draft.alter false (fun _ members => Draft.openElement key members) .defined path
        p.root).map fun root => ⟨root, path ++ [key]⟩

/-- The table that some statements describe. -/
def ofStatements (statements : List Statement) : Option (List (String × Toml)) :=
  (statements.foldlM Progress.step ⟨[], []⟩).map fun p => Draft.finishMembers p.root

/-- Drops a byte order mark. -/
def skipMark : List Char → List Char
  | '\uFEFF' :: rest => rest
  | cs => cs

/-- The top table of a document. -/
def ofText (text : List Char) : Option Toml :=
  (readStatements (text.length + 1) (skipMark text)).bind fun statements =>
    (ofStatements statements).map .table

end ChangeScope.Toml
