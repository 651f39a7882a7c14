import ChangeScope.Proofs.Import.ModuleName
import ChangeScope.Python.Grammar
import ChangeScope.Python.ImportText

/-!
# Layouts of import statements

An import statement with the gaps between its tokens: blanks and joined lines, and between
parentheses also line ends and comments. A statement is written token by token
(`ImportStatement.text`), and it binds one name for each module or member that it lists
(`ImportStatement.bindings`).
-/

set_option autoImplicit false

namespace ChangeScope.Python

open ChangeScope.Import (Binding ModuleName)
open ChangeScope.Text (IsIdentifier)

/-! ## Gaps -/

/-- The end of a line: a line feed, perhaps behind a carriage return. -/
inductive LineEnd where
  | feed
  | returnFeed
deriving DecidableEq, Repr

def LineEnd.text : LineEnd → List Char
  | .feed => ['\n']
  | .returnFeed => ['\r', '\n']

/-- What may stand between two tokens. -/
inductive Space where
  | blank (c : Char)
  /-- A backslash at the end of a line, which joins it with the next. -/
  | joined (stop : LineEnd)
  | broken (stop : LineEnd)
  | comment (text : List Char) (stop : LineEnd)
deriving DecidableEq, Repr

def Space.text : Space → List Char
  | .blank c => [c]
  | .joined stop => '\\' :: stop.text
  | .broken stop => stop.text
  | .comment text stop => '#' :: (text ++ stop.text)

/-- Line ends and comments stand between parentheses only. -/
def Space.IsAllowed (inside : Bool) : Space → Prop
  | .blank c => c = ' ' ∨ c = '\t' ∨ c = '\x0c'
  | .joined _ => True
  | .broken _ => inside = true
  | .comment text _ => inside = true ∧ '\n' ∉ text ∧ '\r' ∉ text

abbrev Gap := List Space

def Gap.text (gap : Gap) : List Char := gap.flatMap Space.text

def Gap.IsAllowed (inside : Bool) (gap : Gap) : Prop := ∀ s ∈ gap, s.IsAllowed inside

/-! ## Statements -/

/-- A name is no keyword. -/
def IsName (name : List Char) : Prop := IsIdentifier name ∧ name ∉ reserved

/-- Names with dots between them, each dot between two gaps. -/
inductive DottedText where
  | last (name : List Char)
  | more (name : List Char) (before after : Gap) (rest : DottedText)
deriving Repr

/-- The module behind `from`: names with dots in front, or dots alone. A gap stands behind each dot
that is not the last token. -/
inductive ModuleText where
  | named (names : DottedText)
  | here
  | dot (after : Gap) (rest : ModuleText)
deriving Repr

/-- A name behind `as`, with the gaps around that word. -/
structure ImportAlias where
  before : Gap
  after : Gap
  name : List Char
deriving Repr

/-- A module or a member in the list of a statement. -/
structure ImportItem (α : Type) where
  content : α
  alias? : Option ImportAlias
deriving Repr

/-- Items with commas between them, each comma between two gaps. -/
structure ImportItems (α : Type) where
  first : ImportItem α
  more : List (Gap × Gap × ImportItem α)
deriving Repr

def ImportItems.toList {α : Type} (items : ImportItems α) : List (ImportItem α) :=
  items.first :: items.more.map fun m => m.2.2

/-- What stands behind the `import` of a `from` statement, with the gap in front of it. -/
inductive ImportNames where
  | all (gap : Gap)
  | listed (gap : Gap) (items : ImportItems (List Char))
  /-- Between parentheses, perhaps with a comma behind the last name. -/
  | enclosed (outside inside : Gap) (items : ImportItems (List Char)) (comma : Option Gap)
      (behind : Gap)
deriving Repr

inductive ImportStatement where
  | modules (gap : Gap) (items : ImportItems DottedText)
  | members (start : Gap) (module : ModuleText) (middle : Gap) (names : ImportNames)
deriving Repr

/-! ## Writing

Statements are written with a text for each gap and for the two parentheses. -/

section Writing

variable (gap : Gap → List Char)

def DottedText.write : DottedText → List Char
  | .last name => name
  | .more name before after rest => name ++ (gap before ++ '.' :: (gap after ++ rest.write))

def ModuleText.write : ModuleText → List Char
  | .named names => names.write gap
  | .here => ['.']
  | .dot after rest => '.' :: (gap after ++ rest.write)

def ImportAlias.write (a : ImportAlias) : List Char :=
  gap a.before ++ ("as".toList ++ (gap a.after ++ a.name))

def ImportItem.write {α : Type} (content : α → List Char) (item : ImportItem α) : List Char :=
  content item.content ++ (item.alias?.map (ImportAlias.write gap)).getD []

def ImportItems.write {α : Type} (content : α → List Char) (items : ImportItems α) : List Char :=
  items.first.write gap content ++ items.more.flatMap fun m =>
    gap m.1 ++ ',' :: (gap m.2.1 ++ m.2.2.write gap content)

def ImportNames.write (opening closing : Char) : ImportNames → List Char
  | .all g => gap g ++ ['*']
  | .listed g items => gap g ++ items.write gap id
  | .enclosed outside inside items comma behind =>
      gap outside ++ opening :: (gap inside ++ (items.write gap id ++
        ((comma.map fun g => gap g ++ [',']).getD [] ++ (gap behind ++ [closing]))))

def ImportStatement.write (opening closing : Char) : ImportStatement → List Char
  | .modules g items => "import".toList ++ (gap g ++ items.write gap (DottedText.write gap))
  | .members start module middle names =>
      "from".toList ++ (gap start ++ (module.write gap ++ (gap middle ++
        ("import".toList ++ names.write gap opening closing))))

end Writing

/-- The statement as written. -/
def ImportStatement.text (s : ImportStatement) : List Char := s.write Gap.text '(' ')'

/-! ## Grammar -/

def DottedText.IsLegal : DottedText → Prop
  | .last name => IsName name
  | .more name before after rest =>
      IsName name ∧ before.IsAllowed false ∧ after.IsAllowed false ∧ rest.IsLegal

def ModuleText.IsLegal : ModuleText → Prop
  | .named names => names.IsLegal
  | .here => True
  | .dot after rest => after.IsAllowed false ∧ rest.IsLegal

/-- The first token is a name. -/
def ModuleText.StartsNamed : ModuleText → Prop
  | .named _ => True
  | .here | .dot _ _ => False

/-- The last token is a name. -/
def ModuleText.EndsNamed : ModuleText → Prop
  | .named _ => True
  | .here => False
  | .dot _ rest => rest.EndsNamed

structure ImportAlias.IsLegal (inside : Bool) (a : ImportAlias) : Prop where
  before_ne : a.before ≠ []
  before : a.before.IsAllowed inside
  after_ne : a.after ≠ []
  after : a.after.IsAllowed inside
  name : IsName a.name

def ImportItem.IsLegal {α : Type} (inside : Bool) (content : α → Prop) (item : ImportItem α) :
    Prop :=
  content item.content ∧ ∀ a ∈ item.alias?, a.IsLegal inside

def ImportItems.IsLegal {α : Type} (inside : Bool) (content : α → Prop) (items : ImportItems α) :
    Prop :=
  items.first.IsLegal inside content ∧
    ∀ m ∈ items.more,
      m.1.IsAllowed inside ∧ m.2.1.IsAllowed inside ∧ m.2.2.IsLegal inside content

def ImportNames.IsLegal : ImportNames → Prop
  | .all g => g.IsAllowed false
  | .listed g items => g ≠ [] ∧ g.IsAllowed false ∧ items.IsLegal false IsName
  | .enclosed outside inside items comma behind =>
      outside.IsAllowed false ∧ inside.IsAllowed true ∧ items.IsLegal true IsName ∧
        (∀ g ∈ comma, g.IsAllowed true) ∧ behind.IsAllowed true

/-- Words that follow each other have a gap between them, and gaps have what is allowed there. -/
def ImportStatement.IsLegal : ImportStatement → Prop
  | .modules g items => g ≠ [] ∧ g.IsAllowed false ∧ items.IsLegal false DottedText.IsLegal
  | .members start module middle names =>
      start.IsAllowed false ∧ (module.StartsNamed → start ≠ []) ∧ module.IsLegal ∧
        middle.IsAllowed false ∧ (module.EndsNamed → middle ≠ []) ∧ names.IsLegal

/-! Legality can be computed. -/

section Decidable

variable {α : Type} {inside : Bool} {content : α → Prop} [DecidablePred content]

instance : DecidablePred (Space.IsAllowed inside)
  | .blank c => inferInstanceAs (Decidable (c = ' ' ∨ c = '\t' ∨ c = '\x0c'))
  | .joined _ => isTrue trivial
  | .broken _ => inferInstanceAs (Decidable (inside = true))
  | .comment text _ => inferInstanceAs (Decidable (inside = true ∧ '\n' ∉ text ∧ '\r' ∉ text))

instance : DecidablePred (Gap.IsAllowed inside) := fun gap =>
  inferInstanceAs (Decidable (∀ s ∈ gap, s.IsAllowed inside))

instance : DecidablePred IsName := fun name =>
  inferInstanceAs (Decidable (IsIdentifier name ∧ name ∉ reserved))

def DottedText.decideLegal : (d : DottedText) → Decidable d.IsLegal
  | .last name => inferInstanceAs (Decidable (IsName name))
  | .more name before after rest =>
      have := rest.decideLegal
      inferInstanceAs (Decidable (IsName name ∧ before.IsAllowed false ∧ after.IsAllowed false ∧
        rest.IsLegal))

instance : DecidablePred DottedText.IsLegal := DottedText.decideLegal

def ModuleText.decideLegal : (m : ModuleText) → Decidable m.IsLegal
  | .named names => inferInstanceAs (Decidable names.IsLegal)
  | .here => isTrue trivial
  | .dot after rest =>
      have := rest.decideLegal
      inferInstanceAs (Decidable (after.IsAllowed false ∧ rest.IsLegal))

instance : DecidablePred ModuleText.IsLegal := ModuleText.decideLegal

instance : DecidablePred ModuleText.StartsNamed
  | .named _ => isTrue trivial
  | .here | .dot _ _ => isFalse id

def ModuleText.decideEndsNamed : (m : ModuleText) → Decidable m.EndsNamed
  | .named _ => isTrue trivial
  | .here => isFalse id
  | .dot _ rest => rest.decideEndsNamed

instance : DecidablePred ModuleText.EndsNamed := ModuleText.decideEndsNamed

instance : DecidablePred (ImportAlias.IsLegal inside) := fun a =>
  decidable_of_iff (a.before ≠ [] ∧ a.before.IsAllowed inside ∧ a.after ≠ [] ∧
      a.after.IsAllowed inside ∧ IsName a.name)
    ⟨fun ⟨hb, hb', ha, ha', hn⟩ => ⟨hb, hb', ha, ha', hn⟩,
      fun ⟨hb, hb', ha, ha', hn⟩ => ⟨hb, hb', ha, ha', hn⟩⟩

instance : DecidablePred (ImportItem.IsLegal inside content) := fun item =>
  inferInstanceAs (Decidable (content item.content ∧ ∀ a ∈ item.alias?, a.IsLegal inside))

instance : DecidablePred (ImportItems.IsLegal inside content) := fun items =>
  inferInstanceAs (Decidable (items.first.IsLegal inside content ∧ ∀ m ∈ items.more,
    m.1.IsAllowed inside ∧ m.2.1.IsAllowed inside ∧ m.2.2.IsLegal inside content))

instance : DecidablePred ImportNames.IsLegal
  | .all g => inferInstanceAs (Decidable (g.IsAllowed false))
  | .listed g items =>
      inferInstanceAs (Decidable (g ≠ [] ∧ g.IsAllowed false ∧ items.IsLegal false IsName))
  | .enclosed outside inside items comma behind =>
      inferInstanceAs (Decidable (outside.IsAllowed false ∧ inside.IsAllowed true ∧
        items.IsLegal true IsName ∧ (∀ g ∈ comma, g.IsAllowed true) ∧ behind.IsAllowed true))

instance : DecidablePred ImportStatement.IsLegal
  | .modules g items => inferInstanceAs (Decidable (g ≠ [] ∧ g.IsAllowed false ∧
      items.IsLegal false DottedText.IsLegal))
  | .members start module middle names =>
      inferInstanceAs (Decidable (start.IsAllowed false ∧ (module.StartsNamed → start ≠ []) ∧
        module.IsLegal ∧ middle.IsAllowed false ∧ (module.EndsNamed → middle ≠ []) ∧
        names.IsLegal))

end Decidable

/-! ## Bindings -/

def DottedText.names : DottedText → List (List Char)
  | .last name => [name]
  | .more name _ _ rest => name :: rest.names

/-- The first name. -/
def DottedText.top : DottedText → List Char
  | .last name => name
  | .more name _ _ _ => name

/-- The module without gaps. -/
def ModuleText.name : ModuleText → ModuleName
  | .named names => ⟨0, names.names⟩
  | .here => ⟨1, []⟩
  | .dot _ rest => ⟨rest.name.dots + 1, rest.name.names⟩

def ImportNames.items : ImportNames → List (ImportItem (List Char))
  | .all _ => []
  | .listed _ items => items.toList
  | .enclosed _ _ items _ _ => items.toList

/-- The binding of a module: under its alias, else its top package. -/
def ImportItem.moduleBinding (line : Nat) (item : ImportItem DottedText) : Binding :=
  match item.alias? with
  | some a => ⟨String.ofList a.name, ModuleName.text ⟨0, item.content.names⟩, none, line⟩
  | none => ⟨String.ofList item.content.top, String.ofList item.content.top, none, line⟩

/-- The binding of a member of a module: under its alias, else its own name. -/
def ImportItem.memberBinding (module : String) (line : Nat) (item : ImportItem (List Char)) :
    Binding :=
  ⟨String.ofList ((item.alias?.map ImportAlias.name).getD item.content), module,
    some (String.ofList item.content), line⟩

/-- The names that the statement binds, in order. A star binds none that is known. -/
def ImportStatement.bindings (line : Nat) : ImportStatement → List Binding
  | .modules _ items => items.toList.map (ImportItem.moduleBinding line)
  | .members _ module _ names => names.items.map (ImportItem.memberBinding module.name.text line)

/-! ## Layouts that are read -/

/-- A gap item that counts as a space when a statement is read: all but tabs and form feeds. -/
def Space.isSpace : Space → Bool
  | .blank c => c == ' '
  | _ => true

/-- No gap stands between the tokens. -/
def DottedText.IsTight : DottedText → Prop
  | .last _ => True
  | .more _ before after rest => before = [] ∧ after = [] ∧ rest.IsTight

def ModuleText.IsTight : ModuleText → Prop
  | .named names => names.IsTight
  | .here => True
  | .dot after rest => after = [] ∧ rest.IsTight

/-- A space, or the parenthesis, stands behind the word `import`. -/
def ImportNames.OpensPlain : ImportNames → Prop
  | .all g => g.head?.any Space.isSpace = true
  | .listed g _ => g.head?.any Space.isSpace = true
  | .enclosed outside _ _ _ _ => outside = [] ∨ outside.head?.any Space.isSpace = true

/-- Spaces stand around the words `import` and `from`, and no gap in a module that is bound as a
whole. -/
def ImportStatement.IsPlain : ImportStatement → Prop
  | .modules g items =>
      g.head?.any Space.isSpace = true ∧
        ∀ item ∈ items.toList, item.alias? ≠ none → item.content.IsTight
  | .members start module middle names =>
      names.items = [] ∨
        (start.head?.any Space.isSpace = true ∧ module.IsTight ∧
          middle.getLast?.any Space.isSpace = true ∧ names.OpensPlain)

end ChangeScope.Python
