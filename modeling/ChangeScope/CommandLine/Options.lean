import ChangeScope.Ordered
import ChangeScope.Text

/-!
# Options

The options at the beginning of an argument list. A long name follows two hyphens and takes its
value after `=` or from the next argument. A short name is one letter after one hyphen; short names
of options without values can stand together, and a value may follow its letter directly or after
`=`. A value of its own does not begin with a hyphen, unless it is nothing else. Each option is
given once at most.
-/

set_option autoImplicit false

namespace ChangeScope.CommandLine

/-- Why the arguments give nothing to do. -/
inductive Halt where
  /-- The arguments are wrong. -/
  | misuse
  /-- Help is asked for. -/
  | help
  /-- The version is asked for. -/
  | version
deriving DecidableEq, Repr

/-- What an option takes. -/
inductive Kind where
  /-- No value. -/
  | flag
  /-- Any text. -/
  | text
  /-- A text that is not empty. -/
  | path
  /-- A number of 64 bits. -/
  | number
  /-- No value; nothing after it is read. -/
  | halting (halt : Halt)
deriving DecidableEq, Repr

/-- The option takes a value. -/
def Kind.takesValue : Kind → Bool
  | .flag => false
  | .halting _ => false
  | _ => true

/-- An option: its long name, its letter if it has one, and what it takes. -/
structure OptionSpec where
  name : String
  letter : Option Char := none
  kind : Kind
deriving DecidableEq, Repr

/-- The options that were given, by long name, with their values. -/
abbrev Given := List (String × String)

/-- The value is one that the option takes. -/
def Kind.accepts (kind : Kind) (value : String) : Bool :=
  match kind with
  | .path => !value.isEmpty
  | .number => (Text.natural? value.toList).isSome
  | _ => true

/-- Notes an option with its value, which is empty for a flag. -/
def give (given : Given) (option : OptionSpec) (value : String) : Except Halt Given :=
  match option.kind with
  | .halting halt => .error halt
  | kind =>
      if (given.lookup option.name).isSome || !kind.accepts value then .error .misuse
      else .ok (given ++ [(option.name, value)])

/-- Reads letters that stand together. If the last one takes a value and none follows it, the
option still waits for its value. -/
def readLetters (options : List OptionSpec) (given : Given) :
    List Char → Except Halt (Given × Option OptionSpec)
  | [] => .ok (given, none)
  | c :: rest =>
      match options.find? (·.letter == some c) with
      | none => .error .misuse
      | some option =>
          if option.kind.takesValue then
            match rest with
            | [] => .ok (given, some option)
            | '=' :: value => (give given option (String.ofList value)).map fun g => (g, none)
            | value => (give given option (String.ofList value)).map fun g => (g, none)
          else
            match give given option "" with
            | .error halt => .error halt
            | .ok given => readLetters options given rest

/-- Reads a long name, with its value if that follows after `=`. -/
def readLong (options : List OptionSpec) (given : Given) (text : List Char) :
    Except Halt (Given × Option OptionSpec) :=
  let name := text.takeWhile (· != '=')
  match options.find? (·.name.toList == name) with
  | none => .error .misuse
  | some option =>
      match text.dropWhile (· != '=') with
      | _ :: value =>
          if option.kind.takesValue then
            (give given option (String.ofList value)).map fun g => (g, none)
          else .error .misuse
      | [] =>
          if option.kind.takesValue then .ok (given, some option)
          else (give given option "").map fun g => (g, none)

/-! ## Argument lists -/

/-- What an argument is by its first characters. -/
inductive Shape where
  /-- Two hyphens and nothing else. -/
  | ending
  /-- A long name, perhaps with a value. -/
  | long (text : List Char)
  /-- Letters after a hyphen. -/
  | letters (text : List Char)
  /-- Anything else. -/
  | plain
deriving DecidableEq, Repr

/-- The shape of an argument. -/
def shapeOf (argument : String) : Shape :=
  match argument.toList with
  | ['-', '-'] => .ending
  | '-' :: '-' :: text => .long text
  | '-' :: c :: text => .letters (c :: text)
  | _ => .plain

/-- What the options at the beginning of an argument list come to. -/
structure Reading where
  given : Given
  /-- The arguments after the options. -/
  rest : List String
  /-- The options were ended by two hyphens. -/
  ended : Bool
deriving DecidableEq, Repr

/-- Reads the options of an argument list up to the first argument that is none. -/
def readOptions (options : List OptionSpec) (given : Given) : List String → Except Halt Reading
  | [] => .ok ⟨given, [], false⟩
  | argument :: rest => do
      match shapeOf argument with
      | .ending => .ok ⟨given, rest, true⟩
      | .plain => .ok ⟨given, argument :: rest, false⟩
      | .long text => continueWith (← readLong options given text) rest
      | .letters text => continueWith (← readLetters options given text) rest
where
  /-- Goes on after an option, which may wait for the next argument as its value. -/
  continueWith : Given × Option OptionSpec → List String → Except Halt Reading
    | (given, none), rest => readOptions options given rest
    | (_, some _), [] => .error .misuse
    | (given, some option), value :: rest =>
        if shapeOf value != .plain then .error .misuse
        else do
          let given ← give given option value
          readOptions options given rest

end ChangeScope.CommandLine
