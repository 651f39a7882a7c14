import ChangeScope.Python.Token

/-!
# Parsing expressions over tokens

A grammar gives each rule a parsing expression: alternatives are tried in order and the first that
fits is taken. Running an expression gives the tokens after what it takes.
-/

set_option autoImplicit false

namespace ChangeScope.Python

/-- A parsing expression with rules named by `R`. -/
inductive Peg (R : Type) where
  /-- One token of a class. -/
  | token (accepts : Token → Bool)
  | empty
  | seq (first second : Peg R)
  /-- The first that fits. -/
  | alt (first second : Peg R)
  /-- As often as it fits, also never. -/
  | many (item : Peg R)
  /-- Takes nothing, where the other does not fit. -/
  | unless (other : Peg R)
  | rule (name : R)

namespace Peg

variable {R : Type}

/-- All in a row. -/
def all : List (Peg R) → Peg R
  | [] => .empty
  | [item] => item
  | item :: rest => .seq item (all rest)

/-- The first of several that fits. -/
def any : List (Peg R) → Peg R
  | [] => .token fun _ => false
  | [item] => item
  | item :: rest => .alt item (any rest)

/-- If it fits. -/
def opt (item : Peg R) : Peg R := .alt item .empty

/-- Takes nothing, where the other fits. -/
def ahead (other : Peg R) : Peg R := .unless (.unless other)

/-- This word or mark. -/
def word (text : String) : Peg R :=
  let chars := text.toList
  .token fun t => (t.kind = .mark || t.kind = .name) && t.text = chars

/-- One of some words or marks. -/
def words (texts : List String) : Peg R :=
  let all := texts.map String.toList
  .token fun t => (t.kind = .mark || t.kind = .name) && all.contains t.text

/-- At least one, with separators between them. -/
def sepBy (item separator : Peg R) : Peg R := .seq item (.many (.seq separator item))

/-- At least one, with commas between them and perhaps one more at the end. -/
def commaList (item : Peg R) : Peg R := .seq (sepBy item (word ",")) (opt (word ","))

/-- Runs an expression: the tokens after what it takes, or none where it does not fit. The first
argument bounds the depth. -/
def run (grammar : R → Peg R) : Nat → Peg R → List Token → Option (List Token)
  | 0, _, _ => none
  | _ + 1, .empty, ts => some ts
  | _ + 1, .token _, [] => none
  | _ + 1, .token accepts, t :: ts => if accepts t then some ts else none
  | depth + 1, .seq a b, ts =>
      match run grammar depth a ts with
      | some rest => run grammar depth b rest
      | none => none
  | depth + 1, .alt a b, ts =>
      match run grammar depth a ts with
      | some rest => some rest
      | none => run grammar depth b ts
  | depth + 1, .many item, ts =>
      match run grammar depth item ts with
      | some rest => run grammar depth (.many item) rest
      | none => some ts
  | depth + 1, .unless other, ts =>
      match run grammar depth other ts with
      | some _ => none
      | none => some ts
  | depth + 1, .rule name, ts => run grammar depth (grammar name) ts

/-- Depth enough for an expression over some tokens: a bounded number of levels for each token. -/
def depthFor (ts : List Token) : Nat := 300 * (ts.length + 4)

end Peg

end ChangeScope.Python
