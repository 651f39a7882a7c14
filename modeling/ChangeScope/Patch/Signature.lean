import ChangeScope.Text
import ChangeScope.Text.Letter

/-!
# Signature lines

A signature line holds a whole `def` line: the name, the parameters up to the last parenthesis
that can close them, perhaps a result, and a colon at the end. Its plain form leaves out the
annotations and single spaces stand for all white space.
-/

set_option autoImplicit false

namespace ChangeScope.Patch

/-- The name and the parameters that a signature line gives. -/
structure Signature where
  name : List Char
  params : List Char
deriving DecidableEq, Repr

/-- The text ends with a colon and white space; gives what stands before. -/
private def dropColon? (cs : List Char) : Option (List Char) :=
  Text.dropEnding? [':'] (Text.trimEnd cs)

/-- What may follow the parameters: a result or nothing, and the colon. -/
def closesSignature (after : List Char) : Bool :=
  match Text.trimStart after with
  | '-' :: '>' :: rest =>
      match dropColon? rest with
      | some result => !(Text.trimStart result).contains '\n'
      | none => false
  | rest =>
      match dropColon? rest with
      | some gap => gap.isEmpty
      | none => false

/-- The parameters: the text before the last parenthesis of the line that can close them. -/
def paramsOf? : List Char → Option (List Char)
  | [] => none
  | '\n' :: _ => none
  | c :: rest =>
      match paramsOf? rest with
      | some params => some (c :: params)
      | none => if c = ')' && closesSignature rest then some [] else none

/-- The text after a word and the white space that must follow it. -/
private def dropWord? (word cs : List Char) : Option (List Char) :=
  (word.isPrefixOf? cs).bind fun rest =>
    match rest with
    | c :: _ => if Text.isBlank c then some (Text.trimStart rest) else none
    | [] => none

/-- Reads a signature line. -/
def signature? (line : List Char) : Option Signature := do
  let start := Text.trimStart line
  let start := (dropWord? "async".toList start).getD start
  let rest ← dropWord? "def".toList start
  let name := rest.takeWhile Text.isWord
  if name.head?.any fun c => Text.isAsciiLetter c || c == '_' then
    match Text.trimStart (rest.drop name.length) with
    | '(' :: after => (paramsOf? after).map fun params => ⟨name, params⟩
    | _ => none
  else none

private theorem head?_of_dropWord? {c : Char} {word cs rest : List Char}
    (h : dropWord? (c :: word) cs = some rest) : cs.head? = some c := by
  obtain ⟨after, hafter, -⟩ := Option.bind_eq_some_iff.mp h
  cases cs with
  | nil => cases hafter
  | cons d cs =>
      change (if c == d then word.isPrefixOf? cs else none) = some after at hafter
      split at hafter
      · next heq => rw [beq_iff_eq.mp heq]; rfl
      · cases hafter

/-- A signature line begins with `async` or `def`. -/
theorem head?_of_signature? {line : List Char} {s : Signature} (h : signature? line = some s) :
    (Text.trimStart line).head? = some 'a' ∨ (Text.trimStart line).head? = some 'd' := by
  obtain ⟨rest, hrest, -⟩ := Option.bind_eq_some_iff.mp h
  cases hasync : dropWord? "async".toList (Text.trimStart line) with
  | some after => exact .inl (head?_of_dropWord? hasync)
  | none =>
      rw [hasync] at hrest
      exact .inr (head?_of_dropWord? hrest)

/-- A character that can stand in an annotation. -/
def isAnnotationPart (c : Char) : Bool := c != ',' && c != '=' && c != ')' && c != ']'

/-- The text after an annotation at the beginning: white space, a colon, and all that can stand
in an annotation. -/
def dropAnnotation? (cs : List Char) : Option (List Char) :=
  match cs.dropWhile Text.isBlank with
  | ':' :: c :: rest =>
      if isAnnotationPart c then some (rest.dropWhile isAnnotationPart) else none
  | _ => none

private theorem length_dropWhile_le {α : Type} (p : α → Bool) (l : List α) :
    (l.dropWhile p).length ≤ l.length := by
  induction l with
  | nil => simp
  | cons x rest ih =>
      rw [List.dropWhile_cons]
      split
      · exact Nat.le_succ_of_le ih
      · exact Nat.le_refl _

theorem length_of_dropAnnotation? {cs rest : List Char} (h : dropAnnotation? cs = some rest) :
    rest.length < cs.length := by
  unfold dropAnnotation? at h
  split at h
  · next c tail heq =>
      split at h
      · have hle := length_dropWhile_le Text.isBlank cs
        have hle' := length_dropWhile_le isAnnotationPart tail
        rw [heq] at hle
        cases h
        simp only [List.length_cons] at hle
        omega
      · cases h
  · cases h

/-- The parameters without their annotations. -/
def dropAnnotations (cs : List Char) : List Char :=
  match _h : dropAnnotation? cs with
  | some rest => dropAnnotations rest
  | none =>
      match cs with
      | [] => []
      | c :: rest => c :: dropAnnotations rest
termination_by cs.length
decreasing_by
  · exact length_of_dropAnnotation? _h
  · simp

/-- The plain form of a signature. -/
def Signature.plain (s : Signature) : List Char :=
  "def ".toList ++ s.name ++ '(' :: Text.join [' '] (Text.words (dropAnnotations s.params)) ++ [')']

end ChangeScope.Patch
