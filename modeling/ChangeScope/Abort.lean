/-!
# Aborted runs

The two situations in which a run ends without an answer or a failure.
-/

set_option autoImplicit false

namespace ChangeScope

/-- Why a run ends without an answer. -/
inductive Abort where
  /-- A text is cut inside a character. -/
  | cutCharacter
  /-- A range of lines is asked for that starts after its end. -/
  | invertedRange
deriving DecidableEq, Repr

end ChangeScope
