import ChangeScope.Binary64

/-!
# TOML values

What a TOML document can hold. Dates and times are kept as they are written.
-/

set_option autoImplicit false

namespace ChangeScope

/-- A TOML value. -/
inductive Toml where
  | string (value : String)
  | integer (value : Int)
  | float (value : Binary64)
  | boolean (value : Bool)
  | moment (text : String)
  | array (items : List Toml)
  | table (members : List (String × Toml))
deriving Inhabited, BEq, Repr

namespace Toml

/-- Integers have 64 bits and a sign. -/
def inRange (n : Int) : Bool := -0x8000000000000000 ≤ n && n < 0x8000000000000000

end Toml

end ChangeScope
