/-!
# Tables of code points

A class of characters as a sorted table of closed ranges of code points, searched by halving.
-/

set_option autoImplicit false

namespace ChangeScope.Text

/-- Some range between two indices of a sorted table holds the number; each step halves the
distance between the indices. -/
def inRanges (table : Array (Nat × Nat)) (n : Nat) : Nat → Nat → Nat → Bool
  | 0, _, _ => false
  | steps + 1, lo, hi =>
      if lo < hi then
        let mid := (lo + hi) / 2
        match table[mid]? with
        | none => false
        | some (first, last) =>
            if n < first then inRanges table n steps lo mid
            else if last < n then inRanges table n steps (mid + 1) hi
            else true
      else
        false

/-- The table holds the character. -/
def inTable (table : Array (Nat × Nat)) (c : Char) : Bool :=
  inRanges table c.toNat 32 0 table.size

end ChangeScope.Text
