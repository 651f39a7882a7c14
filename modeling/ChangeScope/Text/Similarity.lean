/-!
# Similarity of lists

Two lists are compared by the length of their longest common subsequence. The table is computed
row by row; the entry of a row at a position is the answer for the items before it.
-/

set_option autoImplicit false

namespace ChangeScope.Text

variable {α : Type} [DecidableEq α]

/-- The rest of the row for one more item `x`: `above` is the rest of the row before, beginning
with the entry above to the left, and `left` is the entry to the left. -/
def rowAfter (x : α) : List α → List Nat → Nat → List Nat
  | y :: ys, corner :: up :: above, left =>
      let entry := if x = y then corner + 1 else max left up
      entry :: rowAfter x ys (up :: above) entry
  | _, _, _ => []

/-- The row for one more item. -/
def nextRow (b : List α) (row : List Nat) (x : α) : List Nat := 0 :: rowAfter x b row 0

/-- The last row of the table. -/
def lastRow (a b : List α) : List Nat :=
  a.foldl (nextRow b) (List.replicate (b.length + 1) 0)

/-- The length of the longest common subsequence. -/
def commonLength (a b : List α) : Nat := (lastRow a b).getLast?.getD 0

/-- Twice the common length over the sum of the lengths; 1 for two empty lists. -/
def similarity (a b : List α) : Rat :=
  if a.isEmpty && b.isEmpty then 1
  else (2 * commonLength a b : Nat) / (a.length + b.length : Nat)

end ChangeScope.Text
