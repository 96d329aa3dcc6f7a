/-! # Edit distance

The least number of items to insert, drop or change that turns one list into another.
`distance` goes through the first list and keeps, for the items so far, the distances to all
beginnings of the second list, the empty one first.
-/
namespace FormulaFold.Text

/-- The distances after one more item `x`, from those before it.  `left` is the distance to the
beginning that ends before the first of the given items. -/
def nextDistances {α : Type} [DecidableEq α] (x : α) : (left : Nat) → List α → List Nat → List Nat
  | left, y :: ys, corner :: above :: more =>
    let here := if x = y then corner else min corner (min above left) + 1
    here :: nextDistances x here ys (above :: more)
  | _, _, _ => []

/-- The least number of items to insert, drop or change. -/
def distance {α : Type} [DecidableEq α] (xs ys : List α) : Nat :=
  let step (before : List Nat) (x : α) : List Nat :=
    let left := before.headD 0 + 1
    left :: nextDistances x left ys before
  (xs.foldl step (List.range (ys.length + 1))).getLastD 0

end FormulaFold.Text
