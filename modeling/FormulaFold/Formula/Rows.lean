/-! # Rows and columns of element lists

A table is a list of elements in row-major order.  `rowsOf` cuts it into rows, `columnsOf` turns
rows into columns.
-/
namespace FormulaFold

variable {α : Type}

/-- The full rows of the given width, at most `n` of them. -/
def rowsOf (width : Nat) : (n : Nat) → List α → List (List α)
  | 0, _ => []
  | n + 1, elements =>
    if elements.length < width then []
    else elements.take width :: rowsOf width n (elements.drop width)

/-- The columns of a list of rows of the given width. -/
def columnsOf (width : Nat) (rows : List (List α)) : List (List α) :=
  (List.range width).map fun i => rows.filterMap (·[i]?)

end FormulaFold
