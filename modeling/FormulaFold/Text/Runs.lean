/-! # Runs of characters

A set of characters is made up of runs of code points.  A few runs are given by their first and last
code points; a code point on its own stands for the run that holds it alone.  A table of many runs
is given by lengths: of the gap before the first run, of that run, of the next gap, and so on.
-/
namespace FormulaFold.Text

/-- The code points from the first to the last. -/
abbrev Run := Nat × Nat

instance (n : Nat) : OfNat Run n := ⟨n, n⟩

/-- Whether one of the runs holds `c`. -/
def inRuns (runs : List Run) (c : Char) : Bool :=
  runs.any fun run => run.1 ≤ c.toNat && c.toNat ≤ run.2

/-- Whether the code point `n` is in a run, given the lengths of gaps and runs in turn. -/
def withinTurns : List Nat → Nat → Bool
  | gap :: run :: rest, n =>
    gap ≤ n && (n < gap + run || withinTurns rest (n - (gap + run)))
  | _, _ => false

/-- Whether `c` is in a run of the table. -/
def inTurns (table : List Nat) (c : Char) : Bool := withinTurns table c.toNat

end FormulaFold.Text
