import FormulaFold.Address
import FormulaFold.Value

/-! # Names and rows of a run

Running a formula yields one value, or several that are spliced into the list around them.  An
environment holds what the names in a formula stand for, the cell whose formula is run and the
section rows around it.  Environments do not change; binding a name makes a new one.
-/
namespace FormulaFold

/-- What running a formula yields. -/
inductive Yield where
  | one (v : Value)
  /-- Values to be spliced into the list around them. -/
  | many (vs : List Value)

namespace Yield

/-- The values as items of the list around them. -/
def items : Yield → List Value
  | one v => [v]
  | many vs => vs

/-- The yield as a single value: several become an array of one row. -/
def single : Yield → Value
  | one v => v
  | many vs => .row vs

/-- The yield as messages show it. -/
def render : Yield → String
  | one v => v.render
  | many vs => "[" ++ " ".intercalate (vs.map Value.renderPlain) ++ "]"

end Yield

mutual
/-- The values in a value that are no arrays, in order and at any depth. -/
def Value.leaves : Value → List Value
  | .array _ _ values => leavesOf values
  | v => [v]
/-- The values in a list of values that are no arrays. -/
def leavesOf : List Value → List Value
  | [] => []
  | v :: vs => v.leaves ++ leavesOf vs
end

/-- The values in a yield that are no arrays. -/
def Yield.leaves (y : Yield) : List Value := leavesOf y.items

/-- The values of cells in one row of a section. -/
abbrev Row := List (Address × Value)

/-- What a formula sees while it is run. -/
structure Env where
  /-- The bound names, innermost first. -/
  names : List (String × Yield)
  /-- The cell whose formula is run. -/
  origin : Option Address
  /-- The section rows around the formula, innermost first. -/
  rows : List Row

namespace Env

/-- The environment of a formula on its own. -/
def start (origin : Option Address) : Env := ⟨[], origin, []⟩

/-- What a name stands for; the empty name stands for nothing. -/
def find? (env : Env) (name : String) : Option Yield :=
  if name = "" then none else env.names.lookup name

/-- Bind a name; the empty name is not bound. -/
def set (env : Env) (name : String) (y : Yield) : Env :=
  if name = "" then env else { env with names := (name, y) :: env.names }

/-- Bind names pairwise to values. -/
def setPairs (env : Env) : List (String × Value) → Env
  | [] => env
  | (name, v) :: rest => (env.set name (.one v)).setPairs rest

/-- Bind names pairwise to values; `none` unless there are as many of each. -/
def setAll? (env : Env) (names : List String) (values : List Value) : Option Env :=
  if names.length = values.length then some (env.setPairs (names.zip values)) else none

/-- Enter a row of a section. -/
def enterRow (env : Env) (row : Row) : Env := { env with rows := row :: env.rows }

/-- Leave the innermost row. -/
def outerRow (env : Env) : Env := { env with rows := env.rows.tail }

/-- The value of a cell in the rows around the formula. -/
def cell? (env : Env) (a : Address) : Option Value := env.rows.findSome? (·.lookup a)

end Env

end FormulaFold
