import FormulaFold.Decimal.Rounding
import FormulaFold.Engine.Function
import FormulaFold.Engine.Operator

/-! # The engine

The engine computes operators and functions on values.  It rounds computed numbers to a
precision, if one is set, and it knows which functions are volatile, that is, reflect the moment
of running and must not be computed ahead of it.
-/
namespace FormulaFold

/-- The settings under which values are computed. -/
structure Engine where
  /-- The number of significant digits of a computed number; none are dropped when it is not
  positive. -/
  precision : Int
  /-- The names of the volatile functions beside the ones that always are. -/
  volatile : List String
  moment : Moment

namespace Engine

/-- An engine with the given settings; the volatile functions may be named in any letter
case. -/
def ofSettings (precision : Int) (volatile : List String) (moment : Moment) : Engine :=
  ⟨precision, volatile.map Text.upper, moment⟩

/-- Whether a function is volatile. -/
def isVolatile (engine : Engine) (fn : String) : Bool :=
  fn == Builtin.now.name || fn == Builtin.today.name || fn == Builtin.rand.name ||
    engine.volatile.contains fn

/-- A computed value as it is kept: a whole number becomes a number, negative zero becomes zero,
and a finite number is rounded to the precision. -/
def adjust (engine : Engine) : Value → Value
  | .integer n => .number (Float.ofInt n)
  | .number x =>
    if !isFinite x then .number x
    else if x == 0.0 then .number 0.0
    else if 0 < engine.precision then .number (Decimal.roundTo engine.precision.toNat x)
    else .number x
  | v => v

/-- A literal value of a cell as it takes part in formulas: a truth value becomes a number. -/
def literal (engine : Engine) : Value → Value
  | .bool b => engine.adjust (.number (if b then 1.0 else 0.0))
  | v => engine.adjust v

/-- The result of the function with the given name. -/
def call (engine : Engine) (fn : String) (args : List Value) : Except Failure Value :=
  match Builtin.ofName? fn with
  | some f => f.compute engine.moment args
  | none => .error (.unsupportedFunction fn)

end Engine

end FormulaFold
