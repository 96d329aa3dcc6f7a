import FormulaFold.Decimal.Layout

/-! # Failed computations

A computation that fails does so for one of the causes below.  Causes fall into kinds: a
value outside a function's domain, an arithmetic fault and a result that depends on the moment
of running are *expected* — a formula that meets one at compile time is left to the run.  A
misuse of an operator or an unknown function is *hard*.  An access outside the values of an
array whose shape promises more, or outside a text, is a *crash*.
-/
namespace FormulaFold

/-- The kind of a failed computation. -/
inductive FailureKind where
  | domain
  | arithmetic
  | environment
  | hard
  | crash
deriving DecidableEq, Inhabited

/-- Why a computation failed. -/
inductive Failure where
  | notNumber (shown : String)
  | notBoolean (shown : String)
  | notText (shown : String)
  | squareRoot (x : Float)
  | oneArgument (got : Nat)
  | noArgument (fn : String)
  | negativeLength (fn : String)
  | indexArguments
  | indexColumn (rows cols : Int)
  | indexRange (i : Int)
  | indexPairRange (row col : Int)
  | computedPosition (fn : String)
  | divisionByZero
  | modByZero
  | averageOfNothing
  | needsOrigin (fn : String)
  | volatile (fn : String)
  | oneOperand (op : String) (got : Nat)
  | twoOperands (op : String) (got : Nat)
  | unsupportedOperator (op : String)
  | unsupportedFunction (fn : String)
  /-- An access outside the values of an array, or the characters of a text; their number is
  given. -/
  | outsideArray (size : Nat)

namespace Failure

/-- The kind of a cause. -/
def kind : Failure → FailureKind
  | notNumber _ | notBoolean _ | notText _ | squareRoot _ | oneArgument _ | noArgument _
  | negativeLength _ | indexArguments | indexColumn .. | indexRange _ | indexPairRange ..
  | computedPosition _ => .domain
  | divisionByZero | modByZero | averageOfNothing => .arithmetic
  | needsOrigin _ | volatile _ => .environment
  | oneOperand .. | twoOperands .. | unsupportedOperator _ | unsupportedFunction _ => .hard
  | outsideArray _ => .crash

/-- Whether the computation may be left to the run. -/
def expected (f : Failure) : Bool :=
  match f.kind with
  | .domain | .arithmetic | .environment => true
  | .hard | .crash => false

/-- What went wrong, without its kind. -/
def detail : Failure → String
  | notNumber shown => shown ++ " is not a number"
  | notBoolean shown => shown ++ " is not a boolean"
  | notText shown => shown ++ " is not text"
  | squareRoot x => "square root of " ++ Decimal.dataLayout.text x
  | oneArgument got => "expected one argument, got " ++ toString got
  | noArgument fn => fn ++ " needs at least one argument"
  | negativeLength fn => fn ++ " with negative length"
  | indexArguments => "INDEX needs an array and an index"
  | indexColumn rows cols =>
    "INDEX into a " ++ toString rows ++ "x" ++ toString cols ++ " array needs a column"
  | indexRange i => "index " ++ toString i ++ " out of range"
  | indexPairRange row col =>
    "index (" ++ toString row ++ ", " ++ toString col ++ ") out of range"
  | computedPosition fn => fn ++ " of a computed value"
  | divisionByZero => "division by zero"
  | modByZero => "MOD by zero"
  | averageOfNothing => "AVERAGE of nothing"
  | needsOrigin fn => fn ++ " needs the originating cell"
  | volatile fn => fn ++ " is volatile"
  | oneOperand op got => "operator " ++ op ++ " takes one operand, got " ++ toString got
  | twoOperands op got => "operator " ++ op ++ " takes two operands, got " ++ toString got
  | unsupportedOperator op => "unsupported operator " ++ op
  | unsupportedFunction fn => "unsupported function " ++ fn
  | outsideArray _ => ""

/-- The wording of a failure. -/
def message (f : Failure) : String :=
  match f.kind with
  | .domain => "domain error: " ++ f.detail
  | .arithmetic => "arithmetic error: " ++ f.detail
  | .environment => "result depends on the runtime environment: " ++ f.detail
  | .hard | .crash => f.detail

end Failure

end FormulaFold
