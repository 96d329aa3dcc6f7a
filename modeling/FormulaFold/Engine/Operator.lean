import FormulaFold.Engine.Coercion
import FormulaFold.Formula.Op

/-! # Computing operators -/
namespace FormulaFold

/-- What a comparison operator says of an order. -/
def Op.holds? : Op → Ordering → Option Bool
  | .eq, o => some (o == .eq)
  | .ne, o => some (o != .eq)
  | .lt, o => some (o == .lt)
  | .le, o => some (o != .gt)
  | .gt, o => some (o == .gt)
  | .ge, o => some (o != .lt)
  | _, _ => none

/-- The result of an arithmetic operator on two numbers. -/
def Op.arithmetic (op : Op) (x y : Float) : Except Failure Float :=
  match op with
  | .add => .ok (x + y)
  | .sub => .ok (x - y)
  | .mul => .ok (x * y)
  | .div => if y == 0.0 then .error .divisionByZero else .ok (x / y)
  | .pow => .ok (x ^ y)
  | _ => .error (.unsupportedOperator op.symbol)

/-- The result of an operator on values. -/
def Op.compute (op : Op) (args : List Value) : Except Failure Value :=
  if op.isUnary then
    match args with
    | [v] => do
      let x ← v.toNumber
      return .number (if op = .neg then -x else x / 100.0)
    | _ => .error (.oneOperand op.symbol args.length)
  else
    match args with
    | [a, b] =>
      match op with
      | .concat => do
        let s ← a.toText
        let t ← b.toText
        return .text (s ++ t)
      | .eq | .ne | .lt | .le | .gt | .ge => do
        let order ← a.compareWith b
        return .bool ((op.holds? order).getD false)
      | _ => do
        let x ← a.toNumber
        let y ← b.toNumber
        return .number (← op.arithmetic x y)
    | _ => .error (.twoOperands op.symbol args.length)

/-- The result of the operator with the given number.  A number outside the list names an
operator of two numbers that is not supported. -/
def Op.computeCode (code : Nat) (args : List Value) : Except Failure Value :=
  match Op.ofCode? code with
  | some op => op.compute args
  | none =>
    match args with
    | [a, b] => do
      let _ ← a.toNumber
      let _ ← b.toNumber
      throw (.unsupportedOperator (Op.codeText code))
    | _ => .error (.twoOperands (Op.codeText code) args.length)

end FormulaFold
