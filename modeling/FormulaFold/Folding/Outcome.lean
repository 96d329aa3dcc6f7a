import FormulaFold.Formula.Expr

/-! # Outcomes of folding

Folding a formula gives a value that is known ahead of the run, or a residual formula that is
left to it.  A range or a splice made of constants only is a residual formula in form, but all
that it stands for is known, so it counts as constant.
-/
namespace FormulaFold

namespace Expr

mutual
/-- Whether a formula is a range or a splice made of constants only, at any depth. -/
def isAggregate : Expr → Bool
  | range _ _ elements | splice elements => allAggregate elements
  | _ => false
/-- Whether every child is a constant or an aggregate of constants. -/
def allAggregate : List (Option Expr) → Bool
  | [] => true
  | none :: _ => false
  | some (constant ..) :: rest => allAggregate rest
  | some e :: rest => isAggregate e && allAggregate rest
end

mutual
/-- The value of an aggregate of constants: ranges keep their shape, splices become a row. -/
def materialize : Expr → Value
  | constant v _ => v
  | range rows cols elements => .grid rows cols (materializeAll elements)
  | splice elements => .row (materializeAll elements)
  | _ => .null
/-- The values of the elements of an aggregate; a missing one is blank. -/
def materializeAll : List (Option Expr) → List Value
  | [] => []
  | none :: rest => .null :: materializeAll rest
  | some e :: rest => materialize e :: materializeAll rest
end

mutual
/-- The values that a constant formula contributes to a list of arguments: those of a splice
one by one, anything else as a single value. -/
def spliceValues : Expr → List Value
  | splice elements => spliceAll elements
  | e => [materialize e]
/-- The values that the elements of a splice contribute; a missing one is blank. -/
def spliceAll : List (Option Expr) → List Value
  | [] => []
  | none :: rest => .null :: spliceAll rest
  | some e :: rest => spliceValues e ++ spliceAll rest
end

end Expr

/-- What folding a formula gives. -/
inductive Outcome where
  /-- A value known ahead of the run. -/
  | known (value : Value) (type : DataType)
  /-- A formula left to the run. -/
  | residual (e : Expr)

namespace Outcome

/-- A known value; an unknown data type is that of the value. -/
def constant (v : Value) (t : DataType) : Outcome := known v (t.orElse v.dataType)

/-- The known blank. -/
def blank : Outcome := constant .null .null

/-- A formula as an outcome; constants are known values. -/
def ofExpr : Expr → Outcome
  | .constant v t => constant v t
  | e => residual e

/-- A child as an outcome; a missing one is blank. -/
def ofChild : Option Expr → Outcome
  | none => blank
  | some e => ofExpr e

/-- The outcome as a formula. -/
def expr : Outcome → Expr
  | known v t => .constant v t
  | residual e => e

/-- Whether the outcome is a known value. -/
def isKnown : Outcome → Bool
  | known .. => true
  | residual _ => false

/-- Whether all that the outcome stands for is known. -/
def isConstant : Outcome → Bool
  | known .. => true
  | residual e => e.isAggregate

/-- The value of a constant outcome. -/
def value : Outcome → Value
  | known v _ => v
  | residual e => e.materialize

/-- The data type of an outcome. -/
def type (cellType : Address → DataType) : Outcome → DataType
  | known _ t => t
  | residual e => (e.type? cellType).getD .unknown

/-- The elements of a range or a splice. -/
def elements? : Outcome → Option (List Outcome)
  | residual (.range _ _ elements) | residual (.splice elements) => some (elements.map ofChild)
  | _ => none

/-- The values that a constant outcome contributes to a list of arguments. -/
def arguments : Outcome → List Value
  | known v _ => [v]
  | residual e => e.spliceValues

/-- The arguments of a computation: splices are spliced in place, ranges become arrays. -/
def values (os : List Outcome) : List Value := os.flatMap arguments

/-- Why an outcome does not give a value: the formula is left to the run. -/
inductive ValueError where
  /-- A known value was asked for. -/
  | notKnown (e : Expr)
  /-- The value of a constant was asked for. -/
  | notConstant (e : Expr)

/-- The wording of the error, given the text of the formula. -/
def ValueError.message (text : String) : ValueError → String
  | notKnown _ => "ConstantValue on residual result " ++ text
  | notConstant _ => "Value on residual result " ++ text

/-- The formula that was left to the run. -/
def ValueError.formula : ValueError → Expr
  | notKnown e | notConstant e => e

/-- The known value of an outcome. -/
def knownValue : Outcome → Except ValueError Value
  | known v _ => .ok v
  | residual e => .error (.notKnown e)

/-- The value of an outcome of which all is known. -/
def constantValue (o : Outcome) : Except ValueError Value :=
  if o.isConstant then .ok o.value else .error (.notConstant o.expr)

end Outcome

mutual
/-- The elements of a formula in the order in which they are met, ranges and splices replaced
by their elements at any depth. -/
def Expr.flatten : Expr → List Outcome
  | .range _ _ elements | .splice elements => flattenChildren elements
  | e => [.ofExpr e]
/-- The elements of children; a missing one is blank. -/
def flattenChildren : List (Option Expr) → List Outcome
  | [] => []
  | none :: rest => .blank :: flattenChildren rest
  | some e :: rest => e.flatten ++ flattenChildren rest
end

/-- The elements of an outcome. -/
def Outcome.flatten : Outcome → List Outcome
  | .known v t => [.known v t]
  | .residual e => e.flatten

/-- The elements of several outcomes. -/
def flattenOutcomes (os : List Outcome) : List Outcome := os.flatMap Outcome.flatten

end FormulaFold
