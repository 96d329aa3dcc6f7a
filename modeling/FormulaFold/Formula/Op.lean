import FormulaFold.Text.Quoted

/-! # Operators

The fourteen operators of formulas.  The minus sign names two of them: it is a negation before a
single operand and a subtraction otherwise.
-/
namespace FormulaFold

/-- An operator of a formula. -/
inductive Op where
  | add
  | sub
  | mul
  | div
  | pow
  | neg
  | percent
  | concat
  | eq
  | ne
  | lt
  | le
  | gt
  | ge
deriving DecidableEq, Inhabited

namespace Op

/-- All operators, in the order of their numbers. -/
def all : List Op :=
  [add, sub, mul, div, pow, neg, percent, concat, eq, ne, lt, le, gt, ge]

/-- How the operator is written. -/
def symbol : Op → String
  | add => "+"
  | sub => "-"
  | mul => "*"
  | div => "/"
  | pow => "^"
  | neg => "-"
  | percent => "%"
  | concat => "&"
  | eq => "="
  | ne => "<>"
  | lt => "<"
  | le => "<="
  | gt => ">"
  | ge => ">="

/-- Whether the operator takes a single operand. -/
def isUnary : Op → Bool
  | neg | percent => true
  | _ => false

/-- The number of the operator. -/
def code (op : Op) : Nat := all.idxOf op

/-- The operator with the given number. -/
def ofCode? (n : Nat) : Option Op := all[n]?

/-- The text of an operator number, in or out of the list. -/
def codeText (n : Nat) : String :=
  match ofCode? n with
  | some op => op.symbol
  | none => "op(" ++ toString n ++ ")"

/-- The operator written as `sym`; a minus sign before a single operand is a negation. -/
def ofSymbol? (sym : String) (unary : Bool) : Option Op :=
  if sym = "-" ∧ unary then some neg
  else all.find? fun op => op.symbol == sym && op != neg

end Op

end FormulaFold
