import FormulaFold.Engine.Failure
import FormulaFold.Folding.Bindings
import FormulaFold.Formula.Misuse

/-! # Why folding stops

Folding a formula stops at a complaint about the formula, at a computation that failed hard, or
at a broken promise: an unbound name, a cell with two values, a missing child that is needed, an
access outside an array.
-/
namespace FormulaFold

/-- The kinds of complaints about a formula. -/
inductive ComplaintKind where
  | unsupported
  | valueOutOfRange
  | refOutOfRange
  | shapeMismatch
deriving DecidableEq, Inhabited

/-- The wording of a kind of complaint. -/
def ComplaintKind.message : ComplaintKind → String
  | unsupported => "unsupported expression"
  | valueOutOfRange => "value out of range"
  | refOutOfRange => "reference out of range"
  | shapeMismatch => "shape mismatch"

/-- A complaint about a formula. -/
inductive Complaint where
  | indexBelow (i : Int)
  | indexAbove (i : Int) (elements : Nat)
  | pairBelow (row col : Int)
  | pairAbove (row col rows cols : Int)
  /-- A section is to be counted that has sections inside; its path is given, if it has one. -/
  | nestedSections (path : Option String)
  | tableSize (rows cols : Int) (elements : Nat)
  | fold (misuse : FoldMisuse)

namespace Complaint

/-- The kind of a complaint. -/
def kind : Complaint → ComplaintKind
  | indexBelow _ | pairBelow .. => .valueOutOfRange
  | indexAbove .. | pairAbove .. => .refOutOfRange
  | nestedSections _ | fold .noElementName => .unsupported
  | tableSize .. | fold _ => .shapeMismatch

/-- What the complaint says, without its kind. -/
def detail : Complaint → String
  | indexBelow i => "index " ++ toString i ++ " is below 1"
  | indexAbove i n => "index " ++ toString i ++ " exceeds " ++ toString n ++ " elements"
  | pairBelow row col =>
    "index (" ++ toString row ++ ", " ++ toString col ++ ") is below 1"
  | pairAbove row col rows cols =>
    "index (" ++ toString row ++ ", " ++ toString col ++ ") exceeds " ++ toString rows ++ "x" ++
      toString cols
  | nestedSections path => "counting nested sections of " ++ path.getD "<nil>"
  | tableSize rows cols n =>
    toString rows ++ "x" ++ toString cols ++ " table has " ++ toString n ++ " elements"
  | fold misuse => misuse.message

end Complaint

/-- Why folding stopped. -/
inductive Fault where
  /-- A complaint about the shown formula, met in the formula of `origin`. -/
  | complaint (c : Complaint) (shown : String) (origin : Option Address)
  /-- Computing the shown formula failed hard. -/
  | computing (shown : String) (cause : Failure)
  /-- A computation failed hard outside of a formula's own value. -/
  | failed (cause : Failure)
  | bindings (e : BindingError)
  | children (e : Expr.ShapeError)
  /-- A cell was found to have another value than the one remembered. -/
  | conflict (cell : Address) (old new : Value)
  /-- Names were left bound after the shown formula. -/
  | leftover (shown : String) (count : Nat)
  /-- Something missing was used as if it were there. -/
  | missing
  /-- More formulas were entered than the workbook has cells. -/
  | tooDeep

/-- Whether the fault is a broken promise and not a flaw of the formula: no other formula is
folded after it. -/
def Fault.isBroken : Fault → Bool
  | complaint .. => false
  | computing _ cause | failed cause => cause.kind = .crash
  | bindings _ | children _ | conflict .. | leftover .. | missing | tooDeep => true

/-- The wording of a fault. -/
def Fault.message : Fault → String
  | complaint c shown origin =>
    let text := c.detail ++ ": " ++ c.kind.message ++ " in " ++ shown
    match origin with
    | some a => a.render ++ ": " ++ text
    | none => text
  | computing shown cause => "computing " ++ shown ++ ": " ++ cause.message
  | failed cause => cause.message
  | bindings e => e.message
  | children e => e.message
  | conflict cell old new =>
    "cell " ++ cell.render ++ ": cached " ++ old.render ++ ", now " ++ new.render
  | leftover shown count =>
    "unbalanced bindings after optimizing " ++ shown ++ ": " ++ toString count ++ " left"
  | missing => ""
  | tooDeep => ""

end FormulaFold
