import FormulaFold.Running.Folds

/-! # Evaluating formulas

`Expr.evaluation` gives the run of a formula out of the runs of its parts.  A reference to a
cell with a formula of its own is handed to `enter`, and `runDeep` closes the circle, as deep as
the workbook has cells.

`evaluate` is the meaning of a formula: what folding leaves to the run has to evaluate to the
same value as the formula that was folded.
-/
namespace FormulaFold

mutual
/-- The run of a formula. -/
def Expr.evaluation (ev : Evaluator) (enter : Address → Expr → Evaluation) : Expr → Evaluation
  | .constant v _ => fun _ => pure (.one v)
  | .operator op operands t => fun env => do
    let values ← runItems env (trimmed (evaluationAll ev enter operands))
    ev.computed (.operator op operands t) (op.compute values)
  | .call fn args t =>
    let node : Expr := .call fn args t
    let evaluations := evaluationAll ev enter args
    match Builtin.ofName? fn with
    | some .ifElse => ev.ifForm node evaluations
    | some .and => fun env => ev.boolForm node fn false env evaluations
    | some .or => fun env => ev.boolForm node fn true env evaluations
    | some .row => ev.positionForm node fn (·.row) args evaluations
    | some .column => ev.positionForm node fn (·.col) args evaluations
    | _ => ev.callForm node fn evaluations
  | .cell a => ev.cellForm enter a
  | .range rows cols elements => fun env => do
    return .one (.grid rows cols (← runSingles env (evaluationAll ev enter elements)))
  | .letIn name value body => fun env => do
    let y ← runChild env (evaluationOption ev enter value)
    runChild (env.set name y) (evaluationOption ev enter body)
  | .letVar name _ => Evaluator.nameForm name
  | .splice elements => fun env => do
    return .many (← runItems env (evaluationAll ev enter elements))
  | .switch selector cases otherwise _ =>
    Evaluator.switchForm (evaluationOption ev enter selector) (evaluationCases ev enter cases)
      (evaluationOption ev enter otherwise)
  | .switchCase c => fun env => runChild env (evaluationCase ev enter c).branch
  | .fold _ d seeds folded elements _ =>
    let d := evaluationDef ev enter d
    runFold d (d.start (evaluationSeeds ev enter seeds)) folded (evaluationAll ev enter elements)
  | .reduce d seed folded elements _ =>
    runFold (evaluationDef ev enter d) [evaluationOption ev enter seed] folded
      (evaluationAll ev enter elements)
  | .foldArray d array _ =>
    runFoldArray (evaluationDef ev enter d) (evaluationOption ev enter array)
  | .foldVectors d seeds folded vectors _ =>
    let d := evaluationDef ev enter d
    runFoldVectors d (d.start (evaluationSeeds ev enter seeds)) folded
      (evaluationAll ev enter vectors)
  | .foldTable d seeds folded columns filter column table _ =>
    let d := evaluationDef ev enter d
    runFoldTable d (d.start (evaluationSeeds ev enter seeds)) folded
      ⟨columns.getD [], evaluationOption ev enter filter, column⟩
      (evaluationOption ev enter table)
  | .parentSection _ inner => fun env =>
    runChild env.outerRow (evaluationOption ev enter inner)
  | .subSection s elements => fun env => do
    return .many (← Evaluator.rowsForm (evaluationAll ev enter elements) env (ev.inputs.rows s))
  | .count static args => fun _ =>
    let n := wrap (static + Expr.countRunArgs ev.inputs (trimmed args))
    pure (.one (.number (Float.ofInt n)))
/-- The run of a child, if there is one. -/
def evaluationOption (ev : Evaluator) (enter : Address → Expr → Evaluation) :
    Option Expr → Option Evaluation
  | none => none
  | some e => some (e.evaluation ev enter)
/-- The runs of children. -/
def evaluationAll (ev : Evaluator) (enter : Address → Expr → Evaluation) :
    List (Option Expr) → List (Option Evaluation)
  | [] => []
  | e :: rest => evaluationOption ev enter e :: evaluationAll ev enter rest
/-- The runs of seeds. -/
def evaluationSeeds (ev : Evaluator) (enter : Address → Expr → Evaluation) :
    List Expr → List Evaluation
  | [] => []
  | e :: rest => e.evaluation ev enter :: evaluationSeeds ev enter rest
/-- The run of the branch of a case. -/
def evaluationCase (ev : Evaluator) (enter : Address → Expr → Evaluation) :
    Case Expr → Case Evaluation
  | ⟨values, branch⟩ => ⟨values, evaluationOption ev enter branch⟩
/-- The runs of the branches of cases. -/
def evaluationCases (ev : Evaluator) (enter : Address → Expr → Evaluation) :
    List (Case Expr) → List (Case Evaluation)
  | [] => []
  | c :: rest => evaluationCase ev enter c :: evaluationCases ev enter rest
/-- The runs of an accumulator. -/
def evaluationAccumulator (ev : Evaluator) (enter : Address → Expr → Evaluation) :
    Accumulator Expr → Accumulator Evaluation
  | ⟨name, init, step⟩ => ⟨name, evaluationOption ev enter init, step.evaluation ev enter⟩
/-- The runs of accumulators. -/
def evaluationAccumulators (ev : Evaluator) (enter : Address → Expr → Evaluation) :
    List (Accumulator Expr) → List (Accumulator Evaluation)
  | [] => []
  | a :: rest => evaluationAccumulator ev enter a :: evaluationAccumulators ev enter rest
/-- The runs of a fold definition. -/
def evaluationDef (ev : Evaluator) (enter : Address → Expr → Evaluation) :
    FoldDef Expr → FoldDef Evaluation
  | ⟨accumulators, elements, index, count, merge, whenEmpty, commutative⟩ =>
    ⟨evaluationAccumulators ev enter accumulators, elements, index, count,
      evaluationOption ev enter merge, evaluationOption ev enter whenEmpty, commutative⟩
end

namespace Evaluator

variable (ev : Evaluator)

/-- The run of a formula in which cells are entered, at most `n` deep. -/
def runDeep : (n : Nat) → Expr → Evaluation
  | 0, e => e.evaluation ev fun _ _ _ => throw .tooDeep
  | n + 1, e => e.evaluation ev fun _ formula => runDeep n formula

/-- Evaluate a formula as the formula of a cell, if one is given.  No formula is blank. -/
def evaluate (e : Option Expr) (origin : Option Address) : Run Value := do
  match e with
  | none => return .null
  | some e => return (← ev.runDeep ev.book.cells.length e (.start origin)).single

/-- Evaluate a cell. -/
def evaluateCell (a : Address) : Run Value := ev.evaluate (some (.cell a)) (some a)

end Evaluator

end FormulaFold
