import FormulaFold.Engine.Basic
import FormulaFold.Formula.Misuse
import FormulaFold.Running.Inputs

/-! # Running a formula

A run computes a formula with the inputs at hand.  It keeps the cells whose formulas are being
run, so that a formula that refers to itself is found out.
-/
namespace FormulaFold

/-- Why a run stopped. -/
inductive RunFault where
  /-- Computing the shown formula failed. -/
  | evaluating (shown : String) (cause : Failure)
  /-- A row, counted from 1, could not be read, or deciding whether it passes a filter failed. -/
  | filtering (position : Nat) (cause : Failure)
  | unbound (name : String)
  | noInput (a : Address)
  | circular (a : Address)
  | notATable (shown : String)
  | misuse (m : FoldMisuse)
  /-- Names and values to be bound differ in number. -/
  | arity (names values : Nat)
  /-- Something missing was used as if it were there. -/
  | missing
  /-- More formulas were entered than the workbook has cells. -/
  | tooDeep

/-- Whether the fault is a broken promise and not a flaw of the formula. -/
def RunFault.isBroken : RunFault → Bool
  | arity .. | missing | tooDeep => true
  | evaluating _ cause | filtering _ cause => cause.kind = .crash
  | _ => false

/-- The wording of a fault. -/
def RunFault.message : RunFault → String
  | evaluating shown cause => "evaluating " ++ shown ++ ": " ++ cause.message
  | filtering position cause => "filtering row " ++ toString position ++ ": " ++ cause.message
  | unbound name => "unbound name " ++ Text.quote name
  | noInput a => "no value for input " ++ a.render
  | circular a => "circular reference to " ++ a.render
  | notATable shown => "database table is " ++ shown ++ ", not an array"
  | misuse m => m.message
  | arity names values =>
    "binding " ++ toString names ++ " names to " ++ toString values ++ " values"
  | missing => ""
  | tooDeep => ""

/-- An action of a run; the state holds the cells whose formulas are being run. -/
abbrev Run := EStateM RunFault (List Address)

/-- The run of one formula in an environment. -/
abbrev Evaluation := Env → Run Yield

/-- What stays the same during a run. -/
structure Evaluator where
  engine : Engine
  book : Workbook
  inputs : Inputs

namespace Run

/-- Run `x` with a cell marked as being run. -/
def visiting {α : Type} (a : Address) (x : Run α) : Run α := fun visited =>
  match x (a :: visited) with
  | .ok r visited => .ok r (visited.filter (· ≠ a))
  | .error e visited => .error e (visited.filter (· ≠ a))

end Run

/-- A yield taken as a truth value; several values are none. -/
def Yield.toBool : Yield → Except Failure Bool
  | .one v => v.toBool
  | .many vs => .error (.notBoolean (Yield.many vs).render)

/-- A yield taken as an integer; several values are none. -/
def Yield.toInt (default : Int) : Yield → Int
  | .one v => v.toInt default
  | .many _ => default

/-- Run a child; a missing one is blank. -/
def runChild (env : Env) : Option Evaluation → Run Yield
  | some evaluation => evaluation env
  | none => pure (.one .null)

/-- Run children and splice what they yield into one list. -/
def runItems (env : Env) : List (Option Evaluation) → Run (List Value)
  | [] => pure []
  | child :: rest => do
    let y ← runChild env child
    return y.items ++ (← runItems env rest)

/-- Run children and take what each of them yields as a single value. -/
def runSingles (env : Env) : List (Option Evaluation) → Run (List Value)
  | [] => pure []
  | child :: rest => do
    let y ← runChild env child
    return y.single :: (← runSingles env rest)

/-- Bind names pairwise to values. -/
def Env.bindAll (env : Env) (names : List String) (values : List Value) : Run Env :=
  match env.setAll? names values with
  | some env => pure env
  | none => throw (.arity names.length values.length)

namespace Evaluator

variable (ev : Evaluator)

/-- A step in computing a node that may fail. -/
def attempt {α : Type} (node : Expr) (result : Except Failure α) : Run α :=
  match result with
  | .ok a => pure a
  | .error f => throw (.evaluating (ev.book.shown node) f)

/-- The computed value of a node. -/
def computed (node : Expr) (result : Except Failure Value) : Run Yield := do
  return .one (ev.engine.adjust (← ev.attempt node result))

/-- `IF`: the condition selects a branch; a branch left out is zero or false. -/
def ifForm (node : Expr) (args : List (Option Evaluation)) (env : Env) : Run Yield :=
  if cardinality args = 0 then
    ev.computed node (ev.engine.call Builtin.ifElse.name [])
  else do
    let c ← runChild env (args[0]?.join)
    if ← ev.attempt node c.toBool then
      match args[1]?.join with
      | some branch => branch env
      | none => return .one (.number 0.0)
    else
      match args[2]?.join with
      | some branch => branch env
      | none => return .one (.bool false)

/-- The truth of one argument of `AND` and `OR`; an array counts as the arguments in it. -/
def truth (node : Expr) (fn : String) (y : Yield) : Run Bool := do
  match y.single with
  | .array rows cols values =>
    let v ← ev.attempt node (ev.engine.call fn [.array rows cols values])
    ev.attempt node v.toBool
  | v => ev.attempt node v.toBool

/-- `AND` and `OR` run from the left up to a decisive argument. -/
def boolForm (node : Expr) (fn : String) (decisive : Bool) (env : Env) :
    List (Option Evaluation) → Run Yield
  | [] => pure (.one (.bool !decisive))
  | none :: rest => boolForm node fn decisive env rest
  | some arg :: rest => do
    let b ← ev.truth node fn (← arg env)
    if b = decisive then return .one (.bool decisive)
    boolForm node fn decisive env rest

/-- The cell whose position `ROW` and `COLUMN` give, if there is one. -/
def positionCell? (args : List (Option Expr)) (env : Env) : Option Address :=
  match trimmed args with
  | [] => env.origin
  | [some (.cell a)] => some a
  | _ => none

/-- Any function that is computed from its arguments. -/
def callForm (node : Expr) (fn : String) (args : List (Option Evaluation)) (env : Env) :
    Run Yield := do
  let values ← runItems env (trimmed args)
  ev.computed node (ev.engine.call fn values)

/-- `ROW` and `COLUMN`. -/
def positionForm (node : Expr) (fn : String) (position : Address → Int)
    (args : List (Option Expr)) (evaluations : List (Option Evaluation)) (env : Env) :
    Run Yield :=
  match positionCell? args env with
  | some a => pure (.one (.number (Float.ofInt (position a))))
  | none => ev.callForm node fn evaluations env

/-- A bound name. -/
def nameForm (name : String) (env : Env) : Run Yield :=
  match env.find? name with
  | some y => pure y
  | none => throw (.unbound name)

/-- A switch. -/
def switchForm (selector : Option Evaluation) (cases : List (Case Evaluation))
    (otherwise : Option Evaluation) (env : Env) : Run Yield := do
  let y ← runChild env selector
  let k := y.toInt leastWord
  match cases.find? (·.matches k) with
  | some c => runChild env c.branch
  | none => runChild env otherwise

/-- The elements once per row. -/
def rowsForm (elements : List (Option Evaluation)) (env : Env) : List Row → Run (List Value)
  | [] => pure []
  | row :: rest => do
    let items ← runItems (env.enterRow row) elements
    return items ++ (← rowsForm elements env rest)

/-- The value of a cell: that of a row around the formula, else its input, its formula or its
literal value. -/
def cellForm (enter : Address → Expr → Evaluation) (a : Address) (env : Env) : Run Yield := do
  if let some v := env.cell? a then return .one v
  let cell := ev.book.get a
  if cell.input then
    match ev.inputs.cell? a with
    | some v => return .one v
    | none => throw (.noInput a)
  match cell.formula with
  | some formula =>
    if (← get).contains a then throw (.circular a)
    Run.visiting a (enter a formula ⟨[], some a, env.rows⟩)
  | none => return .one (ev.engine.literal cell.value)

end Evaluator

namespace Expr

mutual
/-- The number of elements of a formula by its shape, sections as large as their rows. -/
def countRun (inputs : Inputs) : Expr → Int
  | subSection s elements => wrap (countRunAll inputs elements * (inputs.rows s).length)
  | range _ _ elements | splice elements => countRunAll inputs elements
  | parentSection _ none => 1
  | parentSection _ (some inner) => countRun inputs inner
  | _ => 1
/-- The number of elements of children, a missing one counting as one. -/
def countRunAll (inputs : Inputs) : List (Option Expr) → Int
  | [] => 0
  | none :: rest => wrap (1 + countRunAll inputs rest)
  | some e :: rest => wrap (countRun inputs e + countRunAll inputs rest)
end

/-- The number of elements of the arguments of a count; missing arguments do not count. -/
def countRunArgs (inputs : Inputs) : List (Option Expr) → Int
  | [] => 0
  | none :: rest => countRunArgs inputs rest
  | some e :: rest => wrap (countRun inputs e + countRunArgs inputs rest)

end Expr

end FormulaFold
