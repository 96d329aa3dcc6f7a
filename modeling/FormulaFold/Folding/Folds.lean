import FormulaFold.Folding.Walk
import FormulaFold.Formula.Rows

/-! # Folds ahead of the run

A fold is done element by element as long as everything is constant.  Elements that are not are
*held* for the run.  A fold that depends on the order of its elements holds everything after the
first held element; another one goes on with the elements that follow.

With nothing held the fold is computed.  Otherwise the held elements form a smaller fold that
starts from what was accumulated, unless nothing was gained or folds may not be done in part.
-/
namespace FormulaFold

/-- A fold under way. -/
structure FoldState where
  /-- The accumulators; missing before the first element of a reduction. -/
  accs : Option (List Outcome)
  /-- How many elements went into the accumulators, those of an earlier pass included. -/
  folded : Nat
  /-- Whether an element was folded or filtered out. -/
  progress : Bool
  /-- Whether all further elements are held. -/
  stopped : Bool
  /-- The held elements, as one tuple of formulas each. -/
  held : List (List Expr)

/-- A fold with its formulas replaced by their walks. -/
structure FoldPlan where
  site : Site
  node : Expr
  d : FoldDef Action
  /-- The walks of the first values; a single missing one means that the first element is the
  first value. -/
  inits : List (Option Action)

namespace FoldState

/-- A fold that has not seen any element. -/
def start (accs : Option (List Outcome)) (folded : Nat) : FoldState :=
  ⟨accs, folded, false, false, []⟩

/-- The accumulators as seeds of a smaller fold. -/
def seeds (st : FoldState) : List Expr := (st.accs.getD []).map (·.expr)

/-- Take over new accumulators after an element. -/
def advance (st : FoldState) (accs : List Outcome) : FoldState :=
  { st with accs := some accs, folded := st.folded + 1, progress := true }

/-- Hold an element for the run. -/
def hold (st : FoldState) (orderSensitive : Bool) (nodes : List Expr) : FoldState :=
  { st with held := st.held ++ [nodes], stopped := st.stopped || orderSensitive }

end FoldState

/-- Run walks whose outcomes all have to be constant; the first that is not, or that is missing,
ends it. -/
def runConstants : List (Option Action) → Walk (Option (List Outcome))
  | [] => pure (some [])
  | none :: _ => pure none
  | some act :: rest => do
    let o ← act
    if !o.isConstant then return none
    return (← runConstants rest).map (o :: ·)

namespace FoldPlan

/-- The plan of a fold that starts from its seeds, or from its first values without them. -/
def resume (site : Site) (node : Expr) (d : FoldDef Action) (seeds : List Action) : FoldPlan :=
  ⟨site, node, d, d.start seeds⟩

variable (plan : FoldPlan)

/-- Complain about the fold. -/
def misuse {α : Type} (m : FoldMisuse) : Walk α := plan.site.complain (.fold m) plan.node

/-- Walk the first values; `none` when one of them is not constant. -/
def start? (folded : Nat) : Walk (Option FoldState) :=
  match plan.inits with
  | [none] => pure (some (.start none folded))
  | inits => do return (← runConstants inits).map fun accs => .start (some accs) folded

/-- The names and outcomes bound while the steps are walked. -/
def stepScope (st : FoldState) (accs elements : List Outcome) (extra : List (String × Outcome)) :
    List String × List Outcome :=
  let position : List (String × Outcome) :=
    if plan.d.index = "" then []
    else [(plan.d.index, .constant (.number (Float.ofNat (st.folded + 1))) .numeric)]
  let more := position ++ extra
  (plan.d.accumulatorNames ++ plan.d.elementNames ++ more.map (·.1),
    accs ++ elements ++ more.map (·.2))

/-- Fold one element; `none` when a step is not constant. -/
def step? (st : FoldState) (elements : List Outcome) (extra : List (String × Outcome)) :
    Walk (Option FoldState) := do
  if elements.length ≠ plan.d.elementNames.length then
    plan.misuse (.elementNames elements.length plan.d.elementNames.length)
  match st.accs with
  | none =>
    match elements with
    | [] => plan.misuse .noElementName
    | first :: _ => return some (st.advance [first])
  | some accs =>
    let (names, os) := plan.stepScope st accs elements extra
    let next ← Walk.bindingAll names os (runConstants (plan.d.steps.map some))
    return next.map st.advance

/-- Fold one element or hold it. -/
def stepOrHold (st : FoldState) (elements : List Outcome) (extra : List (String × Outcome))
    (nodes : List Expr) : Walk FoldState := do
  return (← plan.step? st elements extra).getD (st.hold plan.d.orderSensitive nodes)

/-- Fold or hold tuples of elements, one after the other. -/
def foldTuples (st : FoldState) : List (List Outcome) → Walk FoldState
  | [] => pure st
  | tuple :: rest => do
    let nodes := tuple.map (·.expr)
    let st ←
      if st.stopped || !tuple.all (·.isKnown) then
        pure (st.hold plan.d.orderSensitive nodes)
      else plan.stepOrHold st tuple [] nodes
    foldTuples st rest

/-- The value of the fold from its final accumulators. -/
def result (st : FoldState) : Action :=
  match plan.d.whenEmpty, st.accs, plan.d.merge with
  | some whenEmpty, accs, merge =>
    if st.folded = 0 then whenEmpty else finish accs merge
  | none, accs, merge => finish accs merge
where
  /-- Merge the accumulators. -/
  finish (accs : Option (List Outcome)) (merge : Option Action) : Action :=
    match accs, merge with
    | none, _ => pure .blank
    | some accs, none =>
      match accs with
      | [] => throw .missing
      | o :: _ => pure o
    | some accs, some merge =>
      let total : List (String × Outcome) :=
        if plan.d.count = "" then []
        else [(plan.d.count, .constant (.number (Float.ofNat st.folded)) .numeric)]
      Walk.bindingAll (plan.d.accumulatorNames ++ total.map (·.1)) (accs ++ total.map (·.2)) merge

/-- Compute the fold when nothing is held; otherwise build the smaller fold, or keep the whole
one when nothing was gained. -/
def complete (st : FoldState) (whole : Action) (rebuild : FoldState → Expr) : Action :=
  if st.held.isEmpty then plan.result st
  else if !st.progress || !plan.site.partialFolds then whole
  else do
    Walk.tally fun s => { s with partialFolds := s.partialFolds + 1 }
    Walk.record (.partialFold plan.node.kind st.folded st.held.length)
    plan.site.dynamic (rebuild st)

end FoldPlan

/-- A fold over a list of elements, ranges and splices among them flattened. -/
def foldElements (plan : FoldPlan) (folded : Nat) (acts : List (Option Action))
    (rebuild : FoldState → Expr) : Action := do
  let args ← runAll acts
  let whole := plan.site.residual plan.node args
  let some st ← plan.start? folded | whole
  let st ← plan.foldTuples st ((flattenOutcomes args).map ([·]))
  plan.complete st whole rebuild

/-- The elements that a fold of one array goes through; `none` when the array is left to the
run. -/
def arrayElements? (o : Outcome) : Option (List Outcome) :=
  match o.elements?, o with
  | some elements, _ => some (flattenOutcomes elements)
  | none, .known (.array _ _ values) _ => some (values.map (Outcome.constant · .unknown))
  | none, .known v t => some [.known v t]
  | none, .residual _ => none

/-- Fold every element, or stop at the first that cannot be folded. -/
def foldWhole? (plan : FoldPlan) (st : FoldState) : List Outcome → Walk (Option FoldState)
  | [] => pure (some st)
  | o :: rest => do
    if !o.isKnown then return none
    let some st ← plan.step? st [o] [] | return none
    foldWhole? plan st rest

/-- A fold over one array, which is done whole or not at all. -/
def foldArrayForm (plan : FoldPlan) (act : Option Action) : Action := do
  let args ← runAll [act]
  let whole := plan.site.residual plan.node args
  let some elements := arrayElements? (args.headD .blank) | whole
  let some st ← plan.start? 0 | whole
  let some st ← foldWhole? plan st elements | whole
  plan.result st

/-- The elements of the vectors from the given position on; `none` when one of them is sized at
run time, an error when one is not as long as the first. -/
def vectorElements? (first : Option Nat) (position : Nat) :
    List Outcome → Option (Except FoldMisuse (List (List Outcome)))
  | [] => some (.ok [])
  | o :: rest => do
    let elements := flattenOutcomes (← o.elements?)
    let first := first.getD elements.length
    if elements.length ≠ first then
      some (.error (.vectorLength position elements.length first))
    else
      match ← vectorElements? (some first) (position + 1) rest with
      | .ok more => some (.ok (elements :: more))
      | .error m => some (.error m)

/-- A fold over several vectors of equal length, position by position. -/
def foldVectorsForm (plan : FoldPlan) (folded : Nat) (acts : List (Option Action))
    (rebuild : FoldState → List Expr → Expr) : Action := do
  let args ← runAll acts
  if args.isEmpty ∨ args.length ≠ plan.d.elementNames.length then
    plan.misuse (.vectorCount args.length plan.d.elementNames.length)
  let whole := plan.site.residual plan.node args
  match vectorElements? none 1 args with
  | none => whole
  | some (.error m) => plan.misuse m
  | some (.ok vectors) =>
    let some st ← plan.start? folded | whole
    let st ← plan.foldTuples st (columnsOf ((vectors.headD []).length) vectors)
    plan.complete st whole fun st =>
      rebuild st ((columnsOf vectors.length st.held).map Expr.vector)

/-- What a fold of a table needs beside its definition. -/
structure TablePlan where
  columns : List String
  filter : Option Action
  foldColumn : Int

/-- Whether a row passes the filter; `none` when that is left to the run. -/
def TablePlan.passes? (table : TablePlan) (row : List Outcome) : Walk (Option Bool) :=
  match table.filter with
  | none => pure (some true)
  | some filter => do
    match ← Walk.bindingAll table.columns row filter with
    | .residual _ => return none
    | .known v _ =>
      match v.toBool with
      | .ok b => return some b
      | .error f => if f.expected then return none else throw (.failed f)

/-- Fold, filter out or hold the rows of a table, one after the other. -/
def foldRows (plan : FoldPlan) (table : TablePlan) (st : FoldState) :
    List (List Outcome) → Walk FoldState
  | [] => pure st
  | row :: rest => do
    let nodes := row.map (·.expr)
    let held := st.hold plan.d.orderSensitive nodes
    let st ←
      if st.stopped || !row.all (·.isKnown) then pure held
      else do
        match ← table.passes? row with
        | none => pure held
        | some false => pure { st with progress := true }
        | some true =>
          let elements :=
            if plan.d.elementNames.isEmpty then [] else row[table.foldColumn.toNat]?.toList
          plan.stepOrHold st elements (table.columns.zip row) nodes
    foldRows plan table st rest

/-- A fold of one column over the rows of a table. -/
def foldTableForm (plan : FoldPlan) (folded : Nat) (table : TablePlan) (act : Option Action)
    (rebuild : FoldState → Expr → Expr) : Action := do
  let args ← runAll [act]
  let whole := plan.site.residual plan.node args
  let .residual (.range rows cols elements) := args.headD .blank | whole
  if cols ≠ table.columns.length then
    plan.misuse (.columnCount cols table.columns.length)
  if table.foldColumn < 0 ∨ cols ≤ table.foldColumn then
    plan.misuse (.foldColumn (wrap (table.foldColumn + 1)) cols)
  let some st ← plan.start? folded | whole
  if (elements.length : Int) ≠ wrap (rows * cols) then
    plan.site.complain (.tableSize rows cols elements.length) plan.node
  let all := rowsOf cols.toNat elements.length (elements.map Outcome.ofChild)
  let st ← foldRows plan table st (all.take rows.toNat)
  if all.length < rows then throw (.failed (.outsideArray elements.length))
  plan.complete st whole fun st =>
    rebuild st (.range st.held.length cols ((st.held.flatten).map some))

end FormulaFold
