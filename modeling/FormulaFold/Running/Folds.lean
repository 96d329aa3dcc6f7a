import FormulaFold.Formula.Rows
import FormulaFold.Running.Run

/-! # Running folds -/
namespace FormulaFold

/-- A fold being run. -/
structure RunFold where
  /-- The accumulators; missing before the first element of a reduction. -/
  accs : Option (List Value)
  /-- How many elements went into the accumulators, those folded ahead of the run included. -/
  folded : Nat

namespace RunFold

/-- Start a fold from its first values; a single missing one means that the first element is the
first value. -/
def start (inits : List (Option Evaluation)) (folded : Nat) (env : Env) : Run RunFold :=
  match inits with
  | [none] => pure ⟨none, folded⟩
  | inits => do return ⟨some (← runSingles env inits), folded⟩

/-- Fold one element. -/
def step (d : FoldDef Evaluation) (env : Env) (st : RunFold) (elements : List Value)
    (extra : List (String × Value)) : Run RunFold := do
  if elements.length ≠ d.elementNames.length then
    throw (.misuse (.elementNames elements.length d.elementNames.length))
  match st.accs with
  | none =>
    match elements with
    | [] => throw (.misuse .noElementName)
    | first :: _ => return ⟨some [first], st.folded + 1⟩
  | some accs =>
    let inner ← env.bindAll d.accumulatorNames accs
    let inner ← inner.bindAll d.elementNames elements
    let inner := inner.set d.index (.one (.number (Float.ofNat (st.folded + 1))))
    let inner := inner.setPairs extra
    return ⟨some (← runSingles inner (d.steps.map some)), st.folded + 1⟩

/-- Fold elements one after the other. -/
def steps (d : FoldDef Evaluation) (env : Env) (st : RunFold) : List (List Value) → Run RunFold
  | [] => pure st
  | elements :: rest => do
    let st ← step d env st elements []
    steps d env st rest

/-- The value of the fold from its final accumulators. -/
def result (d : FoldDef Evaluation) (env : Env) (st : RunFold) : Run Yield :=
  match d.whenEmpty with
  | some whenEmpty => if st.folded = 0 then whenEmpty env else finish
  | none => finish
where
  /-- Merge the accumulators. -/
  finish : Run Yield :=
    match st.accs, d.merge with
    | none, _ => pure (.one .null)
    | some accs, none =>
      match accs with
      | [] => throw .missing
      | v :: _ => pure (.one v)
    | some accs, some merge => do
      let inner ← env.bindAll d.accumulatorNames accs
      merge (inner.set d.count (.one (.number (Float.ofNat st.folded))))

end RunFold

/-- Run elements and fold what they yield, one after the other. -/
def runElements (d : FoldDef Evaluation) (env : Env) (st : RunFold) :
    List (Option Evaluation) → Run RunFold
  | [] => pure st
  | element :: rest => do
    let y ← runChild env element
    let st ← st.steps d env (y.leaves.map ([·]))
    runElements d env st rest

/-- Run a fold over a list of elements. -/
def runFold (d : FoldDef Evaluation) (inits : List (Option Evaluation)) (folded : Nat)
    (elements : List (Option Evaluation)) (env : Env) : Run Yield := do
  let st ← RunFold.start inits folded env
  let st ← runElements d env st elements
  st.result d env

/-- Run a fold over one array. -/
def runFoldArray (d : FoldDef Evaluation) (array : Option Evaluation) (env : Env) :
    Run Yield := do
  let y ← runChild env array
  let st ← RunFold.start d.inits 0 env
  let st ← st.steps d env (y.leaves.map ([·]))
  st.result d env

/-- Run vectors from the given position on, which have to be as long as the first one. -/
def runVectors (env : Env) (first : Option Nat) (position : Nat) :
    List (Option Evaluation) → Run (List (List Value))
  | [] => pure []
  | vector :: rest => do
    let y ← runChild env vector
    let elements := y.leaves
    let first := first.getD elements.length
    if elements.length ≠ first then
      throw (.misuse (.vectorLength position elements.length first))
    return elements :: (← runVectors env (some first) (position + 1) rest)

/-- Run a fold over several vectors of equal length, position by position. -/
def runFoldVectors (d : FoldDef Evaluation) (inits : List (Option Evaluation)) (folded : Nat)
    (vectors : List (Option Evaluation)) (env : Env) : Run Yield := do
  if vectors.isEmpty ∨ vectors.length ≠ d.elementNames.length then
    throw (.misuse (.vectorCount vectors.length d.elementNames.length))
  let vectors ← runVectors env none 1 vectors
  let st ← RunFold.start inits folded env
  let st ← st.steps d env (columnsOf ((vectors.headD []).length) vectors)
  st.result d env

/-- What running a fold of a table needs beside its definition. -/
structure TableRun where
  columns : List String
  filter : Option Evaluation
  foldColumn : Int

/-- Whether a row, counted from 1, passes the filter. -/
def TableRun.passes (table : TableRun) (env : Env) (position : Nat) (row : List Value) :
    Run Bool :=
  match table.filter with
  | none => pure true
  | some filter => do
    let inner ← env.bindAll table.columns row
    match (← filter inner).toBool with
    | .ok b => return b
    | .error f => throw (.filtering position f)

/-- Fold the rows that pass the filter, from the given position on. -/
def runRows (d : FoldDef Evaluation) (table : TableRun) (env : Env) (st : RunFold)
    (position : Nat) : List (List Value) → Run RunFold
  | [] => pure st
  | row :: rest => do
    let st ← if ← table.passes env position row then
        let elements :=
          if d.elementNames.isEmpty then [] else row[table.foldColumn.toNat]?.toList
        st.step d env elements (table.columns.zip row)
      else pure st
    runRows d table env st (position + 1) rest

/-- Run a fold of one column over the rows of a table. -/
def runFoldTable (d : FoldDef Evaluation) (inits : List (Option Evaluation)) (folded : Nat)
    (table : TableRun) (source : Option Evaluation) (env : Env) : Run Yield := do
  let y ← runChild env source
  let .one (.array rows cols values) := y | throw (.notATable y.render)
  if cols ≠ table.columns.length then
    throw (.misuse (.columnCount cols table.columns.length))
  if table.foldColumn < 0 ∨ cols ≤ table.foldColumn then
    throw (.misuse (.foldColumn (wrap (table.foldColumn + 1)) cols))
  let st ← RunFold.start inits folded env
  let all := rowsOf cols.toNat values.length values
  let st ← runRows d table env st 1 (all.take rows.toNat)
  if all.length < rows then throw (.filtering (all.length + 1) (.outsideArray values.length))
  st.result d env

end FormulaFold
