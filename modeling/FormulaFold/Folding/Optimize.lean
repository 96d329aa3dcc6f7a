import FormulaFold.Folding.Folds
import FormulaFold.Folding.Forms

/-! # Folding formulas

`Expr.walk` gives the walk of a formula out of the walks of its parts.  A reference to a cell
with a formula of its own is handed to `enter`.  `walkDeep` closes the circle: entering a cell
walks its formula in turn.  Each entry marks a cell that was not marked before, so no chain of
entries is longer than the number of cells, which bounds the recursion.

`optimize` folds a formula and `optimizeCell` the formula of a cell.
-/
namespace FormulaFold

mutual
/-- The walk of a formula. -/
def Expr.walk (site : Site) (enter : Address → Expr → Action) : Expr → Action
  | .constant v t => pure (.constant v t)
  | .operator op operands t =>
    site.generic (.operator op operands t) op.compute [] (trimmed (walkAll site enter operands))
  | .call fn args t =>
    let node : Expr := .call fn args t
    let acts := walkAll site enter args
    match Builtin.ofName? fn with
    | some .ifElse => ifForm site node acts
    | some .and => boolForm site fn t false acts
    | some .or => boolForm site fn t true acts
    | some .index =>
      let grid? : Option Grid := match args with
        | some (.range rows cols elements) :: _ =>
          some ⟨rows, cols, walkAll site enter elements⟩
        | _ => none
      indexForm site node grid? acts
    | some .concatenate => concatForm site node fn t acts
    | some .row => positionForm site node fn (·.row) args acts
    | some .column => positionForm site node fn (·.col) args acts
    | _ => callForm site node fn acts
  | .cell a => cellForm site enter a
  | .range rows cols elements =>
    rebuildForm site (.range rows cols elements) (walkAll site enter elements)
  | .letIn name value body =>
    letForm site name (walkOption site enter value) (walkOption site enter body)
  | .letVar name t => nameForm site name t
  | .splice elements => rebuildForm site (.splice elements) (walkAll site enter elements)
  | .switch selector cases otherwise t =>
    let acts := walkOption site enter selector ::
      (walkCaseNodes site enter cases ++ [walkOption site enter otherwise])
    switchForm site (.switch selector cases otherwise t) (walkOption site enter selector)
      (walkCases site enter cases) (walkOption site enter otherwise) acts
  | .switchCase c => rebuildForm site (.switchCase c) [(walkCase site enter c).branch]
  | .fold form d seeds folded elements t =>
    let plan := FoldPlan.resume site (.fold form d seeds folded elements t)
      (walkDef site enter d) (walkSeeds site enter seeds)
    foldElements plan folded (walkAll site enter elements) fun st =>
      .fold form d st.seeds st.folded ((st.held.flatten).map some) t
  | .reduce d seed folded elements t =>
    let plan : FoldPlan := ⟨site, .reduce d seed folded elements t, walkDef site enter d,
      [walkOption site enter seed]⟩
    foldElements plan folded (walkAll site enter elements) fun st =>
      .reduce d st.seeds.head? st.folded ((st.held.flatten).map some) t
  | .foldArray d array t =>
    let plan := FoldPlan.resume site (.foldArray d array t) (walkDef site enter d) []
    foldArrayForm plan (walkOption site enter array)
  | .foldVectors d seeds folded vectors t =>
    let plan := FoldPlan.resume site (.foldVectors d seeds folded vectors t)
      (walkDef site enter d) (walkSeeds site enter seeds)
    foldVectorsForm plan folded (walkAll site enter vectors) fun st vectors =>
      .foldVectors d st.seeds st.folded (vectors.map some) t
  | .foldTable d seeds folded columns filter column table t =>
    let plan := FoldPlan.resume site (.foldTable d seeds folded columns filter column table t)
      (walkDef site enter d) (walkSeeds site enter seeds)
    foldTableForm plan folded ⟨columns.getD [], walkOption site enter filter, column⟩
      (walkOption site enter table) fun st table =>
        .foldTable d st.seeds st.folded columns filter column (some table) t
  | .parentSection s inner =>
    parentForm site (.parentSection s inner) (walkOption site enter inner)
  | .subSection s elements =>
    rebuildForm site (.subSection s elements) (walkAll site enter elements)
  | .count static args => countForm site static args
/-- The walk of a child, if there is one. -/
def walkOption (site : Site) (enter : Address → Expr → Action) : Option Expr → Option Action
  | none => none
  | some e => some (e.walk site enter)
/-- The walks of children. -/
def walkAll (site : Site) (enter : Address → Expr → Action) :
    List (Option Expr) → List (Option Action)
  | [] => []
  | e :: rest => walkOption site enter e :: walkAll site enter rest
/-- The walks of seeds. -/
def walkSeeds (site : Site) (enter : Address → Expr → Action) : List Expr → List Action
  | [] => []
  | e :: rest => e.walk site enter :: walkSeeds site enter rest
/-- The walk of the branch of a case. -/
def walkCase (site : Site) (enter : Address → Expr → Action) : Case Expr → Case Action
  | ⟨values, branch⟩ => ⟨values, walkOption site enter branch⟩
/-- The walks of the branches of cases. -/
def walkCases (site : Site) (enter : Address → Expr → Action) :
    List (Case Expr) → List (Case Action)
  | [] => []
  | c :: rest => walkCase site enter c :: walkCases site enter rest
/-- The walks of cases as nodes of their own. -/
def walkCaseNodes (site : Site) (enter : Address → Expr → Action) :
    List (Case Expr) → List (Option Action)
  | [] => []
  | c :: rest =>
    some (rebuildForm site (.switchCase c) [(walkCase site enter c).branch]) ::
      walkCaseNodes site enter rest
/-- The walks of an accumulator. -/
def walkAccumulator (site : Site) (enter : Address → Expr → Action) :
    Accumulator Expr → Accumulator Action
  | ⟨name, init, step⟩ => ⟨name, walkOption site enter init, step.walk site enter⟩
/-- The walks of accumulators. -/
def walkAccumulators (site : Site) (enter : Address → Expr → Action) :
    List (Accumulator Expr) → List (Accumulator Action)
  | [] => []
  | a :: rest => walkAccumulator site enter a :: walkAccumulators site enter rest
/-- The walks of a fold definition. -/
def walkDef (site : Site) (enter : Address → Expr → Action) : FoldDef Expr → FoldDef Action
  | ⟨accumulators, elements, index, count, merge, whenEmpty, commutative⟩ =>
    ⟨walkAccumulators site enter accumulators, elements, index, count,
      walkOption site enter merge, walkOption site enter whenEmpty, commutative⟩
end

/-- How formulas are folded. -/
structure Optimizer where
  engine : Engine
  /-- Whether a fold may be done in part. -/
  partialFolds : Bool

namespace Optimizer

variable (opt : Optimizer) (book : Workbook)

/-- The site of a formula of the given cell. -/
def site (origin : Option Address) : Site := ⟨opt.engine, book, opt.partialFolds, origin⟩

/-- The walk of a formula in which cells are entered, at most `n` deep. -/
def walkDeep : (n : Nat) → (origin : Option Address) → Expr → Action
  | 0, origin, e => e.walk (opt.site book origin) fun _ _ => throw .tooDeep
  | n + 1, origin, e => e.walk (opt.site book origin) fun a formula => walkDeep n (some a) formula

/-- Fold a formula as the formula of a cell, if one is given. -/
def optimize (e : Option Expr) (origin : Option Address) : Action := do
  let some e := e | throw .missing
  let site := opt.site book origin
  let o ← Walk.isolated do
    let o ← opt.walkDeep book book.cells.length origin e
    let left := (← get).bindings.depth
    if left ≠ 0 then throw (.leftover (book.shown e) left)
    return o
  Walk.record (.optimized (← site.written e) o.isKnown (← site.written o.expr))
  return o

/-- Fold the formula of a cell and remember its value, if it has one.  A cell without a formula
gives its literal value, an input a reference to itself. -/
def optimizeCell (a : Address) : Action := do
  match (book.get a).formula with
  | none => opt.optimize book (some (.cell a)) none
  | some formula =>
    if (← get).active.contains a then (opt.site book none).dynamic (.cell a)
    else Walk.marking a do
      let o ← opt.optimize book (some formula) (some a)
      if let .known v t := o then remember a v t
      return o

end Optimizer

end FormulaFold
