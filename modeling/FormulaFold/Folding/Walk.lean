import FormulaFold.Engine.Basic
import FormulaFold.Folding.Fault
import FormulaFold.Workbook

/-! # Walking a formula

Folding walks a formula.  On its way it keeps a state: what is remembered of cells found to be
constant, which cells' formulas are being walked, the bound names, statistics and a record of
events.  The state survives a fault: what was remembered before stays remembered.

What never changes during a walk is its `Site`: the engine, the workbook, whether folds may be
done in part, and the cell whose formula is walked.
-/
namespace FormulaFold

/-- Counts of what folding did. -/
structure Stats where
  /-- Formulas computed to a constant. -/
  folded : Nat
  /-- Constant computations left to the run. -/
  refused : Nat
  /-- Folds done in part. -/
  partialFolds : Nat
  /-- Cell references answered from memory. -/
  cacheHits : Nat
deriving DecidableEq, Inhabited

/-- No counts. -/
def Stats.zero : Stats := ⟨0, 0, 0, 0⟩

/-- The counts of two walks together. -/
def Stats.add (a b : Stats) : Stats :=
  ⟨a.folded + b.folded, a.refused + b.refused, a.partialFolds + b.partialFolds,
    a.cacheHits + b.cacheHits⟩

/-- Something worth telling that happened during a walk. -/
inductive Event where
  | leftToRun (formula : String) (reason : Failure)
  | notFinite (formula : String) (value : Float)
  | partialFold (kind : Kind) (folded held : Nat)
  | optimized (formula : String) (known : Bool) (result : String)
  | cached (cell : Address) (value : Value)

/-- A constant: a value and its data type. -/
structure Constant where
  value : Value
  type : DataType

/-- The constants remembered of cells. -/
abbrev Memo := List (Address × Constant)

namespace Memo

/-- The constant remembered of a cell. -/
def find? (memo : Memo) (a : Address) : Option Constant := memo.lookup a

/-- Remember a constant of a cell in the place of what was remembered of it. -/
def set (memo : Memo) (a : Address) (c : Constant) : Memo :=
  (a, c) :: memo.filter fun entry => entry.1 ≠ a

end Memo

/-- What a walk keeps. -/
structure WalkState where
  memo : Memo
  /-- The cells whose formulas are being walked. -/
  active : List Address
  bindings : Bindings
  stats : Stats
  /-- What happened so far, last first. -/
  events : List Event

/-- The state before anything was walked. -/
def WalkState.initial : WalkState := ⟨[], [], .empty, .zero, []⟩

/-- Mark a cell as being walked. -/
def WalkState.mark (s : WalkState) (a : Address) : WalkState :=
  { s with active := a :: s.active }

/-- Take the mark off a cell. -/
def WalkState.unmark (s : WalkState) (a : Address) : WalkState :=
  { s with active := s.active.filter (· ≠ a) }

/-- An action of a walk. -/
abbrev Walk := EStateM Fault WalkState

/-- The walk of one formula. -/
abbrev Action := Walk Outcome

/-- What stays the same while one formula is walked. -/
structure Site where
  engine : Engine
  book : Workbook
  /-- Whether a fold may be done in part. -/
  partialFolds : Bool
  /-- The cell whose formula is walked. -/
  origin : Option Address

namespace Walk

/-- Run `x`, then `after` on the state, whether `x` succeeded or not. -/
def ensuring {α : Type} (x : Walk α) (after : WalkState → WalkState) : Walk α := fun s =>
  match x s with
  | .ok a s => .ok a (after s)
  | .error e s => .error e (after s)

/-- Use the names that are bound. -/
def naming {α : Type} (x : Naming α) : Walk α := do
  match x (← get).bindings with
  | .ok a b =>
    modify fun s => { s with bindings := b }
    return a
  | .error e b =>
    modify fun s => { s with bindings := b }
    throw (.bindings e)

/-- Run `x` and then release the scope, whether `x` succeeded or not. -/
def releasing {α : Type} (scope : Scope) (x : Walk α) : Walk α := fun s =>
  match x s with
  | .ok a s => (do naming (.release scope); return a : Walk α) s
  | .error e s => (do naming (.release scope); throw e : Walk α) s

/-- Run `x` with a name bound to an outcome, or as undefined without one. -/
def binding {α : Type} (name : String) (outcome : Option Outcome) (x : Walk α) : Walk α := do
  let scope ← naming (match outcome with
    | some o => .bind name o
    | none => .hide name)
  releasing scope x

/-- Run `x` with names bound pairwise to outcomes. -/
def bindingAll {α : Type} (names : List String) (os : List Outcome) (x : Walk α) : Walk α := do
  let scope ← naming (.bindAll names os)
  releasing scope x

/-- Run `x` with no names bound; the names bound before are bound again afterwards. -/
def isolated {α : Type} (x : Walk α) : Walk α := do
  let outer := (← get).bindings
  modify fun s => { s with bindings := .empty }
  ensuring x fun s => { s with bindings := outer }

/-- Run `x` with a cell marked as being walked. -/
def marking {α : Type} (a : Address) (x : Walk α) : Walk α := do
  modify (·.mark a)
  ensuring x (·.unmark a)

/-- Record an event. -/
def record (e : Event) : Walk Unit := modify fun s => { s with events := e :: s.events }

/-- Change the counts. -/
def tally (f : Stats → Stats) : Walk Unit := modify fun s => { s with stats := f s.stats }

end Walk

namespace Site

/-- The text of a formula, which has to be writable. -/
def written (site : Site) (e : Expr) : Walk String :=
  match site.book.render e with
  | some text => pure text
  | none => throw .missing

/-- A formula as an outcome; its data type has to be defined. -/
def dynamic (site : Site) (e : Expr) : Action :=
  if (site.book.typeOf? e).isNone then throw .missing else pure (.ofExpr e)

/-- Complain about a formula. -/
def complain {α : Type} (site : Site) (c : Complaint) (e : Expr) : Walk α :=
  throw (.complaint c (site.book.shown e) site.origin)

end Site

/-- Remember a constant of a cell; it has to be the one already remembered, if there is one. -/
def remember (a : Address) (v : Value) (t : DataType) : Walk Unit := do
  if let some c := (← get).memo.find? a then
    if c.value.render ≠ v.render then throw (.conflict a c.value v)
  modify fun s => { s with memo := s.memo.set a ⟨v, t⟩ }
  Walk.record (.cached a v)

/-- Run the walks of children; a missing child is blank. -/
def runAll : List (Option Action) → Walk (List Outcome)
  | [] => pure []
  | none :: rest => do return .blank :: (← runAll rest)
  | some act :: rest => do
    let o ← act
    return o :: (← runAll rest)

/-- The children of a node after its walk: missing ones stay missing, and so do those that were
not walked. -/
def keepMissing : List (Option Expr) → List Outcome → List (Option Expr)
  | [], _ => []
  | _ :: cs, [] => none :: keepMissing cs []
  | c :: cs, o :: os => c.map (fun _ => o.expr) :: keepMissing cs os

/-- The node around its walked children. -/
def Site.residual (site : Site) (node : Expr) (args : List Outcome) : Action :=
  match node.withChildren (keepMissing node.children args) with
  | .ok e => site.dynamic e
  | .error e => throw (.children e)

/-- The constant that a computation gives, unless it is left to the run: an expected failure is,
and so is a number that is not finite. -/
def Site.tryConstant (site : Site) (node : Expr) (result : Except Failure Value) :
    Walk (Option Outcome) := do
  let refuse (event : String → Event) : Walk (Option Outcome) := do
    Walk.tally fun s => { s with refused := s.refused + 1 }
    Walk.record (event (← site.written node))
    return none
  match result with
  | .error f =>
    if f.expected then refuse fun text => .leftToRun text f
    else throw (.computing (site.book.shown node) f)
  | .ok v =>
    match v with
    | .number x =>
      if isFinite x then accept v
      else refuse fun text => .notFinite text x
    | v => accept v
where
  /-- Keep a computed value. -/
  accept (v : Value) : Walk (Option Outcome) := do
    let v := site.engine.adjust v
    Walk.tally fun s => { s with folded := s.folded + 1 }
    if v.dataType = .unknown then
      match site.book.typeOf? node with
      | some t => return some (.constant v t)
      | none => throw .missing
    else return some (.constant v v.dataType)

/-- Walk the children that are not `done` yet and, when all are constant, compute the node. -/
def Site.generic (site : Site) (node : Expr) (compute : List Value → Except Failure Value)
    (done : List Outcome) (todo : List (Option Action)) : Action := do
  let args := done ++ (← runAll todo)
  if args.all (·.isConstant) then
    if let some o ← site.tryConstant node (compute (Outcome.values args)) then
      return o
  site.residual node args

end FormulaFold
