import FormulaFold.Address
import FormulaFold.Formula.Kind
import FormulaFold.Formula.Op
import FormulaFold.Value

/-! # Formulas

A formula is a tree.  A child may be missing (`none`): trailing missing children are arguments
that were left out, and `trimmed` drops them.  A cell is referred to by its address and a
section by its name; what they hold is found in a workbook.

The folds share one description, `FoldDef`: accumulators with their first values and steps, the
names bound to each element, and what to do at the end.  A fold that was partly done already
carries the accumulated values as `seeds` and the number of elements that went into them.
-/
namespace FormulaFold

/-- One accumulator of a fold: its name, its first value and the step to its next value. -/
structure Accumulator (ε : Type) where
  name : String
  /-- Missing in reductions, which start from their first element. -/
  init : Option ε
  step : ε

/-- What a fold does with its elements. -/
structure FoldDef (ε : Type) where
  accumulators : List (Accumulator ε)
  /-- The names bound to each element; a fold of vectors binds one name per vector.  A missing
  list counts as empty. -/
  elements : Option (List String)
  /-- Bound to the position of the element, counted from 1, unless empty. -/
  index : String
  /-- Bound to the number of folded elements in `merge`, unless empty. -/
  count : String
  /-- The result from the final accumulators; without it, the first accumulator. -/
  merge : Option ε
  /-- The result of a fold that saw no elements. -/
  whenEmpty : Option ε
  /-- Whether elements may be folded out of order. -/
  commutative : Bool

/-- One case of a switch. -/
structure Case (ε : Type) where
  /-- The selector values that choose this case; a missing list counts as empty. -/
  values : Option (List Int)
  branch : Option ε

/-- The two folds over a list of elements; they differ in name only. -/
inductive FoldForm where
  | single
  | list
deriving DecidableEq, Inhabited

/-- A formula. -/
inductive Expr where
  | constant (value : Value) (type : DataType)
  | operator (op : Op) (operands : List (Option Expr)) (type : DataType)
  | call (fn : String) (args : List (Option Expr)) (type : DataType)
  | cell (address : Address)
  /-- A grid of elements in row-major order. -/
  | range (rows cols : Int) (elements : List (Option Expr))
  | letIn (name : String) (value body : Option Expr)
  | letVar (name : String) (type : DataType)
  /-- Arguments to be spliced into the list around them. -/
  | splice (elements : List (Option Expr))
  | switch (selector : Option Expr) (cases : List (Case Expr)) (otherwise : Option Expr)
      (type : DataType)
  | switchCase (case : Case Expr)
  | fold (form : FoldForm) (d : FoldDef Expr) (seeds : List Expr) (folded : Nat)
      (elements : List (Option Expr)) (type : DataType)
  | reduce (d : FoldDef Expr) (seed : Option Expr) (folded : Nat)
      (elements : List (Option Expr)) (type : DataType)
  | foldArray (d : FoldDef Expr) (array : Option Expr) (type : DataType)
  | foldVectors (d : FoldDef Expr) (seeds : List Expr) (folded : Nat)
      (vectors : List (Option Expr)) (type : DataType)
  /-- A fold of one column over the table rows that pass the filter. -/
  | foldTable (d : FoldDef Expr) (seeds : List Expr) (folded : Nat)
      (columns : Option (List String)) (filter : Option Expr) (foldColumn : Int)
      (table : Option Expr) (type : DataType)
  /-- The inner formula, seen from the enclosing section. -/
  | parentSection (name? : Option String) (inner : Option Expr)
  /-- The elements, once per row of a section. -/
  | subSection (name? : Option String) (elements : List (Option Expr))
  /-- The number of elements of the arguments, and `static` more. -/
  | count (static : Int) (args : List (Option Expr))

instance : Inhabited Expr := ⟨.constant .null .null⟩

/-- A list of optional children without the missing ones at its end. -/
def trimmed {α : Type} : List (Option α) → List (Option α)
  | [] => []
  | a :: as =>
    match a, trimmed as with
    | none, [] => []
    | a, as => a :: as

/-- The number of children, missing ones at the end not counted. -/
def cardinality {α : Type} (children : List (Option α)) : Nat := (trimmed children).length

namespace FoldDef

variable {ε : Type}

/-- The names bound to each element. -/
def elementNames (d : FoldDef ε) : List String := d.elements.getD []

/-- The names of the accumulators. -/
def accumulatorNames (d : FoldDef ε) : List String := d.accumulators.map (·.name)

/-- The first values of the accumulators. -/
def inits (d : FoldDef ε) : List (Option ε) := d.accumulators.map (·.init)

/-- The first values of the accumulators, or the seeds of a fold that was partly done. -/
def start (d : FoldDef ε) (seeds : List ε) : List (Option ε) :=
  if seeds.isEmpty then d.inits else seeds.map some

/-- The steps of the accumulators. -/
def steps (d : FoldDef ε) : List ε := d.accumulators.map (·.step)

/-- Whether elements have to be folded in the order in which they come. -/
def orderSensitive (d : FoldDef ε) : Bool := !d.commutative || d.index != ""

end FoldDef

/-- Whether a case is chosen by the selector value `k`. -/
def Case.matches {ε : Type} (c : Case ε) (k : Int) : Bool := (c.values.getD []).contains k

namespace Expr

/-- The kind of a node. -/
def kind : Expr → Kind
  | constant .. => .constant
  | operator .. => .operator
  | call .. => .function
  | cell _ => .cellRef
  | range .. => .range
  | letIn .. => .letIn
  | letVar .. => .letVar
  | splice _ => .substitution
  | switch .. => .switch
  | switchCase _ => .switchCase
  | fold .single .. => .fold
  | fold .list .. => .foldList
  | reduce .. => .reduce
  | foldArray .. => .foldArray
  | foldVectors .. => .foldVectors
  | foldTable .. => .foldDatabase
  | parentSection .. => .parentSection
  | subSection .. => .subSection
  | count .. => .count

/-- The children of a node, in order. -/
def children : Expr → List (Option Expr)
  | constant .. | cell _ | letVar .. => []
  | operator _ args _ | call _ args _ | range _ _ args | splice args | subSection _ args
  | count _ args => args
  | fold _ _ _ _ elements _ | reduce _ _ _ elements _ => elements
  | foldVectors _ _ _ vectors _ => vectors
  | letIn _ value body => [value, body]
  | switch selector cases otherwise _ =>
    selector :: (cases.map (fun c => some (switchCase c)) ++ [otherwise])
  | switchCase c => [c.branch]
  | foldArray _ array _ => [array]
  | foldTable _ _ _ _ _ _ table _ => [table]
  | parentSection _ inner => [inner]

mutual
/-- The data type of a formula, given those of the cells; `none` when it is that of a missing
child. -/
def type? (cellType : Address → DataType) : Expr → Option DataType
  | constant _ t | operator _ _ t | call _ _ t | letVar _ t | switch _ _ _ t | fold _ _ _ _ _ t
  | reduce _ _ _ _ t | foldArray _ _ t | foldVectors _ _ _ _ t | foldTable _ _ _ _ _ _ _ t =>
    some t
  | cell a => some (cellType a)
  | range .. | splice _ | subSection .. => some .unknown
  | count .. => some .numeric
  | letIn _ _ body => typeOf? cellType body
  | switchCase ⟨_, branch⟩ => typeOf? cellType branch
  | parentSection _ inner => typeOf? cellType inner
/-- The data type of a child; `none` when it is missing. -/
def typeOf? (cellType : Address → DataType) : Option Expr → Option DataType
  | none => none
  | some e => type? cellType e
end

/-- Why a node cannot take the children it is given. -/
inductive ShapeError where
  | arity (kind : Kind) (want got : Nat)
  | switchArity (got : Nat)
  | notACase (child : Option Kind)

/-- The cases among the children of a switch. -/
def casesOf : List (Option Expr) → Except ShapeError (List (Case Expr))
  | [] => .ok []
  | some (switchCase c) :: rest => do return c :: (← casesOf rest)
  | child :: _ => .error (.notACase (child.map kind))

/-- The node with other children.  A range whose shape no longer fits becomes a single row. -/
def withChildren (e : Expr) (args : List (Option Expr)) : Except ShapeError Expr :=
  let arity (want : Nat) : ShapeError := .arity e.kind want args.length
  match e with
  | constant .. | cell _ | letVar .. => if args.isEmpty then .ok e else .error (arity 0)
  | operator op _ t => .ok (operator op args t)
  | call fn _ t => .ok (call fn args t)
  | range rows cols _ =>
    if (args.length : Int) = wrap (rows * cols) then .ok (range rows cols args)
    else .ok (range 1 args.length args)
  | letIn name _ _ =>
    match args with
    | [value, body] => .ok (letIn name value body)
    | _ => .error (arity 2)
  | splice _ => .ok (splice args)
  | switch _ _ _ t =>
    match args with
    | selector :: second :: rest => do
      let cases ← casesOf (second :: rest).dropLast
      return switch selector cases ((second :: rest).getLastD none) t
    | _ => .error (.switchArity args.length)
  | switchCase c =>
    match args with
    | [branch] => .ok (switchCase { c with branch })
    | _ => .error (arity 1)
  | fold form d seeds folded _ t => .ok (fold form d seeds folded args t)
  | reduce d seed folded _ t => .ok (reduce d seed folded args t)
  | foldArray d _ t =>
    match args with
    | [array] => .ok (foldArray d array t)
    | _ => .error (arity 1)
  | foldVectors d seeds folded _ t => .ok (foldVectors d seeds folded args t)
  | foldTable d seeds folded columns filter column _ t =>
    match args with
    | [table] => .ok (foldTable d seeds folded columns filter column table t)
    | _ => .error (arity 1)
  | parentSection s _ =>
    match args with
    | [inner] => .ok (parentSection s inner)
    | _ => .error (arity 1)
  | subSection s _ => .ok (subSection s args)
  | count static _ => .ok (count static args)

/-- A range of one column. -/
def vector (elements : List Expr) : Expr := range elements.length 1 (elements.map some)

end Expr

/-- The wording of a shape error.  A child that is no case is named by its type, and a missing
one as nothing. -/
def Expr.ShapeError.message : Expr.ShapeError → String
  | .arity kind want got =>
    kind.name ++ " takes " ++ toString want ++ " children, got " ++ toString got
  | .switchArity got =>
    "switch takes a selector and a default, got " ++ toString got ++ " children"
  | .notACase (some kind) =>
    "switch case must be a SwitchCase, got *formula." ++ kind.name
  | .notACase none => "switch case must be a SwitchCase, got <nil>"

end FormulaFold
