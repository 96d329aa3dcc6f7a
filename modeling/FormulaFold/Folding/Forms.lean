import FormulaFold.Folding.Walk

/-! # Forms with rules of their own

Most functions are computed when all their arguments are constant.  The forms below do more: a
condition selects a branch before the other one is looked at, a decisive argument ends a
conjunction, a position is known without the referenced value, and so on.

A form gets the node and the walks of its children; it decides which of them to run.
-/
namespace FormulaFold

variable (site : Site)

/-- Run the walk of a child; a missing child has the given outcome. -/
def runOr (missing : Outcome) : Option Action → Action
  | some act => act
  | none => pure missing

/-- `IF`: a known condition selects its branch; a branch left out is zero or false. -/
def ifForm (node : Expr) (acts : List (Option Action)) : Action :=
  let compute := site.engine.call Builtin.ifElse.name
  match acts with
  | some condition :: branches => do
    let c ← condition
    let rest : Action := site.generic node compute [c] ((trimmed acts).drop 1)
    match c with
    | .known v _ =>
      match v.toBool with
      | .ok true => runOr (.constant (.number 0.0) .numeric) (branches[0]?.join)
      | .ok false => runOr (.constant (.bool false) .numeric) (branches[1]?.join)
      | .error f => if f.expected then rest else throw (.failed f)
    | .residual _ => rest
  | acts => site.generic node compute [] (trimmed acts)

/-- The truth of a constant argument of `AND` and `OR`; `none` when it is left to the run. -/
def truth? (fn : String) (o : Outcome) : Walk (Option Bool) :=
  let result : Except Failure Bool := match o with
    | .known v _ => v.toBool
    | .residual e => do (← site.engine.call fn [e.materialize]).toBool
  match result with
  | .ok b => pure (some b)
  | .error f =>
    if f.expected then pure none else throw (.failed f)

/-- Walk the arguments of `AND` and `OR` from the left up to a decisive one, which is `none`;
otherwise those that could not be decided are left. -/
def undecided? (fn : String) (decisive : Bool) : List (Option Action) → Walk (Option (List Expr))
  | [] => pure (some [])
  | none :: rest => undecided? fn decisive rest
  | some act :: rest => do
    let o ← act
    let known ← if o.isConstant then truth? site fn o else pure none
    if known = some decisive then return none
    let left ← undecided? fn decisive rest
    return if known.isNone then left.map (o.expr :: ·) else left

/-- `AND` and `OR`: constants that do not decide are dropped. -/
def boolForm (fn : String) (type : DataType) (decisive : Bool) (acts : List (Option Action)) :
    Action := do
  match ← undecided? site fn decisive (trimmed acts) with
  | none => return .constant (.bool decisive) .numeric
  | some [] => return .constant (.bool !decisive) .numeric
  | some left => site.dynamic (.call fn (left.map some) type)

/-- The index that an outcome gives, if it is a known number. -/
def indexOf? : Outcome → Option Int
  | .known v _ =>
    let i := v.toInt leastWord
    if i = leastWord then none else some i
  | .residual _ => none

/-- The range that `INDEX` looks into: its shape and the walks of its elements. -/
structure Grid where
  rows : Int
  cols : Int
  elements : List (Option Action)

/-- The place of an element by one index; `none` when a column is needed too. -/
def Grid.place? (grid : Grid) (i : Int) : Option (Except Complaint Int) :=
  if 1 < grid.rows ∧ 1 < grid.cols then none
  else if i < 1 then some (.error (.indexBelow i))
  else if grid.elements.length < i then some (.error (.indexAbove i grid.elements.length))
  else some (.ok (i - 1))

/-- The place of an element by row and column. -/
def Grid.placeAt (grid : Grid) (row col : Int) : Except Complaint Int :=
  if row < 1 ∨ col < 1 then .error (.pairBelow row col)
  else if grid.rows < row ∨ grid.cols < col then
    .error (.pairAbove row col grid.rows grid.cols)
  else .ok (wrap ((row - 1) * grid.cols + (col - 1)))

/-- Run the walk of the element at a place only. -/
def Grid.walkAt (grid : Grid) (node : Expr) : Except Complaint Int → Action
  | .error c => site.complain c node
  | .ok place =>
    match if 0 ≤ place then grid.elements[place.toNat]? else none with
    | some element => runOr .blank element
    | none => throw (.failed (.outsideArray grid.elements.length))

/-- `INDEX` into a range with known indices walks the selected element only; anything else is
computed from its arguments. -/
def indexForm (node : Expr) (grid? : Option Grid) (acts : List (Option Action)) : Action :=
  let acts := trimmed acts
  let generic (done : List Outcome) : Action :=
    site.generic node (site.engine.call Builtin.index.name) done (acts.drop done.length)
  match grid?, acts with
  | some grid, [some range, some first] => do
    let i ← first
    match (indexOf? i).bind grid.place? with
    | some place => grid.walkAt site node place
    | none => do
      let r ← range
      generic [r, i]
  | some grid, [some range, some first, some second] => do
    let i ← first
    match indexOf? i with
    | none => do
      let r ← range
      generic [r, i]
    | some row =>
      let j ← second
      match indexOf? j with
      | some col => grid.walkAt site node (grid.placeAt row col)
      | none => do
        let r ← range
        generic [r, i, j]
  | _, _ => generic []

/-- The cell whose position `ROW` and `COLUMN` give: the referenced one, or the origin when
there is no argument. -/
def positionCell (fn : String) (args : List (Option Expr)) : Except Failure Address :=
  match trimmed args, site.origin with
  | [], some a => .ok a
  | [some (.cell a)], _ => .ok a
  | [_], _ => .error (.computedPosition fn)
  | _, _ => .error (.needsOrigin fn)

/-- `ROW` and `COLUMN`: the position is known without walking the referenced cell. -/
def positionForm (node : Expr) (fn : String) (position : Address → Int)
    (args : List (Option Expr)) (acts : List (Option Action)) : Action := do
  let result := do
    let a ← positionCell site fn args
    return Value.number (Float.ofInt (position a))
  match ← site.tryConstant node result with
  | some o => return o
  | none => site.residual node (← runAll (trimmed acts))

/-- Append a run of adjacent constants to the merged arguments of `CONCATENATE`: joined into one
text where that can be computed, and one by one otherwise.  A lone known value is joined only
when it is the sole argument. -/
def flushRun (node : Expr) (sole : Bool) (run : List Outcome) : Walk (List Expr × Bool) := do
  let worth : Bool := match run with
    | [] => false
    | [o] => sole || !o.isKnown
    | _ => true
  if worth then
    let result := site.engine.call Builtin.concatenate.name (Outcome.values run)
    if let some o ← site.tryConstant node result then
      return ([o.expr], true)
  return (run.map (·.expr), false)

/-- Merge the walked arguments of `CONCATENATE`; `run` holds the constants since the last
argument that is none.  The flag says whether the last run was joined. -/
def mergeRuns (node : Expr) (sole : Bool) (run : List Outcome) :
    List Outcome → Walk (List Expr × Bool)
  | [] => flushRun site node sole run
  | o :: rest => do
    if o.isConstant then mergeRuns node sole (run ++ [o]) rest
    else
      let (joined, _) ← flushRun site node sole run
      let (merged, last) ← mergeRuns node sole [] rest
      return (joined ++ o.expr :: merged, last)

/-- `CONCATENATE` joins runs of adjacent constant arguments. -/
def concatForm (node : Expr) (fn : String) (type : DataType) (acts : List (Option Action)) :
    Action := do
  let args ← runAll (trimmed acts)
  if args.isEmpty then
    match ← site.tryConstant node (site.engine.call Builtin.concatenate.name []) with
    | some o => return o
    | none => site.dynamic node
  else
    let (merged, joined) ← mergeRuns site node (args.length == 1) [] args
    match merged, joined && args.all (·.isConstant) with
    | [e], true => return .ofExpr e
    | merged, _ => site.dynamic (.call fn (merged.map some) type)

/-- Any other function: computed from its arguments unless it is volatile. -/
def callForm (node : Expr) (fn : String) (acts : List (Option Action)) : Action :=
  let compute (args : List Value) : Except Failure Value :=
    if site.engine.isVolatile fn then .error (.volatile fn) else site.engine.call fn args
  site.generic node compute [] (trimmed acts)

/-- A node that is never computed, only rebuilt around its children. -/
def rebuildForm (node : Expr) (acts : List (Option Action)) : Action := do
  site.residual node (← runAll (trimmed acts))

/-- A name bound to a value in a body.  The binding stays around a residual body. -/
def letForm (name : String) (value body : Option Action) : Action := do
  let some value := value | throw .missing
  let v ← value
  let b ← Walk.binding name (if v.isConstant then some v else none) (runMissing body)
  match b with
  | .known .. => return b
  | .residual e => site.dynamic (.letIn name (some v.expr) (some e))
where
  /-- Run the walk of a child that has to be there. -/
  runMissing : Option Action → Action
    | some act => act
    | none => throw .missing

/-- A bound name stands for its outcome; one bound as undefined is left to the run. -/
def nameForm (name : String) (type : DataType) : Action := do
  match ← Walk.naming (.lookup name) with
  | some o => return o
  | none => site.dynamic (.letVar name type)

/-- A switch: a known selector selects a case, or the default when none matches. -/
def switchForm (node : Expr) (selector : Option Action) (cases : List (Case Action))
    (otherwise : Option Action) (acts : List (Option Action)) : Action := do
  let some selector := selector | throw .missing
  let o ← selector
  match o with
  | .known v _ =>
    let k := v.toInt leastWord
    match cases.find? (·.matches k) with
    | some c => runOr .blank c.branch
    | none => runOr .blank otherwise
  | .residual _ => do
    let rest ← runAll ((trimmed acts).drop 1)
    site.residual node (o :: rest)

/-- The inner formula of an enclosing section: a known value needs no section around it. -/
def parentForm (node : Expr) (inner : Option Action) : Action := do
  let some inner := inner | throw .missing
  let o ← inner
  match o with
  | .known .. => return o
  | .residual _ => site.residual node [o]

namespace Expr

mutual
/-- Whether a formula has a sub-section in it that a count would have to look into. -/
def hasSubSection : Expr → Bool
  | subSection .. => true
  | range _ _ elements | splice elements => anySubSection elements
  | parentSection _ inner => optionSubSection inner
  | _ => false
/-- Whether a child has a sub-section in it. -/
def optionSubSection : Option Expr → Bool
  | none => false
  | some e => hasSubSection e
/-- Whether one of the children has a sub-section in it. -/
def anySubSection : List (Option Expr) → Bool
  | [] => false
  | e :: rest => optionSubSection e || anySubSection rest
end

mutual
/-- The number of elements of a formula by its shape, and the sub-sections that are sized at run
time; an error is a sub-section with sub-sections inside. -/
def countParts : Expr → Except (Option String × Expr) (Int × List Expr)
  | subSection s elements =>
    if anySubSection elements then .error (s, subSection s elements)
    else .ok (0, [subSection s elements])
  | range _ _ elements | splice elements => countAll elements
  | parentSection _ none => .ok (1, [])
  | parentSection _ (some inner) => countParts inner
  | _ => .ok (1, [])
/-- The number of elements of children, a missing one counting as one. -/
def countAll : List (Option Expr) → Except (Option String × Expr) (Int × List Expr)
  | [] => .ok (0, [])
  | none :: rest => do
    let (n, sections) ← countAll rest
    return (wrap (n + 1), sections)
  | some e :: rest => do
    let (n, sections) ← countParts e
    let (m, more) ← countAll rest
    return (wrap (n + m), sections ++ more)
end

end Expr

/-- The number of elements of the arguments of a count; missing arguments do not count. -/
def countArgs : List (Option Expr) → Except (Option String × Expr) (Int × List Expr)
  | [] => .ok (0, [])
  | none :: rest => countArgs rest
  | some e :: rest => do
    let (n, sections) ← e.countParts
    let (m, more) ← countArgs rest
    return (wrap (n + m), sections ++ more)

/-- A count: known unless there are sub-sections, which are sized at run time. -/
def countForm (static : Int) (args : List (Option Expr)) : Action :=
  match countArgs (trimmed args) with
  | .error (s, e) => site.complain (.nestedSections (s.map site.book.sectionPath)) e
  | .ok (n, []) => pure (.constant (.number (Float.ofInt (wrap (static + n)))) .numeric)
  | .ok (n, sections) => site.dynamic (.count (wrap (static + n)) (sections.map some))

/-- A reference to a cell.  Inputs are left to the run; of any other cell, the constant that is
remembered or found is remembered.  A formula that refers to itself is left to the run. -/
def cellForm (enter : Address → Expr → Action) (a : Address) : Action := do
  let cell := site.book.get a
  if cell.input then return ← site.dynamic (.cell a)
  if let some c := (← get).memo.find? a then
    Walk.tally fun s => { s with cacheHits := s.cacheHits + 1 }
    return .constant c.value c.type
  match cell.formula with
  | some formula =>
    if (← get).active.contains a then return ← site.dynamic (.cell a)
    match ← Walk.marking a (Walk.isolated (enter a formula)) with
    | .known v t => do
      remember a v t
      return .known v t
    | .residual _ => site.dynamic (.cell a)
  | none =>
    let o : Outcome :=
      if cell.value.isNull then .blank
      else .constant (site.engine.literal cell.value) cell.type
    remember a o.value (o.type site.book.cellType)
    return o

end FormulaFold
