import FormulaFold.Formula.Expr

/-! # Formulas as text

`Expr.render` writes a formula.  A section is written with the names of the sections around it,
which the caller supplies.  A sub-section without a section cannot be written, and neither can
a formula that contains one; `Expr.shown` has a fixed text for those.
-/
namespace FormulaFold.Expr

/-- Whether an operand is put in parentheses: operators of two operands are. -/
def needsParens : Option Expr → Bool
  | some (operator op _ _) => !op.isUnary
  | _ => false

/-- Wrap an operand in parentheses where it needs them. -/
def parenthesise (operand : Option Expr) (text : String) : String :=
  if needsParens operand then "(" ++ text ++ ")" else text

/-- Operands with the operator between them; a lone operand of a negation or a percentage has
the operator at its side. -/
def operatorText (op : Op) (operands : List String) : String :=
  match op, operands with
  | .neg, [x] => "-" ++ x
  | .percent, [x] => x ++ "%"
  | op, xs => (" " ++ op.symbol ++ " ").intercalate xs

/-- A list separated by commas. -/
def commas (items : List String) : String := ", ".intercalate items

/-- The texts of the children that count, out of those of all children. -/
def listText (args : List (Option Expr)) (texts : List String) : String :=
  commas (texts.take (cardinality args))

/-- An accumulator with its first value, if it has one. -/
def accumulatorText (name : String) (init : Option String) : String :=
  match init with
  | some text => name ++ " = " ++ text
  | none => name

/-- The parts of a fold definition: accumulators, elements and steps, and the options in use. -/
def defText (d : FoldDef String) (inits : List (Option String)) (folded : Nat) : String :=
  let accs := d.accumulators.zipIdx.map fun (a, i) => accumulatorText a.name (inits[i]?.join)
  let option (label : String) (text : Option String) : List String :=
    match text with
    | some text => [label ++ text]
    | none => []
  let named (s : String) : Option String := if s = "" then none else some s
  "; ".intercalate <|
    [commas accs, commas d.elementNames ++ " => " ++ commas d.steps]
      ++ option "index " (named d.index)
      ++ option "count " (named d.count)
      ++ option "merge " d.merge
      ++ option "empty " d.whenEmpty
      ++ (if d.commutative then ["commutative"] else [])
      ++ (if 0 < folded then ["folded " ++ toString folded] else [])

/-- A fold: its name, its definition and what it folds. -/
def foldText (name definition elements : String) : String :=
  name ++ "[" ++ definition ++ "](" ++ elements ++ ")"

/-- A case of a switch: its values and its branch. -/
def caseText (values : Option (List Int)) (branch : String) : String :=
  commas ((values.getD []).map toString) ++ ": " ++ branch

/-- The part of a table fold's definition that names its columns and its filter. -/
def tableText (columns : List String) (filter : Option String) (foldColumn : Int) : String :=
  "; columns " ++ commas columns
    ++ (match filter with
        | some text => "; filter " ++ text
        | none => "")
    ++ (if 0 ≤ foldColumn then
          match columns[foldColumn.toNat]? with
          | some column => "; fold " ++ column
          | none => ""
        else "")

mutual
/-- A formula as text; `none` when a sub-section in it has no section. -/
def render (sectionPath : String → String) : Expr → Option String
  | constant v _ => some v.render
  | operator op operands _ => do
    let texts ← renderAll sectionPath operands
    return operatorText op (List.zipWith parenthesise operands texts)
  | call fn args _ => do
    return fn ++ "(" ++ listText args (← renderAll sectionPath args) ++ ")"
  | cell a => some a.render
  | range _ cols elements => do return gridText cols (← renderAll sectionPath elements)
  | letIn name value body => do
    let value ← renderChild sectionPath value
    let body ← renderChild sectionPath body
    return "LET(" ++ name ++ ", " ++ value ++ ", " ++ body ++ ")"
  | letVar name _ => some name
  | splice elements => do
    return "SPLICE(" ++ listText elements (← renderAll sectionPath elements) ++ ")"
  | switch selector cases otherwise _ => do
    let selector ← renderChild sectionPath selector
    let cases ← renderCases sectionPath cases
    let last ← renderOption sectionPath otherwise
    let last := match last with
      | some text => ["DEFAULT: " ++ text]
      | none => []
    return "SWITCH(" ++ commas (selector :: (cases ++ last)) ++ ")"
  | switchCase c => renderCase sectionPath c
  | fold form d seeds folded elements _ => do
    let d ← renderDef sectionPath seeds.isEmpty d
    let seeds ← renderSeeds sectionPath seeds
    let texts ← renderAll sectionPath elements
    return foldText (match form with | .single => "FOLD" | .list => "FOLD_LIST")
      (defText d (d.start seeds) folded) (listText elements texts)
  | reduce d seed folded elements _ => do
    let d ← renderDef sectionPath false d
    let seed ← renderOption sectionPath seed
    let texts ← renderAll sectionPath elements
    return foldText "REDUCE" (defText d [seed] folded) (listText elements texts)
  | foldArray d array _ => do
    let d ← renderDef sectionPath true d
    return foldText "FOLD_ARRAY" (defText d d.inits 0) (← renderChild sectionPath array)
  | foldVectors d seeds folded vectors _ => do
    let d ← renderDef sectionPath seeds.isEmpty d
    let seeds ← renderSeeds sectionPath seeds
    let texts ← renderAll sectionPath vectors
    return foldText "FOLD_VECTORS" (defText d (d.start seeds) folded) (listText vectors texts)
  | foldTable d seeds folded columns filter column table _ => do
    let d ← renderDef sectionPath seeds.isEmpty d
    let seeds ← renderSeeds sectionPath seeds
    let filter ← renderOption sectionPath filter
    let table ← renderChild sectionPath table
    return foldText "FOLD_DB"
      (defText d (d.start seeds) folded ++ tableText (columns.getD []) filter column) table
  | parentSection _ inner => do return "PARENT(" ++ (← renderChild sectionPath inner) ++ ")"
  | subSection none _ => none
  | subSection (some name) elements => do
    let texts ← renderAll sectionPath elements
    return "SECTION[" ++ sectionPath name ++ "](" ++ listText elements texts ++ ")"
  | count static args => do
    let texts ← renderAll sectionPath args
    let mark := if static = 0 then "" else "[" ++ toString static ++ "]"
    return "COUNT" ++ mark ++ "(" ++ listText args texts ++ ")"
/-- A child as text; a missing one is empty. -/
def renderChild (sectionPath : String → String) : Option Expr → Option String
  | none => some ""
  | some e => render sectionPath e
/-- A child as text, if there is one. -/
def renderOption (sectionPath : String → String) : Option Expr → Option (Option String)
  | none => some none
  | some e => (render sectionPath e).map some
/-- Every child as text. -/
def renderAll (sectionPath : String → String) : List (Option Expr) → Option (List String)
  | [] => some []
  | e :: es => do return (← renderChild sectionPath e) :: (← renderAll sectionPath es)
/-- Every seed as text. -/
def renderSeeds (sectionPath : String → String) : List Expr → Option (List String)
  | [] => some []
  | e :: es => do return (← render sectionPath e) :: (← renderSeeds sectionPath es)
/-- A case as text. -/
def renderCase (sectionPath : String → String) : Case Expr → Option String
  | ⟨values, branch⟩ => do return caseText values (← renderChild sectionPath branch)
/-- Every case as text. -/
def renderCases (sectionPath : String → String) : List (Case Expr) → Option (List String)
  | [] => some []
  | c :: cs => do return (← renderCase sectionPath c) :: (← renderCases sectionPath cs)
/-- An accumulator with its formulas as text, the first value only if it is asked for. -/
def renderAccumulator (sectionPath : String → String) (withInit : Bool) :
    Accumulator Expr → Option (Accumulator String)
  | ⟨name, init, step⟩ => do
    let init ← if withInit then renderOption sectionPath init else some none
    return ⟨name, init, ← render sectionPath step⟩
/-- Every accumulator with its formulas as text. -/
def renderAccumulators (sectionPath : String → String) (withInits : Bool) :
    List (Accumulator Expr) → Option (List (Accumulator String))
  | [] => some []
  | a :: as => do
    let a ← renderAccumulator sectionPath withInits a
    return a :: (← renderAccumulators sectionPath withInits as)
/-- A fold definition with its formulas as text; first values that something else replaces are
left out. -/
def renderDef (sectionPath : String → String) (withInits : Bool) :
    FoldDef Expr → Option (FoldDef String)
  | ⟨accumulators, elements, position, total, merge, whenEmpty, commutative⟩ => do
    return ⟨← renderAccumulators sectionPath withInits accumulators, elements, position, total,
      ← renderOption sectionPath merge, ← renderOption sectionPath whenEmpty, commutative⟩
end

/-- Shown in messages in place of a formula that cannot be written. -/
def unwritable : String :=
  "%!s(PANIC=String method: runtime error: invalid memory address or nil pointer dereference)"

/-- A formula as messages show it. -/
def shown (sectionPath : String → String) (e : Expr) : String :=
  (render sectionPath e).getD unwritable

end FormulaFold.Expr
