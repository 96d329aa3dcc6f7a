import FormulaFold.Document.Build
import FormulaFold.Running.Env

/-! # Inputs of a run

The values of input cells and the rows of sections.
-/
namespace FormulaFold

/-- What a run is given from outside. -/
structure Inputs where
  cells : List (Address × Value)
  sections : List (String × List Row)

/-- Why the inputs of a document cannot be used. -/
inductive InputError where
  | invalidReference (ref : String)
  | noCell (a : Address)
  /-- An error in the input with the given reference. -/
  | input (ref : String) (cause : InputError)
  /-- An error in a row of a section, counted from 1. -/
  | row (name : String) (position : Nat) (cause : InputError)

/-- The wording of an input error. -/
def InputError.message : InputError → String
  | invalidReference ref => "invalid cell reference " ++ Text.quote ref
  | noCell a => "no cell at " ++ a.render
  | input ref cause => "input " ++ ref ++ ": " ++ cause.message
  | row name position cause =>
    "section " ++ name ++ " row " ++ toString position ++ ": " ++ cause.message

namespace Inputs

/-- No inputs. -/
def empty : Inputs := ⟨[], []⟩

/-- The value of an input cell. -/
def cell? (inputs : Inputs) (a : Address) : Option Value := inputs.cells.lookup a

/-- The rows of a section; without a section there are none. -/
def rows (inputs : Inputs) (name? : Option String) : List Row :=
  (name?.bind fun name => inputs.sections.lookup name).getD []

/-- Give an input cell a value. -/
def setCell (inputs : Inputs) (a : Address) (v : Value) : Inputs :=
  { inputs with cells := (a, v) :: inputs.cells.filter (·.1 ≠ a) }

/-- Give a section its rows. -/
def setRows (inputs : Inputs) (name : String) (rows : List Row) : Inputs :=
  { inputs with sections := (name, rows) :: inputs.sections.filter (·.1 ≠ name) }

/-- The address of a cell that the workbook has. -/
def resolve (book : Workbook) (ref : String) : Except InputError Address :=
  match Address.parse ref with
  | .error rest => .error (.invalidReference rest)
  | .ok a => if (book.find? a).isSome then .ok a else .error (.noCell a)

/-- The values of a written row; an error is reported as part of `within`. -/
def resolveRow (book : Workbook) (within : String → InputError → InputError) :
    RowDoc → Except InputError Row
  | [] => .ok []
  | (ref, d) :: rest =>
    match resolve book ref with
    | .error e => .error (within ref e)
    | .ok a => do return (a, Value.ofDatum d) :: (← resolveRow book within rest)

/-- The rows of a written section, from the given position on. -/
def resolveRows (book : Workbook) (name : String) (position : Nat) :
    List RowDoc → Except InputError (List Row)
  | [] => .ok []
  | row :: rest => do
    let row ← resolveRow book (fun _ e => .row name position e) row
    return row :: (← resolveRows book name (position + 1) rest)

/-- The rows of all written sections. -/
def resolveSections (book : Workbook) :
    List (String × Option SectionDoc) → Except InputError (List (String × List Row))
  | [] => .ok []
  | (_, none) :: rest => resolveSections book rest
  | (name, some doc) :: rest => do
    let rows ← resolveRows book name 1 doc.rows.items
    return (name, rows) :: (← resolveSections book rest)

/-- The inputs that a document gives to its workbook. -/
def ofDocument (doc : Document) (book : Workbook) : Except InputError Inputs := do
  let cells ← resolveRow book InputError.input doc.inputs
  let sections ← resolveSections book doc.sections
  return ⟨cells, sections⟩

end Inputs

end FormulaFold
