import FormulaFold.Formula.Printer

/-! # Workbooks

A workbook holds the cells and sections that formulas refer to.  A cell has a literal value, a
formula, or is an input whose value is only known when the workbook runs.  A section is a
repeating group of rows and may lie inside another one.
-/
namespace FormulaFold

/-- A repeating group of rows. -/
structure Section where
  name : String
  parent : Option String
deriving DecidableEq, Inhabited

/-- What a workbook knows about one cell. -/
structure Cell where
  address : Address
  inSection? : Option String
  value : Value
  formula : Option Expr
  input : Bool
  type : DataType

namespace Cell

/-- A cell about which nothing is known. -/
def blank (a : Address) : Cell := ⟨a, none, .null, none, false, .unknown⟩

/-- Whether the cell has no value, no formula and is no input. -/
def isBlank (c : Cell) : Bool := c.value.isNull && c.formula.isNone && !c.input

end Cell

/-- The cells and sections of a workbook; each address and each name occurs once. -/
structure Workbook where
  cells : List Cell
  sections : List Section

namespace Workbook

/-- The workbook without cells. -/
def empty : Workbook := ⟨[], []⟩

/-- The cell at an address, if the workbook has it. -/
def find? (book : Workbook) (a : Address) : Option Cell :=
  book.cells.find? fun c => c.address = a

/-- The cell at an address, blank when the workbook does not have it. -/
def get (book : Workbook) (a : Address) : Cell := (book.find? a).getD (.blank a)

/-- Put a cell in the place of the one at its address, or at the end. -/
def put (book : Workbook) (cell : Cell) : Workbook :=
  if (book.find? cell.address).isSome then
    { book with
      cells := book.cells.map fun c => if c.address = cell.address then cell else c }
  else { book with cells := book.cells ++ [cell] }

/-- Have a cell at the address, a blank one if need be. -/
def touch (book : Workbook) (a : Address) : Workbook :=
  if (book.find? a).isSome then book else { book with cells := book.cells ++ [.blank a] }

/-- The data type of the cell at an address. -/
def cellType (book : Workbook) (a : Address) : DataType := (book.get a).type

/-- The cells by sheet, row and column. -/
def sorted (book : Workbook) : List Cell :=
  book.cells.mergeSort fun a b => a.address.before b.address

/-- The section with the given name. -/
def findSection? (book : Workbook) (name : String) : Option Section :=
  book.sections.find? fun s => s.name = name

/-- Have a section with the given name. -/
def touchSection (book : Workbook) (name : String) : Workbook :=
  if (book.findSection? name).isSome then book
  else { book with sections := book.sections ++ [⟨name, none⟩] }

/-- Put a section inside another one. -/
def setParent (book : Workbook) (name parent : String) : Workbook :=
  let book := (book.touchSection name).touchSection parent
  { book with
    sections := book.sections.map fun s =>
      if s.name = name then { s with parent := some parent } else s }

/-- The name of a section after those of up to `n` sections around it. -/
def pathUp (book : Workbook) : (n : Nat) → String → String
  | 0, name => name
  | n + 1, name =>
    match (book.findSection? name).bind (·.parent) with
    | some parent => book.pathUp n parent ++ "." ++ name
    | none => name

/-- The name of a section after those of all sections around it. -/
def sectionPath (book : Workbook) (name : String) : String :=
  book.pathUp book.sections.length name

/-- The data type of a formula. -/
def typeOf? (book : Workbook) (e : Expr) : Option DataType := e.type? book.cellType

/-- A formula as text, if it can be written. -/
def render (book : Workbook) (e : Expr) : Option String := e.render book.sectionPath

/-- A formula as messages show it. -/
def shown (book : Workbook) (e : Expr) : String := e.shown book.sectionPath

end Workbook

end FormulaFold
