import FormulaFold.DataType
import FormulaFold.Datum
import FormulaFold.Text.Quoted

/-! # Values

The values that formulas compute with, and how a formula writes them.  An array is a list of
values in row-major order together with its shape; the two need not agree when the array came
from outside.
-/
namespace FormulaFold

/-- A value of a formula. -/
inductive Value where
  | null
  | bool (b : Bool)
  | number (x : Float)
  /-- A whole number handed in from outside; computing turns it into a `number`. -/
  | integer (n : Int)
  | text (s : String)
  | array (rows cols : Int) (values : List Value)
  /-- Data that formulas pass on but cannot look into. -/
  | record (fields : List (String × Datum))
deriving Inhabited

/-- Grid items joined by commas, with a semicolon where a row of `cols` items ends. -/
def gridText (cols : Int) (items : List String) : String :=
  let joined := items.zipIdx.map fun (item, i) =>
    if i = 0 then item
    else if 0 < cols ∧ i % cols.toNat = 0 then "; " ++ item
    else ", " ++ item
  "\x7b" ++ "".intercalate joined ++ "\x7d"

namespace Value

/-- The data type a value carries. -/
def dataType : Value → DataType
  | null => .null
  | text _ => .string
  | bool _ | number _ | integer _ => .numeric
  | array .. | record _ => .unknown

/-- Whether the value is blank. -/
def isNull : Value → Bool
  | null => true
  | _ => false

/-- An array of the given shape; an empty shape stands for a single row. -/
def grid (rows cols : Int) (values : List Value) : Value :=
  if rows ≤ 0 ∨ cols ≤ 0 then array 1 values.length values else array rows cols values

/-- An array of one row. -/
def row (values : List Value) : Value := grid 1 values.length values

mutual
/-- A value as a formula writes it. -/
def render : Value → String
  | null => "NULL"
  | bool b => if b then "TRUE" else "FALSE"
  | number x => Decimal.formulaLayout.text x
  | integer n => toString n
  | text s => Text.quote s
  | array _ cols values => gridText cols (renderAll values)
  | record fields => (Datum.record fields).render
/-- Every value of a list as a formula writes it. -/
def renderAll : List Value → List String
  | [] => []
  | v :: vs => render v :: renderAll vs
end

/-- A value as it shows inside a group of spliced values in a message. -/
def renderPlain : Value → String
  | null => "<nil>"
  | bool b => if b then "true" else "false"
  | number x => Decimal.dataLayout.text x
  | text s => s
  | v => render v

mutual
/-- The value of plain data: lists become arrays of one row, records stay as they are. -/
def ofDatum : Datum → Value
  | .null => null
  | .bool b => bool b
  | .number x => number x
  | .text s => text s
  | .list items => row (ofData items)
  | .record fields => record fields
/-- The value of each item of a list. -/
def ofData : List Datum → List Value
  | [] => []
  | d :: ds => ofDatum d :: ofData ds
end

/-- The value inside a constant of a formula: whole numbers become numbers. -/
def asConstant : Value → Value
  | integer n => number (Float.ofInt n)
  | v => v

end Value

end FormulaFold
