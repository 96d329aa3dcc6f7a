/-! # The functions of formulas -/
namespace FormulaFold

/-- A function that the engine can compute. -/
inductive Builtin where
  | abs
  | and
  | average
  | column
  | concatenate
  | ifElse
  | index
  | int
  | left
  | len
  | lower
  | max
  | min
  | mod
  | not
  | now
  | or
  | power
  | product
  | rand
  | right
  | round
  | row
  | sqrt
  | sum
  | today
  | upper
deriving DecidableEq, Inhabited

namespace Builtin

/-- All functions. -/
def all : List Builtin :=
  [abs, and, average, column, concatenate, ifElse, index, int, left, len, lower, max, min, mod,
    not, now, or, power, product, rand, right, round, row, sqrt, sum, today, upper]

/-- The name of a function in formulas. -/
def name : Builtin → String
  | abs => "ABS"
  | and => "AND"
  | average => "AVERAGE"
  | column => "COLUMN"
  | concatenate => "CONCATENATE"
  | ifElse => "IF"
  | index => "INDEX"
  | int => "INT"
  | left => "LEFT"
  | len => "LEN"
  | lower => "LOWER"
  | max => "MAX"
  | min => "MIN"
  | mod => "MOD"
  | not => "NOT"
  | now => "NOW"
  | or => "OR"
  | power => "POWER"
  | product => "PRODUCT"
  | rand => "RAND"
  | right => "RIGHT"
  | round => "ROUND"
  | row => "ROW"
  | sqrt => "SQRT"
  | sum => "SUM"
  | today => "TODAY"
  | upper => "UPPER"

/-- The function with the given name. -/
def ofName? (s : String) : Option Builtin := all.find? fun f => f.name == s

end Builtin

end FormulaFold
