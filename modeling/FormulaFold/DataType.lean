/-! # Data types

The coarse type of a formula or of a value.
-/
namespace FormulaFold

/-- What kind of value a formula yields, as far as that is known. -/
inductive DataType where
  | unknown
  | numeric
  | string
  | null
deriving DecidableEq, Inhabited

namespace DataType

/-- The name shown for a data type. -/
def name : DataType → String
  | unknown => "unknown"
  | numeric => "numeric"
  | string => "string"
  | null => "null"

/-- The data type with the given number; numbers outside the list stand for `unknown`. -/
def ofCode : Int → DataType
  | 1 => numeric
  | 2 => string
  | 3 => null
  | _ => unknown

/-- `t`, or `default` when `t` is unknown. -/
def orElse (t default : DataType) : DataType := if t = unknown then default else t

end DataType

end FormulaFold
