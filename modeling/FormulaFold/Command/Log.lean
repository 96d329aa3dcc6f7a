import FormulaFold.Folding.Walk
import FormulaFold.Text.Blank

/-! # Log lines

A log line has a level, a message and named details, each written as `name=value`.  A value is
quoted when it could not be told from what surrounds it.
-/
namespace FormulaFold

/-- How important a log line is. -/
inductive LogLevel where
  | debug
  | info
deriving DecidableEq, Inhabited

/-- The name of a level. -/
def LogLevel.name : LogLevel → String
  | debug => "DEBUG"
  | info => "INFO"

/-- A log line. -/
structure LogLine where
  level : LogLevel
  message : String
  details : List (String × String)

namespace LogLine

/-- Whether a value with this character has to be quoted. -/
def needsQuotes (c : Char) : Bool :=
  let n := c.toNat
  if n < 0x80 then n ≤ 0x20 || c = '"' || c = '='
  else n = 0xFFFD || Text.isBlank c || !Text.printable c

/-- A value, quoted if need be. -/
def value (s : String) : String :=
  if s.isEmpty || s.toList.any needsQuotes then Text.quote s else s

/-- The line as text. -/
def render (line : LogLine) : String :=
  let all := [("level", line.level.name), ("msg", line.message)] ++ line.details
  " ".intercalate (all.map fun (name, v) => name ++ "=" ++ value v)

/-- A truth value in a log line. -/
def flag (b : Bool) : String := if b then "true" else "false"

/-- What a log says of an event. -/
def ofEvent : Event → LogLine
  | .leftToRun formula reason =>
    ⟨.debug, "left to runtime", [("expr", formula), ("reason", reason.message)]⟩
  | .notFinite formula x =>
    ⟨.debug, "refusing to fold non-finite value",
      [("expr", formula), ("value", Decimal.dataLayout.text x)]⟩
  | .partialFold kind folded held =>
    ⟨.debug, "partial fold",
      [("fold", kind.tag), ("folded", toString folded), ("held", toString held)]⟩
  | .optimized formula known result =>
    ⟨.debug, "optimized expression",
      [("expr", formula), ("folded", flag known), ("residual", result)]⟩
  | .cached cell v =>
    ⟨.debug, "cached cell result", [("cell", cell.render), ("value", v.render)]⟩

end LogLine

/-- Counts as the log writes them. -/
def Stats.summary (s : Stats) : String :=
  "folded " ++ toString s.folded ++ ", refused " ++ toString s.refused ++ ", partial folds " ++
    toString s.partialFolds ++ ", cache hits " ++ toString s.cacheHits

end FormulaFold
