/-! # JSON text as a tree

A JSON value as it was written: objects keep their members in order, repeated names included,
and numbers keep their literal, since whether a literal is an integer depends on its spelling.
-/
namespace FormulaFold

/-- A JSON value as written. -/
inductive Json where
  | null
  | bool (b : Bool)
  | number (literal : String)
  | string (s : String)
  | list (items : List Json)
  | object (members : List (String × Json))
deriving Inhabited

namespace Json

/-- The last member with the given name. -/
def member? (name : String) : Json → Option Json
  | object members => (members.reverse.find? (·.1 == name)).map (·.2)
  | _ => none

end Json

end FormulaFold
