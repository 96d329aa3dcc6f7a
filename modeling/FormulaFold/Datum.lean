import FormulaFold.Decimal.Layout
import FormulaFold.Decimal.Reading
import FormulaFold.Json.Basic

/-! # Plain data

What an untyped place in a document holds: a JSON value with its numbers read and its records
in the order of their names, each name once.
-/
namespace FormulaFold

/-- A JSON value read as plain data. -/
inductive Datum where
  | null
  | bool (b : Bool)
  | number (x : Float)
  | text (s : String)
  | list (items : List Datum)
  | record (fields : List (String × Datum))
deriving Inhabited

namespace Datum

/-- Set a field of a record whose names are in rising order. -/
def setField (name : String) (value : Datum) : List (String × Datum) → List (String × Datum)
  | [] => [(name, value)]
  | (n, v) :: rest =>
    if name = n then (name, value) :: rest
    else if name < n then (name, value) :: (n, v) :: rest
    else (n, v) :: setField name value rest

mutual
/-- Read a JSON value as plain data; `none` when a number is too large. -/
def ofJson? : Json → Option Datum
  | .null => some null
  | .bool b => some (bool b)
  | .number literal => (Decimal.readNumber? literal).map number
  | .string s => some (text s)
  | .list items => (ofItems? items).map list
  | .object members => (ofMembers? members []).map record
/-- Read every item of a list. -/
def ofItems? : List Json → Option (List Datum)
  | [] => some []
  | item :: items => do return (← ofJson? item) :: (← ofItems? items)
/-- Set the members of an object one after the other, so that the last of a name stays. -/
def ofMembers? : List (String × Json) → List (String × Datum) → Option (List (String × Datum))
  | [], fields => some fields
  | (name, value) :: members, fields => do
    let v ← ofJson? value
    ofMembers? members (setField name v fields)
end

mutual
/-- Plain data as messages show it. -/
def render : Datum → String
  | null => "<nil>"
  | bool b => if b then "true" else "false"
  | number x => Decimal.dataLayout.text x
  | text s => s
  | list items => "[" ++ " ".intercalate (renderItems items) ++ "]"
  | record fields => "map[" ++ " ".intercalate (renderFields fields) ++ "]"
/-- The items of a list as messages show them. -/
def renderItems : List Datum → List String
  | [] => []
  | item :: items => render item :: renderItems items
/-- The fields of a record as messages show them. -/
def renderFields : List (String × Datum) → List String
  | [] => []
  | (name, value) :: fields => (name ++ ":" ++ render value) :: renderFields fields
end

end Datum

end FormulaFold
