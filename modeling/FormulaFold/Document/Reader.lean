import FormulaFold.Document.Basic
import FormulaFold.Json.Reader
import FormulaFold.Text.Caseless
import FormulaFold.Word

/-! # Reading documents

A JSON value is read *into* a document part that may hold something already, since a field may
be written more than once: text, numbers, flags and plain data are replaced, parts with fields
of their own are read into what is there, lists item by item into the places that are there, and
maps are merged name by name.  `null` empties optional parts, lists and maps and leaves text,
numbers and flags alone.

Field names match in any letter case.  With `strict` set an unknown field is refused, otherwise
it is skipped.  Every reader gives `none` on a value of the wrong type.
-/
namespace FormulaFold.Document

/-- Read text. -/
def readText? (old : String) : Json → Option String
  | .null => some old
  | .string s => some s
  | _ => none

/-- Read a truth value. -/
def readFlag? (old : Bool) : Json → Option Bool
  | .null => some old
  | .bool b => some b
  | _ => none

/-- The integer written by a number literal without fraction and exponent, if it is a word. -/
def wordOfLiteral? (literal : String) : Option Int := do
  let (negative, ds) := match literal.toList with
    | '-' :: ds => (true, ds)
    | ds => (false, ds)
  if ds.isEmpty ∨ ¬ ds.all Char.isDigit then none
  let n : Int := ds.foldl (fun n c => n * 10 + (c.toNat - '0'.toNat)) 0
  let n := if negative then -n else n
  if fitsWord n then some n else none

/-- Read an integer. -/
def readInteger? (old : Int) : Json → Option Int
  | .null => some old
  | .number literal => wordOfLiteral? literal
  | _ => none

/-- Read the items of a list into the places that are there. -/
def readItems? {α : Type} (read? : α → Json → Option α) (zero : α) :
    List α → List Json → Option (List α)
  | _, [] => some []
  | [], j :: js => do return (← read? zero j) :: (← readItems? read? zero [] js)
  | old :: olds, j :: js => do return (← read? old j) :: (← readItems? read? zero olds js)

/-- Read a list; `null` leaves no list. -/
def readList? {α : Type} (read? : α → Json → Option α) (zero : α) (old : Option (Slots α)) :
    Json → Option (Option (Slots α))
  | .null => some none
  | .list items =>
    let old := old.getD {}
    (readItems? read? zero old.places items).map fun items => some (old.renew items)
  | _ => none

/-- Set an entry of a map that keeps the order in which names came first. -/
def setEntry {α : Type} (name : String) (value : α) : List (String × α) → List (String × α)
  | [] => [(name, value)]
  | (n, v) :: rest =>
    if n = name then (name, value) :: rest else (n, v) :: setEntry name value rest

/-- Read the members of an object into a map, each value afresh. -/
def readEntries? {α : Type} (read? : Json → Option α) :
    List (String × α) → List (String × Json) → Option (List (String × α))
  | entries, [] => some entries
  | entries, (name, j) :: rest => do
    let v ← read? j
    readEntries? read? (setEntry name v entries) rest

/-- Read a map; `null` empties it. -/
def readMap? {α : Type} (read? : Json → Option α) (old : List (String × α)) :
    Json → Option (List (String × α))
  | .null => some []
  | .object members => readEntries? read? old members
  | _ => none

/-- Read runtime values by cell reference. -/
def readRow? (old : RowDoc) (j : Json) : Option RowDoc := readMap? Datum.ofJson? old j

mutual
/-- Read a node where one may be missing. -/
def readNode? (strict : Bool) (old : Option NodeDoc) : Json → Option (Option NodeDoc)
  | .null => some none
  | .object members => (readNodeFields? strict (old.getD {}) members).map some
  | _ => none
/-- Read the fields of a node. -/
def readNodeFields? (strict : Bool) (old : NodeDoc) : List (String × Json) → Option NodeDoc
  | [] => some old
  | (name, j) :: rest => do
    let next ← match Text.caseless name with
      | "kind" => (readText? old.kind j).map fun v => { old with kind := v }
      | "value" => (Datum.ofJson? j).map fun v => { old with value := v }
      | "type" => (readText? old.type j).map fun v => { old with type := v }
      | "op" => (readText? old.op j).map fun v => { old with op := v }
      | "fn" => (readText? old.fn j).map fun v => { old with fn := v }
      | "cell" => (readText? old.cell j).map fun v => { old with cell := v }
      | "name" => (readText? old.name j).map fun v => { old with name := v }
      | "rows" => (readInteger? old.rows j).map fun v => { old with rows := v }
      | "cols" => (readInteger? old.cols j).map fun v => { old with cols := v }
      | "values" => (readList? readInteger? 0 old.values j).map fun v => { old with values := v }
      | "section" => (readText? old.sectionName j).map fun v => { old with sectionName := v }
      | "static" => (readInteger? old.static j).map fun v => { old with static := v }
      | "def" => (readDef? strict old.foldDef j).map fun v => { old with foldDef := v }
      | "columns" => (readList? readText? "" old.columns j).map fun v => { old with columns := v }
      | "filter" => (readNode? strict old.filter j).map fun v => { old with filter := v }
      | "fold_column" =>
        (readInteger? old.foldColumn j).map fun v => { old with foldColumn := v }
      | "args" => (readArgs? strict old.args j).map fun v => { old with args := v }
      | _ => if strict then none else some old
    readNodeFields? strict next rest
/-- Read a list of nodes. -/
def readArgs? (strict : Bool) (old : Slots (Option NodeDoc)) :
    Json → Option (Slots (Option NodeDoc))
  | .null => some {}
  | .list items => (readNodes? strict old.places items).map old.renew
  | _ => none
/-- Read the items of a list of nodes into the places that are there. -/
def readNodes? (strict : Bool) :
    List (Option NodeDoc) → List Json → Option (List (Option NodeDoc))
  | _, [] => some []
  | old, j :: js => do
    let node ← readNode? strict (old.head?.join) j
    return node :: (← readNodes? strict old.tail js)
/-- Read a fold definition where one may be missing. -/
def readDef? (strict : Bool) (old : Option (FoldDefDoc NodeDoc)) :
    Json → Option (Option (FoldDefDoc NodeDoc))
  | .null => some none
  | .object members => (readDefFields? strict (old.getD {}) members).map some
  | _ => none
/-- Read the fields of a fold definition. -/
def readDefFields? (strict : Bool) (old : FoldDefDoc NodeDoc) :
    List (String × Json) → Option (FoldDefDoc NodeDoc)
  | [] => some old
  | (name, j) :: rest => do
    let next ← match Text.caseless name with
      | "accumulators" =>
        (readAccumulators? strict old.accumulators j).map fun v => { old with accumulators := v }
      | "elements" =>
        (readList? readText? "" old.elements j).map fun v => { old with elements := v }
      | "index" => (readText? old.index j).map fun v => { old with index := v }
      | "count" => (readText? old.count j).map fun v => { old with count := v }
      | "merge" => (readNode? strict old.merge j).map fun v => { old with merge := v }
      | "when_empty" => (readNode? strict old.whenEmpty j).map fun v => { old with whenEmpty := v }
      | "commutative" => (readFlag? old.commutative j).map fun v => { old with commutative := v }
      | _ => if strict then none else some old
    readDefFields? strict next rest
/-- Read a list of accumulators. -/
def readAccumulators? (strict : Bool) (old : Slots (AccumulatorDoc NodeDoc)) :
    Json → Option (Slots (AccumulatorDoc NodeDoc))
  | .null => some {}
  | .list items => (readAccumulatorItems? strict old.places items).map old.renew
  | _ => none
/-- Read the items of a list of accumulators into the places that are there. -/
def readAccumulatorItems? (strict : Bool) :
    List (AccumulatorDoc NodeDoc) → List Json → Option (List (AccumulatorDoc NodeDoc))
  | _, [] => some []
  | old, j :: js => do
    let acc ← readAccumulator? strict (old.head?.getD {}) j
    return acc :: (← readAccumulatorItems? strict old.tail js)
/-- Read an accumulator; `null` leaves it alone. -/
def readAccumulator? (strict : Bool) (old : AccumulatorDoc NodeDoc) :
    Json → Option (AccumulatorDoc NodeDoc)
  | .null => some old
  | .object members => readAccumulatorFields? strict old members
  | _ => none
/-- Read the fields of an accumulator. -/
def readAccumulatorFields? (strict : Bool) (old : AccumulatorDoc NodeDoc) :
    List (String × Json) → Option (AccumulatorDoc NodeDoc)
  | [] => some old
  | (name, j) :: rest => do
    let next ← match Text.caseless name with
      | "name" => (readText? old.name j).map fun v => { old with name := v }
      | "init" => (readNode? strict old.init j).map fun v => { old with init := v }
      | "step" => (readNode? strict old.step j).map fun v => { old with step := v }
      | _ => if strict then none else some old
    readAccumulatorFields? strict next rest
end

/-- Read the fields of a cell. -/
def readCellFields? (old : CellDoc) : List (String × Json) → Option CellDoc
  | [] => some old
  | (name, j) :: rest => do
    let next ← match Text.caseless name with
      | "value" => (Datum.ofJson? j).map fun v => { old with value := v }
      | "expr" => (readNode? true old.expr j).map fun v => { old with expr := v }
      | "input" => (readFlag? old.input j).map fun v => { old with input := v }
      | "section" => (readText? old.sectionName j).map fun v => { old with sectionName := v }
      | "type" => (readText? old.type j).map fun v => { old with type := v }
      | _ => none
    readCellFields? next rest

/-- Read a cell where one may be missing. -/
def readCell? : Json → Option (Option CellDoc)
  | .null => some none
  | .object members => (readCellFields? {} members).map some
  | _ => none

/-- Read the fields of a section. -/
def readSectionFields? (old : SectionDoc) : List (String × Json) → Option SectionDoc
  | [] => some old
  | (name, j) :: rest => do
    let next ← match Text.caseless name with
      | "parent" => (readText? old.parent j).map fun v => { old with parent := v }
      | "rows" =>
        (readList? readRow? [] (some old.rows) j).map fun v => { old with rows := v.getD {} }
      | _ => none
    readSectionFields? next rest

/-- Read a section where one may be missing. -/
def readSection? : Json → Option (Option SectionDoc)
  | .null => some none
  | .object members => (readSectionFields? {} members).map some
  | _ => none

/-- Read the fields of a document. -/
def readFields? (old : Document) : List (String × Json) → Option Document
  | [] => some old
  | (name, j) :: rest => do
    let next ← match Text.caseless name with
      | "sections" => (readMap? readSection? old.sections j).map fun v => { old with sections := v }
      | "cells" => (readMap? readCell? old.cells j).map fun v => { old with cells := v }
      | "inputs" => (readRow? old.inputs j).map fun v => { old with inputs := v }
      | _ => none
    readFields? next rest

/-- The document of a JSON value. -/
def ofJson? : Json → Option Document
  | .null => some {}
  | .object members => readFields? {} members
  | _ => none

/-- The document written at the front of a text. -/
def read? (text : String) : Option Document := (Json.readFirst? text).bind ofJson?

end FormulaFold.Document
