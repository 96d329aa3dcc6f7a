import FormulaFold.Toml.Reader

/-! # Tables

Carrying out the statements of a TOML text in order builds its table.  A key may be given a
value once.  A table that came into being only because a longer key runs through it is *loose*:
it may still be opened by a statement of its own, once.  A longer key may also run through a key
whose value was a list; an empty table then takes the place of the list.

A table that is written in one place is put into the table around it field by field, and so are
the tables inside a list.  Afterwards the whole value is given to its key, which is loose until
then: a table stays as it is, and a list takes the place of its tables.

The keys are kept in the order in which the text has them, those of tables written in one place
included.
-/
namespace FormulaFold.Toml

/-- What a key stands for. -/
inductive Item where
  | value (v : Written)
  | table (entries : List (String × Item))
  /-- An array of tables, the last one first. -/
  | tables (last : List (String × Item)) (earlier : List (List (String × Item)))

/-- The entries of a table. -/
abbrev Table := List (String × Item)

namespace Table

/-- Put an item in the place of the one with its name, or at the end. -/
def put (t : Table) (name : String) (item : Item) : Table :=
  if (t.lookup name).isSome then t.map fun e => if e.1 = name then (name, item) else e
  else t ++ [(name, item)]

/-- The table that a key leads to, of an array of tables the last one.  Where nothing stands yet
it is empty, and a value in the way gives `none`. -/
def at? : Key → Table → Option Table
  | [], t => some t
  | name :: rest, t =>
    match t.lookup name with
    | none => some []
    | some (.table inner) => at? rest inner
    | some (.tables last _) => at? rest last
    | some (.value _) => none

/-- Change the table that a key leads to.  Tables that are missing on the way come into being;
their keys are given, too.  Of an array of tables the last one is meant. -/
def change? (f : Table → Table) : (done key : Key) → Table → Option (Table × List Key)
  | _, [], t => some (f t, [])
  | done, name :: rest, t =>
    let here := done ++ [name]
    match t.lookup name with
    | none => do
      let (inner, made) ← change? f here rest []
      return (t.put name (.table inner), here :: made)
    | some (.table inner) => do
      let (inner, made) ← change? f here rest inner
      return (t.put name (.table inner), made)
    | some (.tables last earlier) => do
      let (last, made) ← change? f here rest last
      return (t.put name (.tables last earlier), made)
    | some (.value _) => none

/-- Put an item under a key of the table itself; what stands on the way has to be a table. -/
def insert? (item : Item) : Key → Table → Option Table
  | [], t => some t
  | [name], t => some (t.put name item)
  | name :: rest, t =>
    match t.lookup name with
    | none => do return t.put name (.table (← insert? item rest []))
    | some (.table inner) => do return t.put name (.table (← insert? item rest inner))
    | some _ => none

end Table

/-- A table being built. -/
structure Builder where
  root : Table
  /-- The keys of tables that may still be opened by a statement of their own. -/
  loose : List Key
  /-- The keys whose last value is a list, which is replaced when the key is loose. -/
  lists : List Key
  /-- The keys of the text, last first. -/
  keys : List Key

namespace Builder

/-- Nothing built yet. -/
def empty : Builder := ⟨[], [], [], []⟩

/-- Note a key of the text. -/
def note (b : Builder) (key : Key) : Builder := { b with keys := key :: b.keys }

/-- Let a key be opened by a statement of its own. -/
def loosen (b : Builder) (key : Key) : Builder := { b with loose := key :: b.loose }

/-- A key is opened by a statement of its own. -/
def settle (b : Builder) (key : Key) : Builder := { b with loose := b.loose.filter (· ≠ key) }

/-- Note whether the value of a name in a table is a list.  The empty name stands for the table
itself, if that has a key. -/
def noteList (b : Builder) (context : Key) (name : String) (isList : Bool) : Builder :=
  let key := if name = "" ∧ context ≠ [] then context else context ++ [name]
  let others := b.lists.filter (· ≠ key)
  { b with lists := if isList then key :: others else others }

/-- What stands under a key; a value in the way of the key gives `none`. -/
def item? (b : Builder) (key : Key) : Option (Option Item) :=
  (b.root.at? key.dropLast).map (·.lookup (key.getLastD ""))

/-- Put an item under a key, whatever stood there. -/
def put? (b : Builder) (key : Key) (item : Item) : Option Builder := do
  let (root, made) ← b.root.change? (·.put (key.getLastD "") item) [] key.dropLast
  return { b with root, loose := made ++ b.loose }

/-- Give a key an item.  Under a loose key, a list is replaced and anything else stays as it
is; any other key has to be free. -/
def define? (b : Builder) (key : Key) (item : Item) : Option Builder := do
  match ← b.item? key with
  | none => b.put? key item
  | some _ =>
    if !b.loose.contains key then none
    else if b.lists.contains key then (b.settle key).put? key item
    else return b.settle key

/-- Open the next table of an array of tables. -/
def nextTable? (b : Builder) (key : Key) : Option Builder := do
  match ← b.item? key with
  | none => b.put? key (.tables [] [])
  | some (.tables last earlier) => b.put? key (.tables [] (last :: earlier))
  | some _ => none

/-- Open a table, or the next one of an array. -/
def openTable? (b : Builder) (next : Bool) (key : Key) : Option Builder :=
  if next then b.nextTable? key else b.define? key (.table [])

/-- Run through the tables of a longer key, one part after the other: each becomes loose and is
opened, so that one that is there already is no longer loose. -/
def through? (b : Builder) (context : Key) : Key → Option Builder
  | [] => some b
  | name :: rest => do
    let here := context ++ [name]
    (← (b.loosen here).openTable? false here).through? here rest

end Builder

/-- Whether a value is a list. -/
def Written.isList : Written → Bool
  | list _ => true
  | _ => false

/-- The place of a key inside an open table: the table right around it and its last name. -/
def Key.place (context key : Key) : Key × String := (context ++ key.dropLast, key.getLastD "")

namespace Builder

/-- Run through the tables of a key and note it. -/
def enter? (b : Builder) (context key : Key) : Option Builder := do
  return (← b.through? context key.dropLast).note (context ++ key)

/-- Give a name inside a table the item of a value. -/
def give? (b : Builder) (place : Key × String) (v : Written) (item : Item) : Option Builder := do
  return (← b.define? (place.1 ++ [place.2]) item).noteList place.1 place.2 v.isList

end Builder

mutual
/-- The item of a value at a place; the tables inside the value are put there at once.  A table
that is an item of a list is the next one of an array. -/
def evaluate? (inList : Bool) (place : Key × String) (b : Builder) :
    Written → Option (Builder × Item)
  | .list items => do
    let b ← evaluateAll? place (b.noteList place.1 place.2 true) items
    return (b, .value (.list items))
  | .fields entries => do
    let here := place.1 ++ [place.2]
    let (b, t) ← assignAll? here (← (b.loosen here).openTable? inList here) [] entries
    return (b, .table t)
  | v => some (b, .value v)
/-- Put the tables inside a list where the list is. -/
def evaluateAll? (place : Key × String) (b : Builder) : List Written → Option Builder
  | [] => some b
  | v :: vs => do
    let (b, _) ← evaluate? true place b v
    evaluateAll? place b vs
/-- Give keys inside the table `context` their values; `t` is the table of these keys alone. -/
def assignAll? (context : Key) (b : Builder) (t : Table) :
    List (Key × Written) → Option (Builder × Table)
  | [] => some (b, t)
  | (key, v) :: rest => do
    let place := Key.place context key
    let (b, item) ← evaluate? false place (← b.enter? context key) v
    assignAll? context (← b.give? place v item) (← t.insert? item key) rest
end

/-- Give a key inside the table `context` a value. -/
def assign? (context : Key) (b : Builder) (key : Key) (v : Written) : Option Builder := do
  let place := Key.place context key
  let (b, item) ← evaluate? false place (← b.enter? context key) v
  b.give? place v item

/-- Carry out statements; `context` is the key of the table that is open. -/
def carryOut? (context : Key) (b : Builder) : List Statement → Option Builder
  | [] => some b
  | .table key :: rest => do
    let b ← b.openTable? false key
    carryOut? key ((b.noteList key "" false).note key) rest
  | .nextTable key :: rest => do
    let b ← b.openTable? true key
    carryOut? key ((b.noteList key "" false).note key) rest
  | .assign key v :: rest => do carryOut? context (← assign? context b key v) rest

/-- What a TOML text says: its table and its keys in order. -/
structure Contents where
  table : Table
  keys : List Key

/-- The contents of a text, or `none` when it is not TOML or gives a key twice. -/
def Contents.read? (text : String) : Option Contents := do
  let b ← carryOut? [] .empty (← Toml.read? text)
  return ⟨b.root, b.keys.reverse⟩

end FormulaFold.Toml
