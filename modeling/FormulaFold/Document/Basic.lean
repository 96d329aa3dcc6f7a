import FormulaFold.Datum

/-! # Workbook documents

The written form of a workbook: sections, cells and, for a run, input values and section rows.
A field that is not written has its default.  Formulas are written as nodes; which fields of a
node matter depends on its kind.
-/
namespace FormulaFold

/-- A written list.  When a list is written again with fewer items, the old items beyond them
are no longer part of it but keep their places: a longer list that is written after that is read
into them. -/
structure Slots (α : Type) where
  items : List α := []
  /-- What is left in the places after the items. -/
  spare : List α := []

namespace Slots

/-- All places of a list, those after its items included. -/
def places {α : Type} (s : Slots α) : List α := s.items ++ s.spare

/-- The list with new items in its first places; a list without items has no places left. -/
def renew {α : Type} (s : Slots α) (items : List α) : Slots α :=
  ⟨items, if items.isEmpty then [] else s.places.drop items.length⟩

end Slots

/-- A written accumulator. -/
structure AccumulatorDoc (ν : Type) where
  name : String := ""
  init : Option ν := none
  step : Option ν := none

/-- A written fold definition. -/
structure FoldDefDoc (ν : Type) where
  accumulators : Slots (AccumulatorDoc ν) := {}
  elements : Option (Slots String) := none
  index : String := ""
  count : String := ""
  merge : Option ν := none
  whenEmpty : Option ν := none
  commutative : Bool := false

/-- A written formula node. -/
structure NodeDoc where
  kind : String := ""
  value : Datum := .null
  type : String := ""
  op : String := ""
  fn : String := ""
  cell : String := ""
  name : String := ""
  rows : Int := 0
  cols : Int := 0
  values : Option (Slots Int) := none
  sectionName : String := ""
  static : Int := 0
  foldDef : Option (FoldDefDoc NodeDoc) := none
  columns : Option (Slots String) := none
  filter : Option NodeDoc := none
  foldColumn : Int := 0
  args : Slots (Option NodeDoc) := {}

/-- A written cell. -/
structure CellDoc where
  value : Datum := .null
  expr : Option NodeDoc := none
  input : Bool := false
  sectionName : String := ""
  type : String := ""

/-- Runtime values by cell reference. -/
abbrev RowDoc := List (String × Datum)

/-- A written section. -/
structure SectionDoc where
  parent : String := ""
  rows : Slots RowDoc := {}

/-- A written workbook. -/
structure Document where
  sections : List (String × Option SectionDoc) := []
  cells : List (String × Option CellDoc) := []
  inputs : RowDoc := []

end FormulaFold
