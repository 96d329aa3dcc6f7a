/-! # Kinds of formula nodes

Every node of a formula has one of nineteen kinds.  A kind has a name, used in messages, and a
tag, used in documents.
-/
namespace FormulaFold

/-- The kind of a formula node. -/
inductive Kind where
  | constant
  | operator
  | function
  | cellRef
  | range
  | letIn
  | letVar
  | substitution
  | switch
  | switchCase
  | fold
  | reduce
  | foldArray
  | foldList
  | foldVectors
  | foldDatabase
  | parentSection
  | subSection
  | count
deriving DecidableEq, Inhabited

namespace Kind

/-- All kinds, in the order of their numbers. -/
def all : List Kind :=
  [constant, operator, function, cellRef, range, letIn, letVar, substitution, switch, switchCase,
    fold, reduce, foldArray, foldList, foldVectors, foldDatabase, parentSection, subSection, count]

/-- The name of a kind in messages. -/
def name : Kind → String
  | constant => "Constant"
  | operator => "Operator"
  | function => "Function"
  | cellRef => "CellRef"
  | range => "Range"
  | letIn => "Let"
  | letVar => "LetVar"
  | substitution => "Substitution"
  | switch => "Switch"
  | switchCase => "SwitchCase"
  | fold => "Fold"
  | reduce => "Reduce"
  | foldArray => "FoldArray"
  | foldList => "FoldList"
  | foldVectors => "FoldVectors"
  | foldDatabase => "FoldDatabase"
  | parentSection => "ParentSection"
  | subSection => "SubSection"
  | count => "Count"

/-- The tag of a kind in documents. -/
def tag : Kind → String
  | constant => "constant"
  | operator => "operator"
  | function => "function"
  | cellRef => "cell_ref"
  | range => "range"
  | letIn => "let"
  | letVar => "let_var"
  | substitution => "substitution"
  | switch => "switch"
  | switchCase => "switch_case"
  | fold => "fold"
  | reduce => "reduce"
  | foldArray => "fold_array"
  | foldList => "fold_list"
  | foldVectors => "fold_vectors"
  | foldDatabase => "fold_database"
  | parentSection => "parent_section"
  | subSection => "sub_section"
  | count => "count"

/-- The number of a kind. -/
def code (k : Kind) : Nat := all.idxOf k

/-- The kind with the given number. -/
def ofCode? (n : Nat) : Option Kind := all[n]?

/-- The name of a kind number, in or out of the list. -/
def codeName (n : Nat) : String :=
  match ofCode? n with
  | some k => k.name
  | none => "Kind(" ++ toString n ++ ")"

/-- The tag of a kind number, in or out of the list. -/
def codeTag (n : Nat) : String :=
  match ofCode? n with
  | some k => k.tag
  | none => "kind(" ++ toString n ++ ")"

/-- The kind with the given tag. -/
def ofTag? (tag : String) : Option Kind := all.find? fun k => k.tag == tag

end Kind

end FormulaFold
