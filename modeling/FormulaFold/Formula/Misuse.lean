/-! # Folds that do not fit their elements

The ways in which the elements of a fold can disagree with its definition.  They are found both
when a formula is folded ahead of a run and when it is run.
-/
namespace FormulaFold

/-- How elements disagree with a fold definition. -/
inductive FoldMisuse where
  | elementNames (got want : Nat)
  | noElementName
  | vectorCount (got want : Nat)
  /-- A vector, counted from 1, is not as long as the first one. -/
  | vectorLength (position length first : Nat)
  | columnCount (cols : Int) (named : Nat)
  | foldColumn (position cols : Int)

/-- The wording of a misuse. -/
def FoldMisuse.message : FoldMisuse → String
  | elementNames got want =>
    toString got ++ " elements for " ++ toString want ++ " element names"
  | noElementName => "reduction without an element name"
  | vectorCount got want =>
    toString got ++ " vectors for " ++ toString want ++ " element names"
  | vectorLength position length first =>
    "vector " ++ toString position ++ " has " ++ toString length ++ " elements, vector 1 has " ++
      toString first
  | columnCount cols named =>
    "table has " ++ toString cols ++ " columns, " ++ toString named ++ " are named"
  | foldColumn position cols =>
    "fold column " ++ toString position ++ " of " ++ toString cols

end FormulaFold
