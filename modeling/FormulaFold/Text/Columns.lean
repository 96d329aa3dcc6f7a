import FormulaFold.Text.BreakClass

/-! # Columns

How many columns of a terminal a cluster of characters takes: none, one or two.  The first
character decides, but a selector right after it may ask for its form as a picture, which takes
two.
-/
namespace FormulaFold.Text

/-- Runs above ASCII that take no column although they extend nothing: controls, format characters
and separators of lines and paragraphs. -/
def weightlessRuns : List Nat := [
  128, 32, 13, 1, 1362, 6, 22, 1, 192, 1, 49, 1, 384, 2, 80, 1, 3883, 1, 2044, 1, 1, 3, 24, 7, 49,
  5, 1, 10, 56975, 1, 249, 3, 2, 2, 4285, 1, 15, 1, 1616, 1, 7441, 16, 34912, 4, 5327, 8, 798342, 1]

/-- Runs of extending characters that take a column of their own: signs of vowels and tones,
halfwidth voicing marks, shades of skin. -/
def weightyRuns : List Nat := [
  2199, 1, 294, 1, 24, 1, 358, 1, 24, 1, 102, 1, 24, 1, 232, 1, 1, 1, 4, 2, 1, 2, 9, 2, 103, 1, 24,
  1, 119, 1, 15, 1, 2357, 1, 30, 1, 922, 15, 2, 12, 73, 1, 5, 1, 1, 1, 5, 2, 101, 1, 71, 2, 5178, 2,
  31011, 1, 108, 1, 21981, 2, 3529, 5, 396, 3, 707, 1, 116, 1, 264, 1, 14, 1, 9, 1, 96, 1, 2, 6, 1,
  1, 2, 1, 1, 3, 4, 3, 1, 1, 14, 2, 205, 1, 12, 1, 241, 1, 262, 1, 633, 1, 12, 1, 546, 1, 1, 3, 1,
  1, 986, 1, 24, 1, 16835, 12, 3, 3, 3776, 2, 24947, 2, 6, 6, 5243, 2, 243, 1, 2, 1, 7, 2, 5, 1,
  3333, 5]

/-- Whether a character above ASCII takes no column. -/
def isWeightless (c : Char) : Bool :=
  inTurns weightlessRuns c ||
    (inTurns extendingBasic c || inTurns extendingSupplementary c) && !inTurns weightyRuns c

/-- Runs that take two columns: wide and fullwidth forms, and what is shown as a picture. -/
def wideRuns : List Nat := [
  4352, 96, 4538, 2, 13, 2, 190, 4, 3, 1, 2, 1, 521, 2, 21, 2, 26, 8, 16, 12, 43, 1, 10, 6, 3, 1,
  13, 1, 8, 2, 17, 2, 5, 2, 8, 1, 5, 1, 21, 1, 7, 2, 1, 1, 4, 1, 2, 1, 7, 1, 4, 2, 28, 1, 35, 1, 1,
  1, 4, 3, 1, 1, 61, 3, 24, 1, 14, 1, 859, 2, 51, 1, 4, 1, 810, 26, 1, 89, 12, 214, 26, 79, 2, 86,
  2, 103, 5, 43, 1, 94, 1, 86, 9, 48, 1, 40, 8, 29245, 3, 55, 1177, 29, 643, 11172, 8540, 512, 784,
  10, 22, 35, 1, 19, 1, 4, 149, 96, 127, 7, 28665, 5, 11, 7, 9, 7382, 41, 32, 97, 115, 8701, 4, 1,
  7, 1, 2, 1, 291, 15, 1, 29, 3, 2, 1, 14, 4, 8, 396, 8196, 87, 9, 23, 7309, 1, 202, 1, 190, 1, 2,
  10, 75, 29, 13, 44, 4, 9, 7, 2, 14, 6, 154, 33, 12, 9, 1, 70, 1, 22, 12, 43, 4, 5, 12, 17, 3, 1,
  3, 71, 1, 1, 1, 187, 2, 63, 13, 4, 1, 24, 18, 1, 26, 2, 13, 1, 86, 85, 48, 70, 6, 1, 3, 3, 2, 4,
  3, 4, 11, 2, 7, 9, 227, 12, 4, 1, 283, 47, 1, 10, 1, 185, 112, 13, 3, 11, 3, 57, 1, 1, 4, 16, 2,
  12, 4, 10, 1287, 65534, 2, 65534]

/-- The number of columns that a character above ASCII takes on its own. -/
def columns (c : Char) : Nat :=
  if isWeightless c then 0
  else if inTurns wideRuns c then 2
  else 1

/-- The selector of the form of a character as a picture. -/
def pictureSelector : Char := '\uFE0F'

/-- The number of columns of the cluster that starts with a character above ASCII; `next?` is the
character after it in the text. -/
def clusterColumns (c : Char) (next? : Option Char) : Nat :=
  if next? = some pictureSelector ∧ !(BreakClass.ofChar c).standsAlone then 2 else columns c

end FormulaFold.Text
