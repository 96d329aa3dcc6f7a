import FormulaFold.Text.LetterCase
import FormulaFold.Word

/-! # Cell addresses

A cell is located by its sheet, row and column.  A reference such as `Budget!AB12` writes the
column in letters, where `A` is 1, `Z` is 26 and `AA` is 27, and rows from 1 on.

A reference is read byte by byte, and each byte stands for the character of that number, so the
letters above ASCII that fit a byte are column letters too, and a sheet may have any bytes for a
name (`Locator`).  Columns are counted in 64-bit words.  The sheets of an `Address` are named by
text.
-/
namespace FormulaFold

/-- The bytes of a text. -/
def bytesOf (s : String) : List UInt8 := s.toUTF8.toList

/-- The text with the given bytes; there is none for bytes that encode no text. -/
def textOf (bs : List UInt8) : String := (String.fromUTF8? bs.toByteArray).getD ""

/-- What a reference says, with the name of the sheet in bytes; rows and columns count from 1. -/
structure Locator where
  sheet : List UInt8
  row : Int
  col : Int
deriving DecidableEq

/-- The place of a cell; rows and columns count from 1. -/
structure Address where
  sheet : String
  row : Int
  col : Int
deriving DecidableEq, Inhabited

/-- The letters of a column, bijective in base 26. -/
def columnLetters (col : Nat) : List Char :=
  if col = 0 then []
  else columnLetters ((col - 1) / 26) ++ [Char.ofNat ('A'.toNat + (col - 1) % 26)]
termination_by col
decreasing_by omega

/-- A cell as formulas write it, without its sheet. -/
def cellName (row col : Int) : String := String.ofList (columnLetters col.toNat) ++ toString row

namespace Locator

/-- The bytes of a reference. -/
def render (l : Locator) : List UInt8 :=
  let ref := bytesOf (cellName l.row l.col)
  if l.sheet = [] then ref else l.sheet ++ 0x21 :: ref

/-- Whether the character numbered `b`, a byte, is a letter. -/
def isLetterByte (b : Nat) : Bool :=
  (0x41 ≤ b && b ≤ 0x5A) || (0x61 ≤ b && b ≤ 0x7A) || b == 0xAA || b == 0xB5 || b == 0xBA ||
    (0xC0 ≤ b && b ≤ 0xD6) || (0xD8 ≤ b && b ≤ 0xF6) || (0xF8 ≤ b && b ≤ 0xFF)

/-- The column reached by reading one more letter. -/
def pushLetter (col : Int) (b : Nat) : Int :=
  wrap (col * 26 + ((Text.upperChar (Char.ofNat b)).toNat - 'A'.toNat : Int) + 1)

/-- The number written by decimal digits only. -/
def readDigits? (value : Nat) : List Nat → Option Nat
  | [] => some value
  | b :: bs => if 0x30 ≤ b ∧ b ≤ 0x39 then readDigits? (value * 10 + (b - 0x30)) bs else none

/-- The row written by a run of bytes: an optional sign and decimal digits, at least 1 and at
most the largest word. -/
def readRow? (bs : List Nat) : Option Int := do
  let (negative, ds) := match bs with
    | 0x2B :: ds => (false, ds)
    | 0x2D :: ds => (true, ds)
    | ds => (false, ds)
  if ds.isEmpty then none
  let n ← readDigits? 0 ds
  if ¬ negative ∧ 1 ≤ n ∧ fitsWord n then some n else none

/-- Split a reference at its first exclamation mark into the sheet and the rest. -/
def splitSheet (ref : List UInt8) : List UInt8 × List UInt8 :=
  match ref.dropWhile (· ≠ 0x21) with
  | [] => ([], ref)
  | _ :: rest => (ref.takeWhile (· ≠ 0x21), rest)

/-- Read a reference; when it is not one, the part after the sheet is returned. -/
def parse (ref : List UInt8) : Except (List UInt8) Locator :=
  let (sheet, rest) := splitSheet ref
  let bytes := rest.map UInt8.toNat
  let letters := bytes.takeWhile isLetterByte
  match letters, readRow? (bytes.dropWhile isLetterByte) with
  | _ :: _, some row => .ok ⟨sheet, row, letters.foldl pushLetter 0⟩
  | _, _ => .error rest

end Locator

namespace Address

/-- An address as formulas write it. -/
def render (a : Address) : String :=
  if a.sheet = "" then cellName a.row a.col else a.sheet ++ "!" ++ cellName a.row a.col

/-- The order of sheets, then rows, then columns. -/
def before (a b : Address) : Bool :=
  if a.sheet ≠ b.sheet then a.sheet < b.sheet
  else if a.row ≠ b.row then a.row < b.row
  else a.col ≤ b.col

/-- Read a reference; when it is not one, the part after the sheet is returned. -/
def parse (ref : String) : Except String Address :=
  match Locator.parse (bytesOf ref) with
  | .ok l => .ok ⟨textOf l.sheet, l.row, l.col⟩
  | .error rest => .error (textOf rest)

end Address

end FormulaFold
