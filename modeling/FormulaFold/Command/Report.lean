import FormulaFold.Folding.Walk
import FormulaFold.Text.Terminal

/-! # Reports

A report lists the cells of a document with what became of their formulas.  Its pieces are
colored by what they say, unless plain text is asked for.
-/
namespace FormulaFold

/-- What a piece of a report says, which gives it its color. -/
inductive Ink where
  | cell
  | constant
  | residual
  | error
deriving DecidableEq, Inhabited

/-- The terminal code of a color. -/
def Ink.code : Ink → String
  | cell => "1;38;5;63"
  | constant => "38;5;42"
  | residual => "38;5;249"
  | error => "38;5;196"

/-- Text in a color. -/
def Ink.paint (ink : Ink) (text : String) : String :=
  "\x1b[" ++ ink.code ++ "m" ++ text ++ "\x1b[m"

/-- A piece of a report. -/
structure Piece where
  ink : Ink
  text : String

namespace Piece

/-- The lines of a piece; a tab is written as four spaces. -/
def lines (p : Piece) : List String :=
  ((p.text.replace "\t" "    ").replace "\r\n" "\n").splitOn "\n"

/-- A piece as text; of several lines, each is colored on its own and filled up with spaces to
the width of the widest. -/
def render (p : Piece) : String :=
  let width := (p.lines.map Text.Terminal.width).foldl max 0
  let line (s : String) : String :=
    p.ink.paint s ++ String.ofList (List.replicate (width - Text.Terminal.width s) ' ')
  "\n".intercalate (p.lines.map line)

end Piece

/-- What a command found out about a document. -/
structure Report where
  /-- The lines, last one first. -/
  lines : List (List Piece) := []
  failed : Nat := 0
  stats : Stats := .zero
  /-- What happened while formulas were folded, in order. -/
  events : List Event := []

namespace Report

/-- Add a line on a cell. -/
def add (r : Report) (a : Address) (ink : Ink) (text : String) : Report :=
  let line : List Piece := [⟨.cell, a.render⟩, ⟨ink, text⟩]
  { r with lines := line :: r.lines, failed := if ink = .error then r.failed + 1 else r.failed }

/-- The report as text; plain text has no control sequences, be they colors or parts of
names. -/
def render (plain : Bool) (r : Report) : String :=
  let text := "".intercalate (r.lines.reverse.map fun line =>
    "".intercalate (line.map Piece.render) ++ "\n")
  if plain then Text.Terminal.visible text else text

end Report

end FormulaFold
