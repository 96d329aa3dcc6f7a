/-! # Machine-word integers

Row and column numbers, shapes and counts live in 64-bit words.  They are kept as integers, and
`wrap` is applied wherever an operation can leave the range of a word.
-/
namespace FormulaFold

/-- The integer of a signed 64-bit word that is congruent to `n`. -/
def wrap (n : Int) : Int := Int.bmod n 0x10000000000000000

/-- Whether `n` is the value of a signed 64-bit word. -/
def fitsWord (n : Int) : Bool := -0x8000000000000000 ≤ n && n < 0x8000000000000000

/-- The least value of a signed 64-bit word. -/
def leastWord : Int := -0x8000000000000000

end FormulaFold
