/-! # Binary floating-point magnitudes

A finite number of the engine is a sign and a magnitude `mantissa * 2 ^ exponent`.  Exact
decimal work happens on that pair in natural-number arithmetic, and `nearest?` leads back: it
is the floating-point number closest to a fraction, a tie going to the even mantissa.
-/
namespace FormulaFold.Decimal

/-- The magnitude `mantissa * 2 ^ exponent` of a finite number. -/
structure Binary where
  mantissa : Nat
  exponent : Int
deriving DecidableEq

/-- The exponent of the smallest positive number. -/
def leastExponent : Int := -1074

/-- The magnitude of a finite number, with the full mantissa of normal numbers made explicit. -/
def Binary.ofFloat (x : Float) : Binary :=
  let bits := x.toBits.toNat
  let e : Nat := bits / Nat.pow 2 52 % Nat.pow 2 11
  let f : Nat := bits % Nat.pow 2 52
  if e = 0 then ⟨f, leastExponent⟩ else ⟨Nat.pow 2 52 + f, (e : Int) - 1075⟩

/-- Whether the sign bit is set; negative zero counts as negative. -/
def isNegative (x : Float) : Bool := x.toBits.toNat / Nat.pow 2 63 % 2 == 1

/-- `n / d` rounded to the nearest natural number, a tie going to the even one. -/
def roundDiv (n d : Nat) : Nat :=
  let q := n / d
  let r := n % d
  if d < 2 * r || (2 * r == d && q % 2 == 1) then q + 1 else q

/-- The fraction `num / den` in units of `2 ^ e`. -/
def inUnits (num den : Nat) (e : Int) : Nat × Nat :=
  if 0 ≤ e then (num, den * Nat.pow 2 e.toNat) else (num * Nat.pow 2 (-e).toNat, den)

/-- The exponent at which `num / den` has a mantissa of 53 bits, or the least one. -/
def scaleOf (num den : Nat) : Int :=
  let e := (num.log2 : Int) - den.log2 - 53
  let (n, d) := inUnits num den e
  max leastExponent (if n / d < Nat.pow 2 53 then e else e + 1)

/-- The bit pattern of the number nearest to `num / den`, or `none` when it is too large. -/
def nearestBits? (num den : Nat) : Option Nat :=
  if num = 0 then some 0
  else
    let e := scaleOf num den
    let (n, d) := inUnits num den e
    let bits := (e - leastExponent).toNat * Nat.pow 2 52 + roundDiv n d
    if bits < 0x7FF0000000000000 then some bits else none

/-- The number nearest to `num / den` with the given sign, or `none` when it is too large. -/
def nearest? (negative : Bool) (num den : Nat) : Option Float :=
  (nearestBits? num den).map fun bits =>
    Float.ofBits (bits + if negative then Nat.pow 2 63 else 0).toUInt64

end FormulaFold.Decimal
