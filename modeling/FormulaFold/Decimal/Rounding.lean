import FormulaFold.Decimal.Shortest

/-! # Rounding to significant digits

`roundTo digits x` is the number nearest to the decimal with `digits` significant digits that
is nearest to `x`.  Both roundings are exact, and both send a tie to the even neighbour.  A
result past the largest number leaves `x` as it was.
-/
namespace FormulaFold.Decimal

/-- The decimal of `count` digits nearest to a positive magnitude. -/
def Binary.significant (b : Binary) (count : Nat) : Numeral :=
  let k := b.magnitude
  let (n, d) := inUnits b.mantissa 1 (-b.exponent)
  let (n, d) := timesPower n d (count - k)
  ⟨roundDiv n d, k - count⟩

/-- No finite number has more significant digits than this. -/
def mostDigits : Nat := 767

/-- The finite number `x` rounded to `count` significant digits. -/
def roundTo (count : Nat) (x : Float) : Float :=
  let b := Binary.ofFloat x
  if b.mantissa = 0 ∨ mostDigits ≤ count then x
  else
    let d := b.significant count
    let (n, m) := timesPower d.digits 1 d.exponent
    (nearest? (isNegative x) n m).getD x

end FormulaFold.Decimal
