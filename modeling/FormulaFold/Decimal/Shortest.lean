import FormulaFold.Decimal.Binary

/-! # The shortest decimal

`shortest` is the decimal with the fewest digits that still reads back as the given number;
among several of that length it is the nearest one, a tie going to the even last digit.

A decimal reads back when it lies in the interval of reals that round to the number.  The
interval reaches half way to the two neighbours, its ends belong to it exactly when the
mantissa is even, and it is narrower below a power of two.  For each count of digits only the
two neighbours of the value on that decimal grid can be nearest, so only they are tried.
-/
namespace FormulaFold.Decimal

/-- The decimal number `digits * 10 ^ exponent`. -/
structure Numeral where
  digits : Nat
  exponent : Int
deriving DecidableEq

/-- Move trailing zeros of the digits into the exponent. -/
def Numeral.stripZeros : (fuel : Nat) → Numeral → Numeral
  | 0, d => d
  | fuel + 1, d =>
    if d.digits ≠ 0 ∧ d.digits % 10 = 0 then
      stripZeros fuel ⟨d.digits / 10, d.exponent + 1⟩
    else d

/-- `num / den * 10 ^ e` as a fraction. -/
def timesPower (num den : Nat) (e : Int) : Nat × Nat :=
  if 0 ≤ e then (num * Nat.pow 10 e.toNat, den) else (num, den * Nat.pow 10 (-e).toNat)

/-- The place of the leading digit: the least `k` with `b < 10 ^ k`, for a positive `b`. -/
def Binary.magnitude (b : Binary) : Int :=
  let log2 := (b.mantissa.log2 : Int) + b.exponent
  let k := Int.fdiv (log2 * 30102999566398119521) (Nat.pow 10 20) + 1
  let (n, d) := inUnits b.mantissa 1 (-b.exponent)
  let (n, d) := timesPower n d (-k)
  if n < d then k else k + 1

/-- The two neighbours of a value on a decimal grid that read back as it.  The value and the
ends of its interval are `value`, `low` and `high` in units of `num / den` grid steps. -/
def gridHit? (closed : Bool) (low value high num den : Nat) : Option Nat :=
  let inside (t : Nat) : Bool :=
    if closed then low * num ≤ t * den && t * den ≤ high * num
    else low * num < t * den && t * den < high * num
  let below := value * num / den
  let above := below + 1
  match inside below, inside above with
  | true, false => some below
  | false, true => some above
  | true, true =>
    let gap := value * num - below * den
    if 2 * gap < den || (2 * gap == den && below % 2 == 0) then some below else some above
  | false, false => none

/-- The shortest decimal of the magnitude `b`. -/
def Binary.shortest (b : Binary) : Numeral :=
  if b.mantissa = 0 then ⟨0, 0⟩
  else
    let k := b.magnitude
    let value := 4 * b.mantissa
    let low :=
      if b.mantissa = Nat.pow 2 52 ∧ b.exponent ≠ leastExponent then value - 1 else value - 2
    let high := value + 2
    let (num, den) := inUnits 1 1 (2 - b.exponent)
    let hit := (List.range 17).findSome? fun (i : Nat) =>
      let (num, den) := timesPower num den ((i : Int) + 1 - k)
      (gridHit? (b.mantissa % 2 == 0) low value high num den).map fun t =>
        (⟨t, k - (i + 1)⟩ : Numeral)
    (hit.getD ⟨0, 0⟩).stripZeros 18

end FormulaFold.Decimal
