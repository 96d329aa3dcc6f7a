import FormulaFold.Decimal.Shortest

/-! # Number text

Two layouts of the shortest decimal.  Formulas and answers use the *positional* one, which
never has an exponent.  Plain data inside messages uses the *general* one, which turns to an
exponent below `10 ^ -4` and from `10 ^ 6` on.
-/
namespace FormulaFold.Decimal

/-- `n` zeros. -/
def zeros (n : Nat) : List Char := List.replicate n '0'

/-- Write a decimal with a point where it is needed and no exponent. -/
def Numeral.positional (d : Numeral) : List Char :=
  let ds := Nat.toDigits 10 d.digits
  if 0 ≤ d.exponent then ds ++ zeros d.exponent.toNat
  else
    let point := (ds.length : Int) + d.exponent
    if 0 < point then ds.take point.toNat ++ '.' :: ds.drop point.toNat
    else '0' :: '.' :: (zeros (-point).toNat ++ ds)

/-- Write a decimal with one digit before the point and a signed exponent of two digits or
more. -/
def Numeral.scientific (d : Numeral) : List Char :=
  let ds := Nat.toDigits 10 d.digits
  let e := (ds.length : Int) + d.exponent - 1
  let body := match ds with
    | [] => []
    | [c] => [c]
    | c :: rest => c :: '.' :: rest
  let power := Nat.toDigits 10 e.natAbs
  body ++ 'e' :: (if e < 0 then '-' else '+') :: (zeros (2 - power.length) ++ power)

/-- Positional between `10 ^ -4` and `10 ^ 6`, with an exponent elsewhere. -/
def Numeral.general (d : Numeral) : List Char :=
  let e := ((Nat.toDigits 10 d.digits).length : Int) + d.exponent - 1
  if d.digits ≠ 0 ∧ (e < -4 ∨ 6 ≤ e) then d.scientific else d.positional

/-- The texts of the numbers that are no decimals, and the layout of those that are. -/
structure Layout where
  notANumber : String
  infinity : String
  minusInfinity : String
  finite : Numeral → List Char

/-- Number text by a layout; the sign of zero is kept. -/
def Layout.text (layout : Layout) (x : Float) : String :=
  if x.isNaN then layout.notANumber
  else if x.isInf then if isNegative x then layout.minusInfinity else layout.infinity
  else
    let body := layout.finite (Binary.ofFloat x).shortest
    String.ofList (if isNegative x then '-' :: body else body)

/-- Numbers as formulas write them. -/
def formulaLayout : Layout := ⟨"NaN", "Inf", "-Inf", Numeral.positional⟩

/-- Numbers inside plain data and messages. -/
def dataLayout : Layout := ⟨"NaN", "+Inf", "-Inf", Numeral.general⟩

end FormulaFold.Decimal
