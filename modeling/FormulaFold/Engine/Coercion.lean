import FormulaFold.Engine.Failure
import FormulaFold.Text.Blank
import FormulaFold.Text.LetterCase
import FormulaFold.Value
import FormulaFold.Word

/-! # Coercions

How a value is taken as a number, as text or as a truth value.  A blank is zero, empty and
false; an array of one value counts as that value; text is read as a number or as the words for
the truth values after its blanks are trimmed.
-/
namespace FormulaFold

/-- The integer part of a number as a word; it is the least word where it does not fit one. -/
def truncate (x : Float) : Int :=
  let b := Decimal.Binary.ofFloat x
  let n : Nat :=
    if 0 ≤ b.exponent then b.mantissa * Nat.pow 2 b.exponent.toNat
    else b.mantissa / Nat.pow 2 (-b.exponent).toNat
  let i : Int := if Decimal.isNegative x then -(n : Int) else n
  if fitsWord i then i else leastWord

/-- Whether a number is neither infinite nor undefined. -/
def isFinite (x : Float) : Bool := !x.isNaN && !x.isInf

namespace Value

/-- A value taken as a number. -/
def toNumber : Value → Except Failure Float
  | null => .ok 0.0
  | number x => .ok x
  | integer n => .ok (Float.ofInt n)
  | bool b => .ok (if b then 1.0 else 0.0)
  | text s =>
    match Decimal.readNumber? (Text.trim s) with
    | some x => .ok x
    | none => .error (.notNumber (Text.quote s))
  | array _ _ [v] => toNumber v
  | v => .error (.notNumber v.render)

/-- A value taken as text. -/
def toText : Value → Except Failure String
  | null => .ok ""
  | text s => .ok s
  | bool b => .ok (bool b).render
  | number x => .ok (number x).render
  | integer n => .ok (integer n).render
  | array _ _ [v] => toText v
  | v => .error (.notText v.render)

/-- A value taken as a truth value. -/
def toBool : Value → Except Failure Bool
  | null => .ok false
  | bool b => .ok b
  | number x => .ok (x != 0.0)
  | integer n => .ok (n != 0)
  | text s =>
    let word := Text.upper (Text.trim s)
    if word = "TRUE" then .ok true
    else if word = "FALSE" then .ok false
    else .error (.notBoolean (Text.quote s))
  | array _ _ [v] => toBool v
  | v => .error (.notBoolean v.render)

/-- A value taken as an integer, toward zero; `default` when it is no finite number. -/
def toInt (v : Value) (default : Int) : Int :=
  match v.toNumber with
  | .ok x => if isFinite x then truncate x else default
  | .error _ => default

/-- Whether the value is text. -/
def text? : Value → Option String
  | text s => some s
  | _ => none

/-- The order of two numbers; those that cannot be compared count as equal. -/
def compareNumbers (x y : Float) : Ordering :=
  if x < y then .lt else if y < x then .gt else .eq

/-- The order of two texts. -/
def compareTexts (s t : String) : Ordering := compare (Text.lower s) (Text.lower t)

/-- The order of two values: numbers come before text, text is compared without letter case and
a blank counts as what the other side is. -/
def compareWith (a b : Value) : Except Failure Ordering :=
  match a, b with
  | text s, text t => .ok (compareTexts s t)
  | text s, null => .ok (compareTexts s "")
  | null, text t => .ok (compareTexts "" t)
  | text _, _ => .ok .gt
  | _, text _ => .ok .lt
  | a, b => do
    let x ← a.toNumber
    let y ← b.toNumber
    return compareNumbers x y

end Value

end FormulaFold
