import FormulaFold.Decimal.Binary

/-! # Reading numbers

`readNumber?` reads a number the way a user may type it: decimal with an optional point and
exponent, hexadecimal with a binary exponent, the words for infinity and not-a-number in any
letter case, and underscores between digits.  The result is the nearest number; text that is
not a number, or one too large to hold, gives `none`, and one too small gives zero.

Of a decimal number with more than 800 digits before the point, only the first 800 of these
count as places, unless the number is known from its first 19 digits alone.
-/
namespace FormulaFold.Decimal

/-- Digits seen while reading a mantissa. -/
structure Mantissa where
  /-- The digits read so far, as a number in the base at hand. -/
  value : Nat
  /-- How many digits stand after the point. -/
  fraction : Nat
  /-- Whether any digit was read. -/
  hasDigits : Bool
  /-- Whether the point was read. -/
  hasPoint : Bool
  /-- What follows the mantissa. -/
  rest : List Char

/-- The value of a digit character in the given base. -/
def digit? (base : Nat) (c : Char) : Option Nat :=
  let n := c.toNat
  let value :=
    if '0'.toNat ≤ n ∧ n ≤ '9'.toNat then n - '0'.toNat
    else if 'a'.toNat ≤ n ∧ n ≤ 'f'.toNat then n - 'a'.toNat + 10
    else if 'A'.toNat ≤ n ∧ n ≤ 'F'.toNat then n - 'A'.toNat + 10
    else base
  if value < base then some value else none

/-- Read digits, underscores and at most one point. -/
def readMantissa (base : Nat) (m : Mantissa) : List Char → Mantissa
  | [] => { m with rest := [] }
  | c :: cs =>
    if c = '_' then readMantissa base m cs
    else if c = '.' ∧ ¬ m.hasPoint then readMantissa base { m with hasPoint := true } cs
    else match digit? base c with
      | some d =>
        readMantissa base
          { m with
            value := m.value * base + d
            fraction := m.fraction + if m.hasPoint then 1 else 0
            hasDigits := true } cs
      | none => { m with rest := c :: cs }

/-- Read the digits of an exponent, skipping underscores.  Past five digits its size no longer
matters and further digits are ignored. -/
def readExponentDigits (value : Nat) : List Char → Nat × List Char
  | [] => (value, [])
  | c :: cs =>
    if c = '_' then readExponentDigits value cs
    else match digit? 10 c with
      | some d => readExponentDigits (if value < 10000 then value * 10 + d else value) cs
      | none => (value, c :: cs)

/-- Read a sign, if there is one. -/
def readSign : List Char → Bool × List Char
  | '+' :: cs => (false, cs)
  | '-' :: cs => (true, cs)
  | cs => (false, cs)

/-- Read a signed exponent; at least one digit has to follow the sign. -/
def readExponent? (cs : List Char) : Option (Int × List Char) :=
  let (negative, cs) := readSign cs
  match cs with
  | [] => none
  | c :: _ =>
    if (digit? 10 c).isNone then none
    else
      let (e, rest) := readExponentDigits 0 cs
      some (if negative then -(e : Int) else e, rest)

/-- The state of the check on underscores: what stands just before. -/
inductive Before where
  | digit
  | underscore
  | other
deriving DecidableEq

/-- Whether every underscore stands between two digits. -/
def underscoresBetween (base : Nat) : Before → List Char → Bool
  | before, [] => before != .underscore
  | before, c :: cs =>
    if (digit? base c).isSome then underscoresBetween base .digit cs
    else if c = '_' then before == .digit && underscoresBetween base .underscore cs
    else before != .underscore && underscoresBetween base .other cs

/-- Whether the underscores of a number are well placed; a base mark counts as a digit. -/
def underscoresFit (cs : List Char) : Bool :=
  match (readSign cs).2 with
  | '0' :: x :: rest =>
    if x = 'x' ∨ x = 'X' then underscoresBetween 16 .digit rest
    else if x = 'b' ∨ x = 'B' ∨ x = 'o' ∨ x = 'O' then underscoresBetween 10 .digit rest
    else underscoresBetween 10 .other ('0' :: x :: rest)
  | rest => underscoresBetween 10 .other rest

/-- The number nearest to `value * 10 ^ e`. -/
def ofDecimal? (negative : Bool) (value : Nat) (e : Int) : Option Float :=
  let size := ((Nat.toDigits 10 value).length : Int) + e
  if value = 0 ∨ size < -400 then nearest? negative 0 1
  else if 400 < size then none
  else if 0 ≤ e then nearest? negative (value * Nat.pow 10 e.toNat) 1
  else nearest? negative value (Nat.pow 10 (-e).toNat)

/-- How many digits are looked at first. -/
def leadingDigits : Nat := 19

/-- The most digits before the point that count as places. -/
def mostPlaces : Nat := 800

/-- Whether the number nearest to `value * 10 ^ e` does not depend on the last `count` digits. -/
def settledWithout (count value : Nat) (e : Int) : Bool :=
  let bits (value : Nat) : Option UInt64 := (ofDecimal? false value (e + count)).map Float.toBits
  let leading := value / Nat.pow 10 count
  value % Nat.pow 10 count = 0 || bits leading = bits (leading + 1)

/-- One digit in place of the last `count` digits, which says whether they are all zero. -/
def cutDigits (count value : Nat) : Nat :=
  value / Nat.pow 10 count * 10 + if value % Nat.pow 10 count = 0 then 0 else 1

/-- The number written by the digits of `value`, the last `fraction` of them after the point, and
an exponent. -/
def ofWritten? (negative : Bool) (value fraction : Nat) (e : Int) : Option Float :=
  let digits := (Nat.toDigits 10 value).length
  if digits - fraction ≤ mostPlaces || settledWithout (digits - leadingDigits) value (e - fraction)
  then ofDecimal? negative value (e - fraction)
  else ofDecimal? negative (cutDigits (digits - mostPlaces) value) (e - 1)

/-- The number nearest to `value * 2 ^ e`. -/
def ofBinary? (negative : Bool) (value : Nat) (e : Int) : Option Float :=
  let size := (value.log2 : Int) + e
  if value = 0 ∨ size < -1200 then nearest? negative 0 1
  else if 1100 < size then none
  else if 0 ≤ e then nearest? negative (value * Nat.pow 2 e.toNat) 1
  else nearest? negative value (Nat.pow 2 (-e).toNat)

/-- The words for infinity and not-a-number; only infinity takes a sign. -/
def readWord? (cs : List Char) : Option Float :=
  let (negative, body) := readSign cs
  let word := body.map Char.toLower
  if word = "inf".toList ∨ word = "infinity".toList then
    some (if negative then -1.0 / 0.0 else 1.0 / 0.0)
  else if cs.map Char.toLower = "nan".toList then some (0.0 / 0.0)
  else none

/-- Read a decimal or hexadecimal number that takes up all of `cs`. -/
def readDigits? (cs : List Char) : Option Float :=
  let (negative, body) := readSign cs
  let (base, body) := match body with
    | '0' :: 'x' :: c :: rest => (16, c :: rest)
    | '0' :: 'X' :: c :: rest => (16, c :: rest)
    | body => (10, body)
  let m := readMantissa base ⟨0, 0, false, false, []⟩ body
  let mark := if base = 16 then 'p' else 'e'
  let tail : Option (Option Int × List Char) := match m.rest with
    | c :: rest =>
      if c.toLower = mark then (readExponent? rest).map fun (e, rest) => (some e, rest)
      else some (none, c :: rest)
    | [] => some (none, [])
  match m.hasDigits, tail with
  | true, some (e, []) =>
    if cs.contains '_' && !underscoresFit cs then none
    else if base = 16 then
      e.bind fun e => ofBinary? negative m.value (e - 4 * m.fraction)
    else ofWritten? negative m.value m.fraction (e.getD 0)
  | _, _ => none

/-- Read a number. -/
def readNumber? (s : String) : Option Float :=
  match readWord? s.toList with
  | some x => some x
  | none => readDigits? s.toList

end FormulaFold.Decimal
