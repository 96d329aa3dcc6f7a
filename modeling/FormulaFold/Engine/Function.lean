import FormulaFold.Engine.Builtin
import FormulaFold.Engine.Coercion

/-! # Computing functions

Each function takes a list of values.  An argument that is blank counts as left out where the
function has a default for it.  Aggregates look into arrays, of which they take the numbers
only.
-/
namespace FormulaFold

/-- What functions can learn about the moment of running. -/
structure Moment where
  /-- The time in days since the end of 1899. -/
  now : Float
  /-- A random number from 0 to 1. -/
  random : Float

namespace Builtin

/-- The argument at a position; a blank one counts as left out. -/
def arg? (args : List Value) (i : Nat) : Option Value := args[i]?.filter (!·.isNull)

/-- The first argument, blank when there is none. -/
def first (args : List Value) : Value := args.headD .null

/-- The argument at a position as a number, or a default when it is left out. -/
def numberAt (args : List Value) (i : Nat) (default : Float) : Except Failure Float :=
  match arg? args i with
  | some v => v.toNumber
  | none => .ok default

/-- The only argument, as a number. -/
def oneNumber (args : List Value) : Except Failure Float :=
  match args with
  | [v] => v.toNumber
  | _ => .error (.oneArgument args.length)

/-- The arguments with arrays replaced by their values. -/
def flat : List Value → List Value
  | [] => []
  | .array _ _ values :: rest => values ++ flat rest
  | v :: rest => v :: flat rest

/-- The numbers among the values of an array. -/
def numbersIn : List Value → List Float
  | [] => []
  | .number x :: rest => x :: numbersIn rest
  | _ :: rest => numbersIn rest

/-- The numbers that an aggregate works on: of an array the numbers only, of anything else the
value taken as a number. -/
def numbers : List Value → Except Failure (List Float)
  | [] => .ok []
  | .array _ _ values :: rest => do return numbersIn values ++ (← numbers rest)
  | v :: rest => do
    let x ← v.toNumber
    return x :: (← numbers rest)

/-- The sum of numbers, from the left. -/
def total (xs : List Float) : Float := xs.foldl (· + ·) 0.0

/-- The smaller of two numbers; undefined if one of them is, and negative zero is smaller than
zero. -/
def smaller (x y : Float) : Float :=
  if x.isNaN || y.isNaN then 0.0 / 0.0
  else if x < y then x
  else if y < x then y
  else if Decimal.isNegative x then x else y

/-- The larger of two numbers; undefined if one of them is, and zero is larger than negative
zero. -/
def larger (x y : Float) : Float :=
  if x.isNaN || y.isNaN then 0.0 / 0.0
  else if x < y then y
  else if y < x then x
  else if Decimal.isNegative x then y else x

/-- The best of some numbers, zero when there are none. -/
def best (choose : Float → Float → Float) : List Float → Float
  | [] => 0.0
  | x :: xs => xs.foldl choose x

/-- The mean of some numbers. -/
def mean (xs : List Float) : Except Failure Float :=
  if xs.isEmpty then .error .averageOfNothing else .ok (total xs / Float.ofNat xs.length)

/-- The number with its digits after the point dropped. -/
def wholePart (x : Float) : Float := if x < 0.0 then x.ceil else x.floor

/-- Whether all values are true. -/
def allTrue : List Value → Except Failure Bool
  | [] => .ok true
  | v :: vs => do
    let b ← v.toBool
    let rest ← allTrue vs
    return b && rest

/-- Whether one of the values is true. -/
def anyTrue : List Value → Except Failure Bool
  | [] => .ok false
  | v :: vs => do
    let b ← v.toBool
    let rest ← anyTrue vs
    return b || rest

/-- The texts of some values, one after the other. -/
def joinTexts : List Value → Except Failure String
  | [] => .ok ""
  | v :: vs => do
    let s ← v.toText
    return s ++ (← joinTexts vs)

/-- The characters that `LEFT` and `RIGHT` take: as many as the second argument says, or one.  A
number of characters that is no word is taken for a negative one. -/
def takeText (fn : Builtin) (args : List Value) : Except Failure String := do
  let s ← (first args).toText
  let n ← numberAt args 1 1.0
  if n < 0.0 then throw (.negativeLength fn.name)
  let cs := s.toList
  if truncate n < 0 then throw (.outsideArray cs.length)
  let k := Nat.min (truncate n).toNat cs.length
  return String.ofList (if fn = .left then cs.take k else cs.drop (cs.length - k))

/-- The element of an array in a row and a column, counted from 0. -/
def elementAt (cols : Int) (values : List Value) (row col : Int) : Except Failure Value :=
  let i := wrap (row * cols + col)
  match if 0 ≤ i then values[i.toNat]? else none with
  | some v => .ok v
  | none => .error (.outsideArray values.length)

/-- The element that `INDEX` selects.  A value that is no array counts as an array of one. -/
def select (args : List Value) : Except Failure Value :=
  match args with
  | source :: _ :: _ => do
    let (rows, cols, values) := match source with
      | .array rows cols values => (rows, cols, values)
      | v => (1, 1, [v])
    let row ← numberAt args 1 0.0
    match arg? args 2 with
    | none =>
      let i := truncate row
      if 1 < rows ∧ 1 < cols then throw (.indexColumn rows cols)
      match if 1 ≤ i then values[i.toNat - 1]? else none with
      | some v => return v
      | none => throw (.indexRange i)
    | some v =>
      let col ← v.toNumber
      let (r, c) := (truncate row, truncate col)
      if r < 1 ∨ c < 1 ∨ rows < r ∨ cols < c then throw (.indexPairRange r c)
      elementAt cols values (r - 1) (c - 1)
  | _ => .error .indexArguments

/-- The result of a function on values. -/
def compute (moment : Moment) (fn : Builtin) (args : List Value) : Except Failure Value :=
  match fn with
  | abs => do return .number (← oneNumber args).abs
  | int => do return .number (← oneNumber args).floor
  | sqrt => do
    let x ← oneNumber args
    if x < 0.0 then throw (.squareRoot x)
    return .number x.sqrt
  | round => do
    let x ← numberAt args 0 0.0
    let digits ← numberAt args 1 0.0
    let scale := (10.0 : Float) ^ wholePart digits
    return .number ((x * scale).round / scale)
  | mod => do
    let x ← numberAt args 0 0.0
    let y ← numberAt args 1 0.0
    if y == 0.0 then throw .modByZero
    return .number (x - y * (x / y).floor)
  | power => do
    let x ← numberAt args 0 0.0
    let y ← numberAt args 1 1.0
    return .number (x ^ y)
  | sum => do return .number (total (← numbers args))
  | product => do
    let xs ← numbers args
    return .number (if xs.isEmpty then 0.0 else xs.foldl (· * ·) 1.0)
  | min => do return .number (best smaller (← numbers args))
  | max => do return .number (best larger (← numbers args))
  | average => do return .number (← mean (← numbers args))
  | not => do return .bool (!(← (first args).toBool))
  | and =>
    if (flat args).isEmpty then .error (.noArgument fn.name)
    else do return .bool (← allTrue (flat args))
  | or =>
    if (flat args).isEmpty then .error (.noArgument fn.name)
    else do return .bool (← anyTrue (flat args))
  | ifElse => do
    if ← (first args).toBool then return (arg? args 1).getD (.number 0.0)
    else return (arg? args 2).getD (.bool false)
  | concatenate => do return .text (← joinTexts (flat args))
  | len => do return .number (Float.ofNat (← (first args).toText).length)
  | upper => do return .text (Text.upper (← (first args).toText))
  | lower => do return .text (Text.lower (← (first args).toText))
  | left | right => do return .text (← takeText fn args)
  | index => select args
  | row | column => .error (.needsOrigin fn.name)
  | now => .ok (.number moment.now)
  | today => .ok (.number moment.now.floor)
  | rand => .ok (.number moment.random)

end Builtin

end FormulaFold
