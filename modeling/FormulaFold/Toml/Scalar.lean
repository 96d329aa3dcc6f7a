import FormulaFold.Decimal.Reading
import FormulaFold.Toml.Basic
import FormulaFold.Word

/-! # TOML strings, numbers and times

Every reader takes the text from where the value starts and gives the value and the rest of the
text.  Strings come in four forms: with or without escapes, on one line or on several.  Integers
may be written in four bases, and an underscore may stand between two digits.
-/
namespace FormulaFold.Toml

/-! ## Strings -/

/-- The value of a digit in any base up to 16. -/
def hexDigit? (c : Char) : Option Nat := Decimal.digit? 16 c

/-- The value of exactly `count` hexadecimal digits. -/
def hexDigits? : (count : Nat) → (value : Nat) → List Char → Option (Nat × List Char)
  | 0, value, cs => some (value, cs)
  | count + 1, value, c :: cs => do hexDigits? count (value * 16 + (← hexDigit? c)) cs
  | _ + 1, _, [] => none

/-- The character with the given code point. -/
def codePoint? (count : Nat) (cs : List Char) : Option (Char × List Char) := do
  let (n, rest) ← hexDigits? count 0 cs
  if n.isValidChar then some (Char.ofNat n, rest) else none

/-- The character of an escape whose backslash has been read. -/
def escape? : List Char → Option (Char × List Char)
  | 'b' :: cs => some ('\x08', cs)
  | 't' :: cs => some ('\t', cs)
  | 'n' :: cs => some ('\n', cs)
  | 'f' :: cs => some ('\x0c', cs)
  | 'r' :: cs => some ('\r', cs)
  | 'e' :: cs => some ('\x1b', cs)
  | '"' :: cs => some ('"', cs)
  | '\\' :: cs => some ('\\', cs)
  | 'x' :: cs => codePoint? 2 cs
  | 'u' :: cs => codePoint? 4 cs
  | 'U' :: cs => codePoint? 8 cs
  | _ => none

/-- Whether a character ends a line. -/
def isLineEnd (c : Char) : Bool := c = '\n' || c = '\r'

/-- Whether a character is a space or a tab. -/
def isSpace (c : Char) : Bool := c = ' ' || c = '\t'

/-- Drop leading spaces and tabs. -/
def skipSpace (cs : List Char) : List Char := cs.dropWhile isSpace

/-- Read the rest of a string with escapes on one line; `done` holds the characters read so far,
last one first. -/
def readBasic? : (bound : Nat) → (done : List Char) → List Char → Option (String × List Char)
  | 0, _, _ => none
  | _, _, [] => none
  | bound + 1, done, c :: cs =>
    if c = '"' then some (String.ofList done.reverse, cs)
    else if isLineEnd c then none
    else if c = '\\' then do
      let (c, cs) ← escape? cs
      readBasic? bound (c :: done) cs
    else readBasic? bound (c :: done) cs

/-- Read the rest of a string without escapes on one line. -/
def readRaw? (cs : List Char) : Option (String × List Char) :=
  let content := cs.takeWhile fun c => c ≠ '\'' && !isLineEnd c
  match cs.drop content.length with
  | '\'' :: rest => some (String.ofList content, rest)
  | _ => none

/-- Drop the line end right after the opening quotes of a string on several lines. -/
def skipFirstLine : List Char → List Char
  | '\n' :: cs => cs
  | '\r' :: '\n' :: cs => cs
  | cs => cs

/-- Read the rest of a string on several lines that ends with three of the given quotes.  Up to
two more may stand before them as part of its text, and three right after a backslash that is
written as an escape; `afterBackslash` says whether the text so far ends with one.  With escapes,
a backslash at the end of a line joins it to the next text. -/
def readLines? (quote : Char) (escapes : Bool) :
    (bound : Nat) → (afterBackslash : Bool) → (done : List Char) → List Char →
      Option (String × List Char)
  | 0, _, _, _ => none
  | _, _, _, [] => none
  | bound + 1, afterBackslash, done, c :: cs =>
    if c = quote then
      let run := 1 + (cs.takeWhile (· = quote)).length
      let done := List.replicate (if run < 3 then run else run - 3) quote ++ done
      let rest := cs.drop (run - 1)
      if run < 3 then readLines? quote escapes bound false done rest
      else if run < 6 ∨ run = 6 ∧ afterBackslash then some (String.ofList done.reverse, rest)
      else none
    else if c = '\\' ∧ escapes then
      match skipSpace cs with
      | e :: _ =>
        if isLineEnd e then
          let rest := cs.dropWhile fun c => isSpace c || isLineEnd c
          readLines? quote escapes bound false done rest
        else do
          let isBackslash := cs.head? = some '\\'
          let (c, cs) ← escape? cs
          readLines? quote escapes bound isBackslash (c :: done) cs
      | [] => none
    else readLines? quote escapes bound false (c :: done) cs

/-- Read a string. -/
def readString? : List Char → Option (String × List Char)
  | '"' :: '"' :: '"' :: cs => readLines? '"' true (cs.length + 1) false [] (skipFirstLine cs)
  | '\'' :: '\'' :: '\'' :: cs => readLines? '\'' false (cs.length + 1) false [] (skipFirstLine cs)
  | '"' :: cs => readBasic? (cs.length + 1) [] cs
  | '\'' :: cs => readRaw? cs
  | _ => none

/-! ## Numbers -/

/-- Whether every underscore follows a digit and the last character is a digit. -/
def underscoresOk : (digitBefore : Bool) → List Char → Bool
  | digitBefore, [] => digitBefore
  | digitBefore, c :: cs =>
    (c ≠ '_' || digitBefore) && underscoresOk (hexDigit? c).isSome cs

/-- The number written by digits of a base; underscores are passed over. -/
def digitsValue? (base : Nat) : (value : Nat) → List Char → Option Nat
  | value, [] => some value
  | value, c :: cs =>
    if c = '_' then digitsValue? base value cs
    else do digitsValue? base (value * base + (← Decimal.digit? base c)) cs

/-- The digits of a decimal number do not start with a zero that could be left out. -/
def noLeadingZero : List Char → Bool
  | '0' :: _ :: _ => false
  | _ => true

/-- A number between `0` and the end of the word as an integer of that sign. -/
def signed? (negative : Bool) (n : Nat) : Option Int :=
  let n : Int := if negative then -n else n
  if fitsWord n then some n else none

/-- The sign of a number and what follows it. -/
def splitSign : List Char → Bool × List Char
  | '+' :: cs => (false, cs)
  | '-' :: cs => (true, cs)
  | cs => (false, cs)

/-- The integer that a word writes. -/
def integer? (word : List Char) : Option Int :=
  let digits (base : Nat) (cs : List Char) : Option Int :=
    if underscoresOk false cs then do signed? false (← digitsValue? base 0 cs) else none
  match word with
  | '0' :: 'x' :: cs => digits 16 cs
  | '0' :: 'o' :: cs => digits 8 cs
  | '0' :: 'b' :: cs => digits 2 cs
  | word =>
    let (negative, cs) := splitSign word
    if underscoresOk false cs ∧ noLeadingZero cs then do
      signed? negative (← digitsValue? 10 0 cs)
    else none

/-- The parts of a number between the point and the mark of the exponent. -/
def numberParts (cs : List Char) : List (List Char) :=
  (cs.splitBy fun a b => !isMark a && !isMark b).filter fun part => !part.any isMark
where
  /-- The point and the marks of an exponent. -/
  isMark (c : Char) : Bool := c = '.' || c = 'e' || c = 'E'

/-- Every point has a digit after it. -/
def pointsOk : List Char → Bool
  | [] => true
  | '.' :: cs => (cs.head?.any Char.isDigit) && pointsOk cs
  | _ :: cs => pointsOk cs

/-- The number with a point or an exponent that a word writes; a word with neither is an integer
or none at all. -/
def float? (word : List Char) : Option Float :=
  let (negative, cs) := splitSign word
  let sign (x : Float) : Float := if negative then -x else x
  if cs = ['i', 'n', 'f'] then some (sign (1.0 / 0.0))
  else if cs = ['n', 'a', 'n'] then some (0.0 / 0.0)
  else if !cs.head?.any Char.isDigit || !cs.any numberParts.isMark then none
  else if !(numberParts cs).all (underscoresOk false ∘ Prod.snd ∘ splitSign) then none
  else if !((numberParts cs).head?.all noLeadingZero) || !pointsOk cs then none
  else if !cs.all (fun c => c.isDigit || "_.-+eE".toList.contains c) then none
  else (Decimal.readNumber? (String.ofList (cs.filter (· ≠ '_')))).map sign

/-! ## Times -/

/-- The value of exactly `count` decimal digits. -/
def decimals? : (count : Nat) → (value : Nat) → List Char → Option (Nat × List Char)
  | 0, value, cs => some (value, cs)
  | count + 1, value, c :: cs =>
    if c.isDigit then decimals? count (value * 10 + (c.toNat - '0'.toNat)) cs else none
  | _ + 1, _, [] => none

/-- The number of days of a month. -/
def daysIn (year month : Nat) : Nat :=
  if month = 2 then
    if year % 4 = 0 ∧ (year % 100 ≠ 0 ∨ year % 400 = 0) then 29 else 28
  else if [4, 6, 9, 11].contains month then 30
  else 31

/-- Pass over a date. -/
def afterDate? (cs : List Char) : Option (List Char) := do
  let (year, '-' :: cs) ← decimals? 4 0 cs | none
  let (month, '-' :: cs) ← decimals? 2 0 cs | none
  let (day, cs) ← decimals? 2 0 cs
  if 1 ≤ month ∧ month ≤ 12 ∧ 1 ≤ day ∧ day ≤ daysIn year month then some cs else none

/-- Pass over a time of day; seconds may be left out. -/
def afterClock? (cs : List Char) : Option (List Char) := do
  let (hour, ':' :: cs) ← decimals? 2 0 cs | none
  let (minute, cs) ← decimals? 2 0 cs
  if 23 < hour ∨ 59 < minute then none
  match cs with
  | ':' :: cs =>
    let (second, cs) ← decimals? 2 0 cs
    if 59 < second then none
    match cs with
    | '.' :: d :: cs => if d.isDigit then some (cs.dropWhile Char.isDigit) else none
    | cs => some cs
  | cs => some cs

/-- Pass over an offset from universal time, which may be left out. -/
def afterOffset? : List Char → Option (List Char)
  | 'Z' :: cs | 'z' :: cs => some cs
  | '+' :: cs | '-' :: cs => do
    let (hour, ':' :: cs) ← decimals? 2 0 cs | none
    let (minute, cs) ← decimals? 2 0 cs
    if 24 < hour ∨ 60 < minute then none else some cs
  | cs => some cs

/-- Whether a word writes a date, a time of day, or both. -/
def isTime (word : List Char) : Bool :=
  match afterDate? word with
  | some [] => true
  | some (c :: cs) =>
    ['T', 't', ' '].contains c && ((afterClock? cs).bind afterOffset?).any (·.isEmpty)
  | none => (afterClock? word).any (·.isEmpty)

/-! ## Words -/

/-- Whether a character may stand in a number, a time or a truth value. -/
def isWordChar (c : Char) : Bool := c.isAlphanum || "_+-.:".toList.contains c

/-- The word at the front of a text; a date takes the time of day after a space with it. -/
def takeWord (cs : List Char) : List Char × List Char :=
  let word := cs.takeWhile isWordChar
  let rest := cs.drop word.length
  match rest with
  | ' ' :: d :: _ =>
    if (afterDate? word).any (·.isEmpty) && d.isDigit then
      let clock := (rest.drop 1).takeWhile isWordChar
      (word ++ ' ' :: clock, rest.drop (1 + clock.length))
    else (word, rest)
  | rest => (word, rest)

/-- The value that a word writes. -/
def word? (word : List Char) : Option Written :=
  if word = ['t', 'r', 'u', 'e'] then some (.bool true)
  else if word = ['f', 'a', 'l', 's', 'e'] then some (.bool false)
  else match integer? word with
    | some n => some (.integer n)
    | none =>
      match float? word with
      | some x => some (.float x)
      | none => if isTime word then some (.time (String.ofList word)) else none

end FormulaFold.Toml
