import FormulaFold.Json.Basic

/-! # Reading JSON

`Json.read?` reads one value from the front of a text and leaves what follows it.  The grammar
is the standard one: no comments, no trailing commas, no control characters inside strings.
Half of a surrogate pair that stands alone is read as the replacement character.  Containers
nest at most `nestingLimit` deep.

The functions below recurse on a bound.  No character costs more than two steps, so twice the
length of the text, from which `Json.read?` starts them, is never used up.
-/
namespace FormulaFold.Json

/-- How deep lists and objects may be nested. -/
def nestingLimit : Nat := 10000

/-- Drop leading blanks. -/
def skipBlank : List Char → List Char
  | [] => []
  | c :: cs => if c = ' ' ∨ c = '\t' ∨ c = '\n' ∨ c = '\r' then skipBlank cs else c :: cs

/-- The value of four hexadecimal digits at the front of a text. -/
def hex4? : List Char → Option (Nat × List Char)
  | a :: b :: c :: d :: rest => do
    let value (x : Char) : Option Nat :=
      if x.isDigit then some (x.toNat - '0'.toNat)
      else if 'a' ≤ x ∧ x ≤ 'f' then some (x.toNat - 'a'.toNat + 10)
      else if 'A' ≤ x ∧ x ≤ 'F' then some (x.toNat - 'A'.toNat + 10)
      else none
    let n := (((← value a) * 16 + (← value b)) * 16 + (← value c)) * 16 + (← value d)
    some (n, rest)
  | _ => none

/-- The character of a `\u` escape whose first unit is `n`: a pair of surrogates joins into one
character, a lone one becomes the replacement character. -/
def unicodeEscape (n : Nat) (rest : List Char) : Char × List Char :=
  if n < 0xD800 ∨ 0xE000 ≤ n then (Char.ofNat n, rest)
  else
    let lone := (Char.ofNat 0xFFFD, rest)
    if 0xDC00 ≤ n then lone
    else match rest with
      | '\\' :: 'u' :: more =>
        match hex4? more with
        | some (low, rest) =>
          if 0xDC00 ≤ low ∧ low < 0xE000 then
            (Char.ofNat (0x10000 + (n - 0xD800) * 0x400 + (low - 0xDC00)), rest)
          else lone
        | none => lone
      | _ => lone

/-- Read the rest of a string whose opening quote has been read; `done` holds the characters
read so far, last one first. -/
def readString? : (bound : Nat) → (done : List Char) → List Char →
    Option (String × List Char)
  | 0, _, _ => none
  | _, _, [] => none
  | bound + 1, done, c :: cs =>
    if c = '"' then some (String.ofList done.reverse, cs)
    else if c.toNat < 0x20 then none
    else if c ≠ '\\' then readString? bound (c :: done) cs
    else match cs with
      | '"' :: cs => readString? bound ('"' :: done) cs
      | '\\' :: cs => readString? bound ('\\' :: done) cs
      | '/' :: cs => readString? bound ('/' :: done) cs
      | 'b' :: cs => readString? bound ('\x08' :: done) cs
      | 'f' :: cs => readString? bound ('\x0c' :: done) cs
      | 'n' :: cs => readString? bound ('\n' :: done) cs
      | 'r' :: cs => readString? bound ('\r' :: done) cs
      | 't' :: cs => readString? bound ('\t' :: done) cs
      | 'u' :: cs =>
        match hex4? cs with
        | some (n, cs) =>
          let (c, cs) := unicodeEscape n cs
          readString? bound (c :: done) cs
        | none => none
      | _ => none

/-- One or more digits at the front of a text. -/
def digits? (cs : List Char) : Option (List Char × List Char) :=
  match cs.takeWhile Char.isDigit with
  | [] => none
  | ds => some (ds, cs.dropWhile Char.isDigit)

/-- Read a number literal. -/
def readNumber? (cs : List Char) : Option (String × List Char) := do
  let (sign, cs) := match cs with
    | '-' :: cs => (['-'], cs)
    | cs => ([], cs)
  let (whole, cs) ← match cs with
    | '0' :: cs => some (['0'], cs)
    | cs => digits? cs
  let (fraction, cs) ← match cs with
    | '.' :: cs => (digits? cs).map fun (ds, cs) => ('.' :: ds, cs)
    | cs => some ([], cs)
  let (power, cs) ← match cs with
    | c :: rest =>
      if c = 'e' ∨ c = 'E' then
        let (sign, rest) := match rest with
          | '+' :: rest => (['+'], rest)
          | '-' :: rest => (['-'], rest)
          | rest => ([], rest)
        (digits? rest).map fun (ds, cs) => (c :: (sign ++ ds), cs)
      else some ([], c :: rest)
    | [] => some ([], [])
  return (String.ofList (sign ++ whole ++ fraction ++ power), cs)

mutual
/-- Read one value; `depth` containers may still be opened. -/
def readValue? : (bound depth : Nat) → List Char → Option (Json × List Char)
  | 0, _, _ => none
  | bound + 1, depth, cs =>
    match skipBlank cs with
    | 'n' :: 'u' :: 'l' :: 'l' :: cs => some (null, cs)
    | 't' :: 'r' :: 'u' :: 'e' :: cs => some (bool true, cs)
    | 'f' :: 'a' :: 'l' :: 's' :: 'e' :: cs => some (bool false, cs)
    | '"' :: cs => (readString? bound [] cs).map fun (s, cs) => (string s, cs)
    | '[' :: cs =>
      if depth = 0 then none
      else match skipBlank cs with
        | ']' :: cs => some (list [], cs)
        | cs => (readItems? bound (depth - 1) cs).map fun (items, cs) => (list items, cs)
    | '\x7b' :: cs =>
      if depth = 0 then none
      else match skipBlank cs with
        | '\x7d' :: cs => some (object [], cs)
        | cs => (readMembers? bound (depth - 1) cs).map fun (ms, cs) => (object ms, cs)
    | cs => (readNumber? cs).map fun (literal, cs) => (number literal, cs)
/-- Read the items of a list up to its closing bracket. -/
def readItems? : (bound depth : Nat) → List Char → Option (List Json × List Char)
  | 0, _, _ => none
  | bound + 1, depth, cs => do
    let (item, cs) ← readValue? bound depth cs
    match skipBlank cs with
    | ',' :: cs =>
      let (items, cs) ← readItems? bound depth cs
      return (item :: items, cs)
    | ']' :: cs => return ([item], cs)
    | _ => none
/-- Read the members of an object up to its closing brace. -/
def readMembers? : (bound depth : Nat) → List Char → Option (List (String × Json) × List Char)
  | 0, _, _ => none
  | bound + 1, depth, cs => do
    let '"' :: cs := skipBlank cs | none
    let (name, cs) ← readString? bound [] cs
    let ':' :: cs := skipBlank cs | none
    let (value, cs) ← readValue? bound depth cs
    match skipBlank cs with
    | ',' :: cs =>
      let (members, cs) ← readMembers? bound depth cs
      return ((name, value) :: members, cs)
    | '\x7d' :: cs => return ([(name, value)], cs)
    | _ => none
end

/-- Read the value at the front of `s`, and what follows it. -/
def read? (s : String) : Option (Json × List Char) :=
  let cs := s.toList
  readValue? (2 * cs.length + 2) nestingLimit cs

/-- Read the value at the front of `s`, whatever follows it. -/
def readFirst? (s : String) : Option Json := (read? s).map (·.1)

end FormulaFold.Json
