import FormulaFold.Toml.Scalar

/-! # Reading TOML

`read?` gives the statements of a text, or `none` when the text is not TOML.  Lists and tables
written in one place may run over several lines, hold comments and end with a comma.

The functions below recurse on a bound for the number of characters they may still read;
`read?` starts them with the length of the text, which is never used up.
-/
namespace FormulaFold.Toml

/-- Drop leading spaces, line ends and comments. -/
def skipLines : (bound : Nat) → List Char → List Char
  | 0, cs => cs
  | bound + 1, cs =>
    match cs.dropWhile fun c => isSpace c || isLineEnd c with
    | '#' :: cs => skipLines bound (cs.dropWhile (!isLineEnd ·))
    | cs => cs

/-- Drop leading spaces, line ends and comments. -/
def skip (cs : List Char) : List Char := skipLines (cs.length + 1) cs

/-- Read one part of a key. -/
def readPart? : List Char → Option (String × List Char)
  | '"' :: cs => readBasic? (cs.length + 1) [] cs
  | '\'' :: cs => readRaw? cs
  | cs =>
    match cs.takeWhile isBareChar with
    | [] => none
    | part => some (String.ofList part, cs.drop part.length)

/-- Read a key and the spaces after it. -/
def readKey? : (bound : Nat) → List Char → Option (Key × List Char)
  | 0, _ => none
  | bound + 1, cs => do
    let (part, cs) ← readPart? (skipSpace cs)
    match skipSpace cs with
    | '.' :: cs =>
      let (key, cs) ← readKey? bound cs
      return (part :: key, cs)
    | cs => return ([part], cs)

mutual
/-- Read a value. -/
def readValue? : (bound : Nat) → List Char → Option (Written × List Char)
  | 0, _ => none
  | bound + 1, cs =>
    match skipSpace cs with
    | '[' :: cs => (readItems? bound cs).map fun (items, cs) => (.list items, cs)
    | '\x7b' :: cs => (readFields? bound cs).map fun (entries, cs) => (.fields entries, cs)
    | '"' :: cs => (readString? ('"' :: cs)).map fun (s, cs) => (.text s, cs)
    | '\'' :: cs => (readString? ('\'' :: cs)).map fun (s, cs) => (.text s, cs)
    | cs => do
      let (word, cs) := takeWord cs
      return (← word? word, cs)
/-- Read the items of a list up to its closing bracket. -/
def readItems? : (bound : Nat) → List Char → Option (List Written × List Char)
  | 0, _ => none
  | bound + 1, cs =>
    match skip cs with
    | ']' :: cs => some ([], cs)
    | cs => do
      let (item, cs) ← readValue? bound cs
      match skip cs with
      | ',' :: cs =>
        let (items, cs) ← readItems? bound cs
        return (item :: items, cs)
      | ']' :: cs => return ([item], cs)
      | _ => none
/-- Read the fields of a table up to its closing brace. -/
def readFields? : (bound : Nat) → List Char → Option (List (Key × Written) × List Char)
  | 0, _ => none
  | bound + 1, cs =>
    match skip cs with
    | '\x7d' :: cs => some ([], cs)
    | cs => do
      let (key, '=' :: cs) ← readKey? bound cs | none
      let (value, cs) ← readValue? bound cs
      match skip cs with
      | ',' :: cs =>
        let (entries, cs) ← readFields? bound cs
        return ((key, value) :: entries, cs)
      | '\x7d' :: cs => return ([(key, value)], cs)
      | _ => none
end

/-- What follows a statement on its line: nothing but a comment. -/
def endOfLine? (cs : List Char) : Option (List Char) :=
  match skipSpace cs with
  | [] => some []
  | c :: cs => if c = '#' ∨ isLineEnd c then some (c :: cs) else none

/-- Read one statement. -/
def readStatement? (bound : Nat) : List Char → Option (Statement × List Char)
  | '[' :: '[' :: cs => do
    let (key, ']' :: ']' :: cs) ← readKey? bound cs | none
    return (.nextTable key, cs)
  | '[' :: cs => do
    let (key, ']' :: cs) ← readKey? bound cs | none
    return (.table key, cs)
  | cs => do
    let (key, '=' :: cs) ← readKey? bound cs | none
    let (value, cs) ← readValue? bound cs
    return (.assign key value, cs)

/-- Read statements up to the end of the text. -/
def readStatements? : (bound : Nat) → List Char → Option (List Statement)
  | 0, _ => none
  | bound + 1, cs =>
    match skip cs with
    | [] => some []
    | cs => do
      let (statement, cs) ← readStatement? bound cs
      let statements ← readStatements? bound (← endOfLine? cs)
      return statement :: statements

/-- Whether a text has only characters that TOML allows: of the control characters the tab and
the ends of lines. -/
def charsOk : List Char → Bool
  | [] => true
  | '\r' :: '\n' :: cs => charsOk cs
  | c :: cs =>
    (c = '\t' || c = '\n' || (0x20 ≤ c.toNat && c.toNat ≠ 0x7F)) && charsOk cs

/-- The statements of a text; a mark of the byte order at its front is passed over. -/
def read? (text : String) : Option (List Statement) :=
  let cs := match text.toList with
    | c :: cs => if c.toNat = 0xFEFF then cs else c :: cs
    | [] => []
  if charsOk cs then readStatements? (cs.length + 1) cs else none

end FormulaFold.Toml
