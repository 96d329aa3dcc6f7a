/-! # TOML as written

A TOML text is a list of statements.  A statement opens a table, opens the next table of an
array of tables, or gives a value to a key.  Keys have one or more parts.
-/
namespace FormulaFold.Toml

/-- The parts of a key. -/
abbrev Key := List String

/-- A value as written. -/
inductive Written where
  | text (s : String)
  | integer (n : Int)
  | float (x : Float)
  | bool (b : Bool)
  /-- A date, a time of day or both. -/
  | time (literal : String)
  | list (items : List Written)
  /-- A table written in one place. -/
  | fields (entries : List (Key × Written))

/-- One statement of a text. -/
inductive Statement where
  | table (key : Key)
  | nextTable (key : Key)
  | assign (key : Key) (value : Written)

/-- A character of a key part that needs no quotes. -/
def isBareChar (c : Char) : Bool := c.isAlphanum || c = '_' || c = '-'

/-- How one character of a quoted key part is written. -/
def escapeKeyChar (c : Char) : String :=
  let hex (n : Nat) : String := String.ofList [Nat.digitChar (n / 16), Nat.digitChar (n % 16)]
  match c with
  | '"' => "\\\""
  | '\\' => "\\\\"
  | '\x08' => "\\b"
  | '\t' => "\\t"
  | '\n' => "\\n"
  | '\x0c' => "\\f"
  | '\r' => "\\r"
  | c => if c.toNat < 0x20 ∨ c.toNat = 0x7F then "\\u00" ++ hex c.toNat else String.singleton c

/-- A key part as messages show it: quoted unless it is bare. -/
def showPart (part : String) : String :=
  if part ≠ "" ∧ part.toList.all isBareChar then part
  else "\"" ++ "".intercalate (part.toList.map escapeKeyChar) ++ "\""

/-- A key as messages show it. -/
def Key.render (key : Key) : String := ".".intercalate (key.map showPart)

end FormulaFold.Toml
