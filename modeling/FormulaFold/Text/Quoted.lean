import FormulaFold.Text.Printable

/-! # Quoted text

Text inside formulas and messages is written between double quotes.  The quote and the
backslash are escaped, the usual control characters have letters of their own, other
characters that cannot be shown are written by their code point, and everything printable
stands for itself.
-/
namespace FormulaFold.Text

/-- The last `width` hexadecimal digits of `n`, in small letters. -/
def hex : (width : Nat) → (n : Nat) → List Char
  | 0, _ => []
  | width + 1, n => hex width (n / 16) ++ [Nat.digitChar (n % 16)]

/-- How one character is written between quotes. -/
def escape (c : Char) : List Char :=
  if c = '"' then ['\\', '"']
  else if c = '\\' then ['\\', '\\']
  else if printable c then [c]
  else match c.toNat with
    | 0x07 => ['\\', 'a']
    | 0x08 => ['\\', 'b']
    | 0x09 => ['\\', 't']
    | 0x0A => ['\\', 'n']
    | 0x0B => ['\\', 'v']
    | 0x0C => ['\\', 'f']
    | 0x0D => ['\\', 'r']
    | n =>
      if n < 0x80 then '\\' :: 'x' :: hex 2 n
      else if n < 0x10000 then '\\' :: 'u' :: hex 4 n
      else '\\' :: 'U' :: hex 8 n

/-- The characters of `cs` between quotes. -/
def quoteChars (cs : List Char) : List Char :=
  '"' :: (cs.flatMap escape ++ ['"'])

/-- `s` between quotes. -/
def quote (s : String) : String := String.ofList (quoteChars s.toList)

end FormulaFold.Text
