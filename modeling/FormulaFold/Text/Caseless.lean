/-! # Names without letter case

Fields and settings are named by small Latin letters, and their names match in any letter case.
Two letters outside ASCII have a small Latin letter as their plain form: the long s and the
Kelvin sign.
-/
namespace FormulaFold.Text

/-- A name without its letter case. -/
def caseless (name : String) : String :=
  String.ofList (name.toList.map fun c =>
    if c.toNat = 0x17F then 's' else if c.toNat = 0x212A then 'k' else c.toLower)

end FormulaFold.Text
