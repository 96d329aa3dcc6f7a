import FormulaFold.Text.Runs

/-! # Letter case, one character for one

`upper` and `lower` map each character to its one-character counterpart, where it has one, and
leave every other character alone.  A character whose capital form needs two characters, such
as the sharp s, is therefore its own capital; the dotted capital I goes to the plain small i.

Above ASCII most letters come in pairs, each the other's counterpart, and one table of pairs
serves both ways.  The letters that go one way only have tables of their own.
-/
namespace FormulaFold.Text

/-- Small letters right after their capitals: every other code point of each run. -/
def alternating : List Run := [
  (0x101, 0x12F), (0x133, 0x137), (0x13A, 0x148), (0x14B, 0x177), (0x17A, 0x17E), (0x183, 0x185),
  0x188, 0x18C, 0x192, 0x199, (0x1A1, 0x1A5), 0x1A8, 0x1AD, 0x1B0, (0x1B4, 0x1B6), 0x1B9, 0x1BD,
  (0x1CE, 0x1DC), (0x1DF, 0x1EF), 0x1F5, (0x1F9, 0x21F), (0x223, 0x233), 0x23C, 0x242,
  (0x247, 0x24F), (0x371, 0x373), 0x377, (0x3D9, 0x3EF), 0x3F8, 0x3FB, (0x461, 0x481),
  (0x48B, 0x4BF), (0x4C2, 0x4CE), (0x4D1, 0x52F), 0x1C8A, (0x1E01, 0x1E95), (0x1EA1, 0x1EFF),
  0x2184, 0x2C61, (0x2C68, 0x2C6C), 0x2C73, 0x2C76, (0x2C81, 0x2CE3), (0x2CEC, 0x2CEE), 0x2CF3,
  (0xA641, 0xA66D), (0xA681, 0xA69B), (0xA723, 0xA72F), (0xA733, 0xA76F), (0xA77A, 0xA77C),
  (0xA77F, 0xA787), 0xA78C, (0xA791, 0xA793), (0xA797, 0xA7A9), (0xA7B5, 0xA7C3), (0xA7C8, 0xA7CA),
  (0xA7CD, 0xA7DB), 0xA7F6]

/-- Small letters that follow each other as their capitals do: the first, the last, and the way
to the capitals. -/
def parallel : List (Nat × Nat × Int) := [
  (0xE0, 0xF6, -32), (0xF8, 0xFE, -32), (0x23F, 0x240, 10815), (0x256, 0x257, -205),
  (0x28A, 0x28B, -217), (0x37B, 0x37D, 130), (0x3AD, 0x3AF, -37), (0x3B1, 0x3C1, -32),
  (0x3C3, 0x3CB, -32), (0x3CD, 0x3CE, -63), (0x430, 0x44F, -32), (0x450, 0x45F, -80),
  (0x561, 0x586, -48), (0x10D0, 0x10FA, 3008), (0x10FD, 0x10FF, 3008), (0x13F8, 0x13FD, -8),
  (0x1F00, 0x1F07, 8), (0x1F10, 0x1F15, 8), (0x1F20, 0x1F27, 8), (0x1F30, 0x1F37, 8),
  (0x1F40, 0x1F45, 8), (0x1F60, 0x1F67, 8), (0x1F70, 0x1F71, 74), (0x1F72, 0x1F75, 86),
  (0x1F76, 0x1F77, 100), (0x1F78, 0x1F79, 128), (0x1F7A, 0x1F7B, 112), (0x1F7C, 0x1F7D, 126),
  (0x1F80, 0x1F87, 8), (0x1F90, 0x1F97, 8), (0x1FA0, 0x1FA7, 8), (0x1FB0, 0x1FB1, 8),
  (0x1FD0, 0x1FD1, 8), (0x1FE0, 0x1FE1, 8), (0x2170, 0x217F, -16), (0x24D0, 0x24E9, -26),
  (0x2C30, 0x2C5F, -48), (0x2D00, 0x2D25, -7264), (0xAB70, 0xABBF, -38864), (0xFF41, 0xFF5A, -32),
  (0x10428, 0x1044F, -40), (0x104D8, 0x104FB, -40), (0x10597, 0x105A1, -39),
  (0x105A3, 0x105B1, -39), (0x105B3, 0x105B9, -39), (0x105BB, 0x105BC, -39),
  (0x10CC0, 0x10CF2, -64), (0x10D70, 0x10D85, -32), (0x118C0, 0x118DF, -32),
  (0x16E60, 0x16E7F, -32), (0x16EBB, 0x16ED3, -27), (0x1E922, 0x1E943, -34)]

/-- Other small letters, each with its capital. -/
def scattered : List (Nat × Nat) := [
  (0xFF, 0x178), (0x180, 0x243), (0x195, 0x1F6), (0x19A, 0x23D), (0x19B, 0xA7DC), (0x19E, 0x220),
  (0x1BF, 0x1F7), (0x1C6, 0x1C4), (0x1C9, 0x1C7), (0x1CC, 0x1CA), (0x1DD, 0x18E), (0x1F3, 0x1F1),
  (0x250, 0x2C6F), (0x251, 0x2C6D), (0x252, 0x2C70), (0x253, 0x181), (0x254, 0x186), (0x259, 0x18F),
  (0x25B, 0x190), (0x25C, 0xA7AB), (0x260, 0x193), (0x261, 0xA7AC), (0x263, 0x194), (0x264, 0xA7CB),
  (0x265, 0xA78D), (0x266, 0xA7AA), (0x268, 0x197), (0x269, 0x196), (0x26A, 0xA7AE),
  (0x26B, 0x2C62), (0x26C, 0xA7AD), (0x26F, 0x19C), (0x271, 0x2C6E), (0x272, 0x19D), (0x275, 0x19F),
  (0x27D, 0x2C64), (0x280, 0x1A6), (0x282, 0xA7C5), (0x283, 0x1A9), (0x287, 0xA7B1), (0x288, 0x1AE),
  (0x289, 0x244), (0x28C, 0x245), (0x292, 0x1B7), (0x29D, 0xA7B2), (0x29E, 0xA7B0), (0x3AC, 0x386),
  (0x3CC, 0x38C), (0x3D7, 0x3CF), (0x3F2, 0x3F9), (0x3F3, 0x37F), (0x4CF, 0x4C0), (0x1D79, 0xA77D),
  (0x1D7D, 0x2C63), (0x1D8E, 0xA7C6), (0x1F51, 0x1F59), (0x1F53, 0x1F5B), (0x1F55, 0x1F5D),
  (0x1F57, 0x1F5F), (0x1FB3, 0x1FBC), (0x1FC3, 0x1FCC), (0x1FE5, 0x1FEC), (0x1FF3, 0x1FFC),
  (0x214E, 0x2132), (0x2C65, 0x23A), (0x2C66, 0x23E), (0x2D27, 0x10C7), (0x2D2D, 0x10CD),
  (0xA794, 0xA7C4), (0xAB53, 0xA7B3)]

/-- Letters with a capital that has another small form, or none. -/
def capitalOnly : List (Nat × Nat) := [
  (0xB5, 0x39C), (0x131, 0x49), (0x17F, 0x53), (0x1C5, 0x1C4), (0x1C8, 0x1C7), (0x1CB, 0x1CA),
  (0x1F2, 0x1F1), (0x345, 0x399), (0x3C2, 0x3A3), (0x3D0, 0x392), (0x3D1, 0x398), (0x3D5, 0x3A6),
  (0x3D6, 0x3A0), (0x3F0, 0x39A), (0x3F1, 0x3A1), (0x3F5, 0x395), (0x1C80, 0x412), (0x1C81, 0x414),
  (0x1C82, 0x41E), (0x1C83, 0x421), (0x1C84, 0x422), (0x1C85, 0x422), (0x1C86, 0x42A),
  (0x1C87, 0x462), (0x1C88, 0xA64A), (0x1E9B, 0x1E60), (0x1FBE, 0x399)]

/-- Letters with a small form that has another capital, or none. -/
def smallOnly : List (Nat × Nat) := [
  (0x130, 0x69), (0x1C5, 0x1C6), (0x1C8, 0x1C9), (0x1CB, 0x1CC), (0x1F2, 0x1F3), (0x3F4, 0x3B8),
  (0x1E9E, 0xDF), (0x2126, 0x3C9), (0x212A, 0x6B), (0x212B, 0xE5)]

/-- A run of small letters: every `step`-th code point, each at the distance `shift` from its
capital. -/
structure CaseRun where
  first : Nat
  last : Nat
  step : Nat
  shift : Int

/-- Whether the code point `n` belongs to the run. -/
def CaseRun.holds (run : CaseRun) (n : Int) : Bool :=
  run.first ≤ n && n ≤ run.last && (n - run.first) % run.step == 0

/-- All the letters that come in pairs. -/
def pairedLetters : List CaseRun :=
  alternating.map (fun run => ⟨run.1, run.2, 2, -1⟩) ++
    parallel.map (fun (first, last, shift) => ⟨first, last, 1, shift⟩) ++
    scattered.map fun (small, capital) => ⟨small, small, 1, capital - small⟩

/-- The code point that `lone` has for `n`, or else `n` moved by the first run that holds the
small letter: `n` itself on the way `up`, and what is left of `n` without the shift otherwise. -/
def counterpart (lone : List (Nat × Nat)) (up : Bool) (n : Nat) : Nat :=
  lone.lookup n |>.getD <|
    match pairedLetters.find? fun run => run.holds (if up then n else n - run.shift) with
    | some run => (if up then n + run.shift else n - run.shift).toNat
    | none => n

/-- The one-character capital of `c`. -/
def upperChar (c : Char) : Char :=
  if c.toNat < 0x80 then c.toUpper else Char.ofNat (counterpart capitalOnly true c.toNat)

/-- The one-character small form of `c`. -/
def lowerChar (c : Char) : Char :=
  if c.toNat < 0x80 then c.toLower else Char.ofNat (counterpart smallOnly false c.toNat)

/-- `s` in capitals, character by character. -/
def upper (s : String) : String := String.ofList (s.toList.map upperChar)

/-- `s` in small letters, character by character. -/
def lower (s : String) : String := String.ofList (s.toList.map lowerChar)

end FormulaFold.Text
