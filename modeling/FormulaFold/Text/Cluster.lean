import FormulaFold.Text.BreakClass

/-! # Clusters of characters

A text is read from the front, and `ClusterEnd` keeps what is needed to tell whether the next
character still belongs to the cluster of the characters before it.  The class of the last
character is not enough: a joiner joins two pictographs, also when marks stand before it, a
linker joins two consonants, also with marks around it, and flags are made of two halves.
-/
namespace FormulaFold.Text

/-- What the end of a cluster still waits for. -/
inductive Pending where
  | nothing
  /-- A joiner, after a pictograph and its marks. -/
  | joiner
  /-- A pictograph, after such a joiner. -/
  | pictograph
  /-- A linker, after a consonant and its marks. -/
  | linker
  /-- A consonant, after such a linker. -/
  | consonant
  /-- The second half of a flag. -/
  | regional
deriving DecidableEq, Inhabited

namespace Pending

/-- What a cluster waits for after one more character. -/
def next : Pending → BreakClass → Pending
  | _, .pictograph => joiner
  | _, .consonant => linker
  | regional, .regional => nothing
  | _, .regional => regional
  | joiner, .extending | joiner, .linker | joiner, .nonJoiner => joiner
  | joiner, .joiner => pictograph
  | linker, .extending | linker, .joiner => linker
  | linker, .linker => consonant
  | consonant, .extending | consonant, .joiner | consonant, .linker => consonant
  | _, _ => nothing

/-- Whether a character of the class is what the cluster waits for as its next one. -/
def accepts : Pending → BreakClass → Bool
  | pictograph, .pictograph | consonant, .consonant | regional, .regional => true
  | _, _ => false

end Pending

/-- The end of a cluster. -/
structure ClusterEnd where
  last : BreakClass
  pending : Pending

namespace ClusterEnd

/-- The end of the cluster that starts with `c`. -/
def start (c : Char) : ClusterEnd :=
  let k := BreakClass.ofChar c
  ⟨k, Pending.nothing.next k⟩

/-- The end of the cluster with one more character. -/
def push (e : ClusterEnd) (c : Char) : ClusterEnd :=
  let k := BreakClass.ofChar c
  ⟨k, e.pending.next k⟩

/-- Whether the next character still belongs to the cluster. -/
def takes (e : ClusterEnd) (c : Char) : Bool :=
  let k := BreakClass.ofChar c
  if e.last = .carriageReturn ∧ k = .lineFeed then true
  else if e.last.standsAlone || k.standsAlone then false
  else k.attaches || e.last = .prepended || e.last.makesSyllable k || e.pending.accepts k

end ClusterEnd

end FormulaFold.Text
