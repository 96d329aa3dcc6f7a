import FormulaFold.Proofs.Computed
import FormulaFold.Proofs.Names

/-! # Sorts of formulas

Most places of a formula take a single value.  Ranges, splices and sub-sections stand for
several; they may only be arguments of operators, of functions other than `IF` and of folds.
`Expr.isSorted` says that a formula and everything in it stands where it may, and that its folds
go through their elements in order.

A range among the arguments of an operator or a function, in a splice there or as the table of a
fold must have the shape that it claims (`fitsShape`): as many elements as the product of its counts
of rows and columns, and a product that does not wrap around.  A run takes a range of another shape
as one row of all its elements, whereas folding goes by its counts
(`evaluate_optimize_fails_wrapped`).  A range among the elements of other folds, which go through it
at any depth, may have any shape (`Place.takesRange`).

No constant may be an array.  Where all values are `plain`, the constants are settled too.
-/
namespace FormulaFold

variable {d : FoldDef Expr}

/-! ## Formulas -/

/-- Whether a range of the given shape has that many elements. -/
def fitsShape (rows cols : Int) (length : Nat) : Bool :=
  rows * cols == length && fitsWord (rows * cols)

/-- Whether the row and the column of an address are those of words. -/
def Address.isWord (a : Address) : Bool := fitsWord a.row && fitsWord a.col

mutual
/-- Whether there is a fold in the formula, counted arguments aside. -/
def Expr.hasFold : Expr → Bool
  | .fold .. | .reduce .. | .foldArray .. | .foldVectors .. | .foldTable .. => true
  | .constant .. | .cell _ | .letVar .. | .count .. => false
  | .operator _ args _ | .call _ args _ | .range _ _ args | .splice args
  | .subSection _ args => anyFold args
  | .letIn _ value body => optionFold value || optionFold body
  | .switch selector cases otherwise _ =>
    optionFold selector || casesFold cases || optionFold otherwise
  | .switchCase c => caseFold c
  | .parentSection _ inner => optionFold inner
/-- Whether there is a fold in a child. -/
def optionFold : Option Expr → Bool
  | none => false
  | some e => e.hasFold
/-- Whether there is a fold in one of the children. -/
def anyFold : List (Option Expr) → Bool
  | [] => false
  | e :: rest => optionFold e || anyFold rest
/-- Whether there is a fold in the branch of a case. -/
def caseFold : Case Expr → Bool
  | ⟨_, branch⟩ => optionFold branch
/-- Whether there is a fold in the branch of one of the cases. -/
def casesFold : List (Case Expr) → Bool
  | [] => false
  | c :: rest => caseFold c || casesFold rest
end

/-- Where a formula stands. -/
inductive Place where
  /-- Where a single value is taken. -/
  | scalar
  /-- Among the elements of a splice. -/
  | spliced
  /-- Among the arguments of an operator or a function, or as the table of a fold. -/
  | argument
  /-- Among the elements of a fold, which goes through what is in them at any depth. -/
  | element
deriving DecidableEq

namespace Place

/-- Whether a sub-section may stand at the place. -/
def takesSeveral : Place → Bool
  | scalar => false
  | spliced | argument | element => true

/-- Whether a range of the given shape may stand at the place. -/
def takesRange (rows cols : Int) (length : Nat) : Place → Bool
  | scalar => false
  | spliced | argument => fitsShape rows cols length
  | element => true

/-- Whether a splice may stand at the place. -/
def takesSplice : Place → Bool
  | scalar | spliced => false
  | argument | element => true

/-- Where the elements of a range stand. -/
def inRange : Place → Place
  | element => element
  | _ => scalar

/-- Where the elements of a splice stand. -/
def inSplice : Place → Place
  | element => element
  | _ => spliced

end Place

/-- What a call asks of its arguments beside their sorts. -/
def fitsCall (args : Children) : Option Builtin → Bool
  | some .ifElse => args.head?.join.isSome
  | _ => true

theorem exists_condition_of_fitsCall (h : fitsCall args (some .ifElse) = true) :
    ∃ condition branches, args = some condition :: branches := by
  rcases args with _ | ⟨_ | condition, branches⟩
  · cases h
  · cases h
  · exact ⟨condition, branches, rfl⟩

/-- Where the arguments of a call stand. -/
def argumentPlace : Option Builtin → Place
  | some .ifElse => .scalar
  | _ => .argument

mutual
/-- Whether the formula may stand at the place. -/
def Expr.isSorted (plain : Bool) (place : Place) : Expr → Bool
  | .constant v _ => v.fits plain
  | .operator _ args _ => allSorted plain .argument args
  | .call fn args _ =>
    fitsCall args (ofName? fn) &&
      allSorted plain (argumentPlace (ofName? fn)) args
  | .cell a => a.isWord
  | .letVar .. | .count .. => true
  | .range rows cols elements =>
    place.takesRange rows cols elements.length && allSorted plain place.inRange elements
  | .letIn _ value body => optionSorted plain .scalar value && optionSorted plain .scalar body
  | .splice elements => place.takesSplice && allSorted plain place.inSplice elements
  | .switch selector cases otherwise _ =>
    optionSorted plain .scalar selector && casesSorted plain cases &&
      optionSorted plain .scalar otherwise
  | .switchCase _ => false
  | .fold _ d seeds _ elements _ | .foldVectors d seeds _ elements _ =>
    d.orderSensitive && defSorted plain d && seedsSorted plain seeds &&
      allSorted plain .element elements
  | .reduce d seed _ elements _ =>
    d.orderSensitive && defSorted plain d && optionSorted plain .scalar seed &&
      allSorted plain .element elements
  | .foldArray d array _ => defSorted plain d && optionSorted plain .element array
  | .foldTable d seeds _ _ filter _ table _ =>
    d.orderSensitive && defSorted plain d && seedsSorted plain seeds &&
      optionSorted plain .scalar filter && optionSorted plain .argument table
  | .parentSection _ inner => optionSorted plain .scalar inner
  | .subSection _ elements => place.takesSeveral && allSorted plain .scalar elements
/-- Whether a child, if there is one, may stand at the place. -/
def optionSorted (plain : Bool) (place : Place) : Option Expr → Bool
  | none => true
  | some e => e.isSorted plain place
/-- Whether children may stand at the place. -/
def allSorted (plain : Bool) (place : Place) : List (Option Expr) → Bool
  | [] => true
  | e :: rest => optionSorted plain place e && allSorted plain place rest
/-- Whether seeds are single values. -/
def seedsSorted (plain : Bool) : List Expr → Bool
  | [] => true
  | e :: rest => e.isSorted plain .scalar && seedsSorted plain rest
/-- Whether the branch of a case is a single value. -/
def caseSorted (plain : Bool) : Case Expr → Bool
  | ⟨_, branch⟩ => optionSorted plain .scalar branch
/-- Whether the branches of cases are single values. -/
def casesSorted (plain : Bool) : List (Case Expr) → Bool
  | [] => true
  | c :: rest => caseSorted plain c && casesSorted plain rest
/-- Whether the formulas of an accumulator are single values. -/
def accumulatorSorted (plain : Bool) : Accumulator Expr → Bool
  | ⟨_, init, step⟩ => optionSorted plain .scalar init && step.isSorted plain .scalar
/-- Whether the formulas of accumulators are single values. -/
def accumulatorsSorted (plain : Bool) : List (Accumulator Expr) → Bool
  | [] => true
  | a :: rest => accumulatorSorted plain a && accumulatorsSorted plain rest
/-- Whether the formulas of a fold are single values, and there is no fold in its merge. -/
def defSorted (plain : Bool) : FoldDef Expr → Bool
  | ⟨accumulators, _, _, _, merge, whenEmpty, _⟩ =>
    accumulatorsSorted plain accumulators && optionSorted plain .scalar merge &&
      !optionFold merge && optionSorted plain .scalar whenEmpty
end

export Expr (isSorted)

/-- Whether a fold is sorted but for going through its elements in order. -/
def Expr.isSortedFold (plain : Bool) : Expr → Bool
  | .fold _ d seeds _ elements _ =>
    defSorted plain d && seedsSorted plain seeds && allSorted plain .element elements
  | .reduce d seed _ elements _ =>
    defSorted plain d && optionSorted plain .scalar seed &&
      allSorted plain .element elements
  | .foldTable d seeds _ _ filter _ table _ =>
    defSorted plain d && seedsSorted plain seeds && optionSorted plain .scalar filter &&
      optionSorted plain .argument table
  | _ => false

section Lists

attribute [local simp] Expr.isSorted

theorem Expr.isSorted_constant : (Expr.constant v t).isSorted plain place = v.fits plain := by simp

theorem optionSorted_iff :
    optionSorted plain place e = true ↔ ∀ x, e = some x → x.isSorted plain place = true := by
  cases e <;> simp [optionSorted]

theorem allSorted_iff :
    allSorted plain place es = true ↔ ∀ x, some x ∈ es → x.isSorted plain place = true := by
  induction es with
  | nil => simp [allSorted]
  | cons e es ih =>
    simp only [allSorted, and_eq_true, optionSorted_iff, ih, mem_cons]
    constructor
    · rintro ⟨he, hes⟩ x (hx | hx)
      · exact he x hx.symm
      · exact hes x hx
    · intro h
      exact ⟨fun x hx => h x (.inl hx.symm), fun x hx => h x (.inr hx)⟩

theorem seedsSorted_iff :
    seedsSorted plain es = true ↔ ∀ x ∈ es, x.isSorted plain .scalar = true := by
  induction es with
  | nil => simp [seedsSorted]
  | cons e es ih => simp [seedsSorted, ih]

theorem casesSorted_iff : casesSorted plain cs = true ↔
      ∀ c ∈ cs, ∀ x, c.branch = some x → x.isSorted plain .scalar = true := by
  induction cs with
  | nil => simp [casesSorted]
  | cons c cs ih =>
    obtain ⟨values, branch⟩ := c
    simp [casesSorted, caseSorted, optionSorted_iff, ih]

/-- Each formula of a sorted fold definition is a single value. -/
structure FoldDef.Sorted (plain : Bool) (d : FoldDef Expr) : Prop where
  inits : ∀ x, some x ∈ d.inits → x.isSorted plain .scalar = true
  steps : ∀ x ∈ d.steps, x.isSorted plain .scalar = true
  merge : ∀ x, d.merge = some x → x.isSorted plain .scalar = true
  unfolded : ∀ x, d.merge = some x → x.hasFold = false
  whenEmpty : ∀ x, d.whenEmpty = some x → x.isSorted plain .scalar = true

theorem accumulatorsSorted_iff :
    accumulatorsSorted plain as = true ↔ ∀ a ∈ as,
      (∀ x, a.init = some x → x.isSorted plain .scalar = true) ∧
        a.step.isSorted plain .scalar = true := by
  induction as with
  | nil => simp [accumulatorsSorted]
  | cons a as ih =>
    obtain ⟨name, init, step⟩ := a
    simp [accumulatorsSorted, accumulatorSorted, optionSorted_iff, ih]

theorem sorted_of_defSorted (h : defSorted plain d = true) : d.Sorted plain := by
  obtain ⟨accs, elements, index, count, merge, whenEmpty, commutative⟩ := d
  simp only [defSorted, and_eq_true, accumulatorsSorted_iff, optionSorted_iff] at h
  obtain ⟨⟨⟨haccs, hmerge⟩, hfold⟩, hempty⟩ := h
  refine ⟨fun x hx => ?_, fun x hx => ?_, hmerge, fun x hx => ?_, hempty⟩
  · obtain ⟨a, ha, hinit⟩ := mem_map.mp hx
    exact (haccs a ha).1 x hinit
  · obtain ⟨a, ha, rfl⟩ := mem_map.mp hx
    exact (haccs a ha).2
  · cases hx
    simpa [optionFold] using hfold

theorem FoldDef.Sorted.start (h : d.Sorted plain) {seeds : List Expr}
    (hseeds : seedsSorted plain seeds = true) (x : Expr) (hx : some x ∈ d.start seeds) :
    x.isSorted plain .scalar = true :=
  (FoldDef.mem_start d hx).elim (h.inits x) (seedsSorted_iff.mp hseeds x)

/-- The branches of a switch are sorted. -/
theorem Expr.sorted_branch {selector otherwise : Option Expr} {cases : List (Case Expr)} {x : Expr}
    (h : (switch selector cases otherwise t).isSorted plain place = true)
    (hx : some x ∈ cases.map (·.branch) ∨ otherwise = some x) :
    x.isSorted plain .scalar = true ∧ x ∈ (switch selector cases otherwise t).parts := by
  simp only [isSorted, and_eq_true, casesSorted_iff, optionSorted_iff] at h
  rcases hx with hx | hx
  · obtain ⟨c, hc, hbranch⟩ := mem_map.mp hx
    exact ⟨h.1.2 c hc x hbranch, by simp [parts, hx]⟩
  · exact ⟨h.2 x hx, by simp [parts, hx]⟩

end Lists

/-! ## Formulas without folds -/

theorem anyFold_iff : anyFold es = false ↔ ∀ x, some x ∈ es → x.hasFold = false := by
  induction es with
  | nil => simp [anyFold]
  | cons e es ih =>
    cases e with
    | none => simp [anyFold, optionFold, ih]
    | some e => simp [anyFold, optionFold, ih]

theorem optionFold_iff : optionFold e = false ↔ ∀ x, e = some x → x.hasFold = false := by
  cases e <;> simp [optionFold]

theorem casesFold_iff :
    casesFold cs = false ↔ ∀ c ∈ cs, ∀ x, c.branch = some x → x.hasFold = false := by
  induction cs with
  | nil => simp [casesFold]
  | cons c cs ih =>
    obtain ⟨values, branch⟩ := c
    simp [casesFold, caseFold, optionFold_iff, ih]

/-- A formula without folds has no parts that are kept as they stand. -/
theorem Expr.keptScoped_of_not_hasFold (e : Expr) : ∀ p : String → Bool, e.hasFold = false →
    e.keptScoped false p = true := by
  induction e using induction_on_parts with
  | step e ih =>
  intro p h
  have hall (es : Children) (hparts : ∀ x, some x ∈ es → x ∈ e.parts)
      (hes : anyFold es = false) : allKeptScoped false p es = true :=
    allKeptScoped_iff.mpr fun x hx => ih x (.part (hparts x hx)) p (anyFold_iff.mp hes x hx)
  have hoption (o : Option Expr) (p : String → Bool) (hparts : ∀ x, o = some x → x ∈ e.parts)
      (ho : optionFold o = false) : optionKeptScoped false p o = true :=
    optionKeptScoped_iff.mpr fun x hx => ih x (.part (hparts x hx)) p (optionFold_iff.mp ho x hx)
  cases e with
  | constant | cell | letVar | count => rfl
  | operator _ args | call _ args | range _ _ args | splice args | subSection _ args =>
    exact hall args (by simp [parts]) h
  | letIn name value body =>
    simp only [Expr.hasFold, or_eq_false_iff] at h
    simp only [Expr.keptScoped, and_eq_true]
    exact ⟨hoption value p (by simp_all [parts]) h.1,
      hoption body _ (by simp_all [parts]) h.2⟩
  | switch selector cases otherwise t =>
    simp only [Expr.hasFold, or_eq_false_iff] at h
    simp only [Expr.keptScoped, and_eq_true]
    refine ⟨⟨hoption selector p (by simp_all [parts]) h.1.1, ?_⟩,
      hoption otherwise p (by simp_all [parts]) h.2⟩
    refine casesKeptScoped_iff.mpr fun c hc x hx => ih x (.part ?_) p
      (casesFold_iff.mp h.1.2 c hc x hx)
    simp only [parts, mem_append, mem_present]
    exact .inl (.inr (mem_map.mpr ⟨c, hc, hx⟩))
  | switchCase c =>
    obtain ⟨values, branch⟩ := c
    exact hoption branch p (by simp [parts]) h
  | fold | reduce | foldArray | foldVectors | foldTable => cases h
  | parentSection s inner => exact hoption inner p (by simp [parts]) h

end FormulaFold
