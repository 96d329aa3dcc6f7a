import FormulaFold.Proofs.Parts

/-! # The names a formula refers to

A name in a formula is bound by a `letIn` around it, by the definition of a fold around it or by
the columns of a table, or it is bound outside of the formula.  `Expr.isScoped p` says of a
formula that each name which it takes from outside satisfies `p`; a closed formula takes none.
The empty name is never bound.

The arguments of a count are counted and not looked into; whether the names in them matter is
said by `counted`.
-/
namespace FormulaFold

variable {d : FoldDef Expr}

/-- Whether a name is one of the given names, the empty name left out, or satisfies `p`. -/
def binds (names : List String) (p : String → Bool) (name : String) : Bool :=
  decide (name ≠ "" ∧ name ∈ names) || p name

theorem binds_iff {p : String → Bool} :
    binds names p name = true ↔ (name ≠ "" ∧ name ∈ names) ∨ p name = true := by
  simp [binds]

mutual
/-- Whether each name that the formula takes from outside satisfies `p`. -/
def Expr.isScoped (counted : Bool) (p : String → Bool) : Expr → Bool
  | .constant .. | .cell _ => true
  | .letVar name _ => p name
  | .operator _ args _ | .call _ args _ | .range _ _ args | .splice args
  | .subSection _ args => allScoped counted p args
  | .count _ args => !counted || allScoped counted p args
  | .letIn name value body =>
    optionScoped counted p value && optionScoped counted (binds [name] p) body
  | .switch selector cases otherwise _ =>
    optionScoped counted p selector && casesScoped counted p cases &&
      optionScoped counted p otherwise
  | .switchCase c => caseScoped counted p c
  | .fold _ d seeds _ elements _ | .foldVectors d seeds _ elements _ =>
    defScoped counted p [] d && seedsScoped counted p seeds && allScoped counted p elements
  | .reduce d seed _ elements _ =>
    defScoped counted p [] d && optionScoped counted p seed && allScoped counted p elements
  | .foldArray d array _ => defScoped counted p [] d && optionScoped counted p array
  | .foldTable d seeds _ columns filter _ table _ =>
    defScoped counted p (columns.getD []) d && seedsScoped counted p seeds &&
      optionScoped counted (binds (columns.getD []) p) filter && optionScoped counted p table
  | .parentSection _ inner => optionScoped counted p inner
/-- Whether a child, if there is one, takes only such names from outside. -/
def optionScoped (counted : Bool) (p : String → Bool) : Option Expr → Bool
  | none => true
  | some e => e.isScoped counted p
/-- Whether children take only such names from outside. -/
def allScoped (counted : Bool) (p : String → Bool) : List (Option Expr) → Bool
  | [] => true
  | e :: rest => optionScoped counted p e && allScoped counted p rest
/-- Whether seeds take only such names from outside. -/
def seedsScoped (counted : Bool) (p : String → Bool) : List Expr → Bool
  | [] => true
  | e :: rest => e.isScoped counted p && seedsScoped counted p rest
/-- Whether a case takes only such names from outside. -/
def caseScoped (counted : Bool) (p : String → Bool) : Case Expr → Bool
  | ⟨_, branch⟩ => optionScoped counted p branch
/-- Whether cases take only such names from outside. -/
def casesScoped (counted : Bool) (p : String → Bool) : List (Case Expr) → Bool
  | [] => true
  | c :: rest => caseScoped counted p c && casesScoped counted p rest
/-- Whether an accumulator takes only such names from outside, those for `q` in its step. -/
def accumulatorScoped (counted : Bool) (p q : String → Bool) : Accumulator Expr → Bool
  | ⟨_, init, step⟩ => optionScoped counted p init && step.isScoped counted q
/-- Whether accumulators take only such names from outside, those for `q` in their steps. -/
def accumulatorsScoped (counted : Bool) (p q : String → Bool) : List (Accumulator Expr) → Bool
  | [] => true
  | a :: rest => accumulatorScoped counted p q a && accumulatorsScoped counted p q rest
/-- Whether a fold definition takes only such names from outside; its steps see the columns of
a table too. -/
def defScoped (counted : Bool) (p : String → Bool) (columns : List String) :
    FoldDef Expr → Bool
  | ⟨accumulators, elements, index, count, merge, whenEmpty, commutative⟩ =>
    let d : FoldDef Expr :=
      ⟨accumulators, elements, index, count, merge, whenEmpty, commutative⟩
    accumulatorsScoped counted p (binds (d.stepNames columns) p) accumulators &&
      optionScoped counted (binds d.mergeNames p) merge && optionScoped counted p whenEmpty
end

export Expr (isScoped)

section Lists

variable {p q : String → Bool}

theorem optionScoped_iff :
    optionScoped counted p e = true ↔ ∀ x, e = some x → x.isScoped counted p = true := by
  cases e <;> simp [optionScoped]

theorem allScoped_iff :
    allScoped counted p es = true ↔ ∀ x, some x ∈ es → x.isScoped counted p = true := by
  induction es with
  | nil => simp [allScoped]
  | cons e es ih =>
    simp only [allScoped, and_eq_true, optionScoped_iff, ih, mem_cons]
    constructor
    · rintro ⟨he, hes⟩ x (hx | hx)
      · exact he x hx.symm
      · exact hes x hx
    · exact fun h => ⟨fun x hx => h x (.inl hx.symm), fun x hx => h x (.inr hx)⟩

theorem seedsScoped_iff :
    seedsScoped counted p es = true ↔ ∀ x ∈ es, x.isScoped counted p = true := by
  induction es with
  | nil => simp [seedsScoped]
  | cons e es ih => simp [seedsScoped, ih]

theorem caseScoped_iff :
    caseScoped counted p c = true ↔ ∀ x, c.branch = some x → x.isScoped counted p = true := by
  cases c
  simp [caseScoped, optionScoped_iff]

theorem casesScoped_iff : casesScoped counted p cs = true ↔
      ∀ c ∈ cs, ∀ x, c.branch = some x → x.isScoped counted p = true := by
  induction cs with
  | nil => simp [casesScoped]
  | cons c cs ih => simp [casesScoped, caseScoped_iff, ih]

theorem accumulatorsScoped_iff :
    accumulatorsScoped counted p q as = true ↔ ∀ a ∈ as,
      (∀ x, a.init = some x → x.isScoped counted p = true) ∧ a.step.isScoped counted q = true := by
  induction as with
  | nil => simp [accumulatorsScoped]
  | cons a as ih =>
    obtain ⟨name, init, step⟩ := a
    simp [accumulatorsScoped, accumulatorScoped, optionScoped_iff, ih]

/-- Each formula of a scoped fold definition is scoped by the names it sees. -/
structure FoldDef.Scoped (counted : Bool) (p : String → Bool) (columns : List String)
    (d : FoldDef Expr) : Prop where
  inits : ∀ x, some x ∈ d.inits → x.isScoped counted p = true
  steps : ∀ x ∈ d.steps, x.isScoped counted (binds (d.stepNames columns) p) = true
  merge : ∀ x, d.merge = some x → x.isScoped counted (binds d.mergeNames p) = true
  whenEmpty : ∀ x, d.whenEmpty = some x → x.isScoped counted p = true

theorem defScoped_iff : defScoped counted p columns d = true ↔ d.Scoped counted p columns := by
  obtain ⟨accs, elements, index, count, merge, whenEmpty, commutative⟩ := d
  simp only [defScoped, and_eq_true, accumulatorsScoped_iff, optionScoped_iff]
  constructor
  · rintro ⟨⟨haccs, hmerge⟩, hempty⟩
    refine ⟨fun x hx => ?_, fun x hx => ?_, hmerge, hempty⟩
    · obtain ⟨a, ha, hinit⟩ := mem_map.mp hx
      exact (haccs a ha).1 x hinit
    · obtain ⟨a, ha, rfl⟩ := mem_map.mp hx
      exact (haccs a ha).2
  · rintro ⟨hinits, hsteps, hmerge, hempty⟩
    refine ⟨⟨fun a ha => ⟨fun x hx => ?_, ?_⟩, hmerge⟩, hempty⟩
    · exact hinits x (mem_map.mpr ⟨a, ha, hx⟩)
    · exact hsteps a.step (List.mem_map_of_mem ha)

theorem binds_imp (h : ∀ x, p x = true → q x = true) (x : String) (hx : binds names p x = true) :
    binds names q x = true :=
  binds_iff.mpr ((binds_iff.mp hx).imp_right (h x))

theorem FoldDef.Scoped.imp
    (ih : ∀ e ∈ d.parts, ∀ p q, (∀ x, p x = true → q x = true) → e.isScoped counted p = true →
      e.isScoped counted' q = true)
    (hpq : ∀ x, p x = true → q x = true) (h : d.Scoped counted p columns) :
    d.Scoped counted' q columns where
  inits x hx := ih x (by simp [FoldDef.parts, hx]) p q hpq (h.inits x hx)
  steps x hx := ih x (by simp [FoldDef.parts, hx]) _ _ (binds_imp hpq) (h.steps x hx)
  merge x hx := ih x (by simp [FoldDef.parts, hx]) _ _ (binds_imp hpq) (h.merge x hx)
  whenEmpty x hx := ih x (by simp [FoldDef.parts, hx]) p q hpq (h.whenEmpty x hx)

/-- More names may be taken from outside, and counted arguments may be left out of account. -/
theorem Expr.isScoped_imp (hcounted : counted' = true → counted = true) (e : Expr) :
    ∀ (p q : String → Bool), (∀ x, p x = true → q x = true) →
      e.isScoped counted p = true → e.isScoped counted' q = true := by
  induction e using induction_on_parts with
  | step e ih =>
  intro p q hpq h
  have hall (es : Children) (hparts : ∀ x, some x ∈ es → x ∈ e.parts)
      (h : allScoped counted p es = true) : allScoped counted' q es = true :=
    allScoped_iff.mpr fun x hx => ih x (.part (hparts x hx)) p q hpq (allScoped_iff.mp h x hx)
  have hoption (x : Option Expr) (p q : String → Bool) (hpq : ∀ x, p x = true → q x = true)
      (hparts : ∀ y, x = some y → y ∈ e.parts) (h : optionScoped counted p x = true) :
      optionScoped counted' q x = true :=
    optionScoped_iff.mpr fun y hy => ih y (.part (hparts y hy)) p q hpq (optionScoped_iff.mp h y hy)
  have hseeds (es : List Expr) (hparts : ∀ x ∈ es, x ∈ e.parts)
      (h : seedsScoped counted p es = true) : seedsScoped counted' q es = true :=
    seedsScoped_iff.mpr fun x hx => ih x (.part (hparts x hx)) p q hpq (seedsScoped_iff.mp h x hx)
  have hdef (d : FoldDef Expr) (columns : List String) (hparts : ∀ x ∈ d.parts, x ∈ e.parts)
      (h : defScoped counted p columns d = true) : defScoped counted' q columns d = true :=
    defScoped_iff.mpr ((defScoped_iff.mp h).imp (fun x hx => ih x (.part (hparts x hx))) hpq)
  cases e with
  | constant | cell => rfl
  | letVar name t => exact hpq name h
  | operator _ args | call _ args | range _ _ args | splice args | subSection _ args =>
    exact hall args (by simp [parts]) h
  | count static args =>
    cases counted' with
    | false => rfl
    | true =>
      cases hcounted rfl
      exact hall args (by simp [parts]) h
  | letIn name value body =>
    simp only [Expr.isScoped, and_eq_true] at h ⊢
    exact ⟨hoption value p q hpq (by simp_all [parts]) h.1,
      hoption body _ _ (binds_imp hpq) (by simp_all [parts]) h.2⟩
  | switch selector cases otherwise t =>
    simp only [Expr.isScoped, and_eq_true] at h ⊢
    refine ⟨⟨hoption selector p q hpq (by simp_all [parts]) h.1.1, ?_⟩,
      hoption otherwise p q hpq (by simp_all [parts]) h.2⟩
    refine casesScoped_iff.mpr fun c hc x hx => ?_
    refine ih x (.part ?_) p q hpq (casesScoped_iff.mp h.1.2 c hc x hx)
    simp only [parts, mem_append, mem_present]
    exact .inl (.inr (mem_map.mpr ⟨c, hc, hx⟩))
  | switchCase c =>
    refine caseScoped_iff.mpr fun x hx => ?_
    exact ih x (.part (by simp [parts, hx])) p q hpq (caseScoped_iff.mp h x hx)
  | fold form d seeds folded elements t | foldVectors d seeds folded elements t =>
    simp only [Expr.isScoped, and_eq_true] at h ⊢
    exact ⟨⟨hdef d [] (by simp_all [parts]) h.1.1,
      hseeds seeds (by simp_all [parts]) h.1.2⟩,
      hall elements (by simp_all [parts]) h.2⟩
  | reduce d seed folded elements t =>
    simp only [Expr.isScoped, and_eq_true] at h ⊢
    exact ⟨⟨hdef d [] (by simp_all [parts]) h.1.1,
      hoption seed p q hpq (by simp_all [parts]) h.1.2⟩,
      hall elements (by simp_all [parts]) h.2⟩
  | foldArray d array t =>
    simp only [Expr.isScoped, and_eq_true] at h ⊢
    exact ⟨hdef d [] (by simp_all [parts]) h.1,
      hoption array p q hpq (by simp_all [parts]) h.2⟩
  | foldTable d seeds folded columns filter column table t =>
    simp only [Expr.isScoped, and_eq_true] at h ⊢
    exact ⟨⟨⟨hdef d _ (by simp_all [parts]) h.1.1.1,
      hseeds seeds (by simp_all [parts]) h.1.1.2⟩,
      hoption filter _ _ (binds_imp hpq) (by simp_all [parts]) h.1.2⟩,
      hoption table p q hpq (by simp_all [parts]) h.2⟩
  | parentSection s inner => exact hoption inner p q hpq (by simp [parts]) h

end Lists

theorem binds_true (names : List String) : binds names (fun _ => true) = fun _ => true := by
  funext x
  simp [binds]

mutual
/-- Nothing is asked of the names that a formula takes from outside. -/
theorem Expr.isScoped_true (counted : Bool) : ∀ e : Expr, e.isScoped counted (fun _ => true) = true
  | .constant .. | .cell _ | .letVar .. => rfl
  | .operator _ args _ | .call _ args _ | .range _ _ args | .splice args
  | .subSection _ args => allScoped_true counted args
  | .count _ args => by rw [Expr.isScoped, allScoped_true counted args, Bool.or_true]
  | .letIn name value body => by
    simp [Expr.isScoped, binds_true, optionScoped_true counted value,
      optionScoped_true counted body]
  | .switch selector cases otherwise _ => by
    simp [Expr.isScoped, optionScoped_true counted selector, casesScoped_true counted cases,
      optionScoped_true counted otherwise]
  | .switchCase c => caseScoped_true counted c
  | .fold _ d seeds _ elements _ | .foldVectors d seeds _ elements _ => by
    simp [Expr.isScoped, defScoped_true counted [] d, seedsScoped_true counted seeds,
      allScoped_true counted elements]
  | .reduce d seed _ elements _ => by
    simp [Expr.isScoped, defScoped_true counted [] d, optionScoped_true counted seed,
      allScoped_true counted elements]
  | .foldArray d array _ => by
    simp [Expr.isScoped, defScoped_true counted [] d, optionScoped_true counted array]
  | .foldTable d seeds _ columns filter _ table _ => by
    simp [Expr.isScoped, binds_true, defScoped_true counted (columns.getD []) d,
      seedsScoped_true counted seeds, optionScoped_true counted filter,
      optionScoped_true counted table]
  | .parentSection _ inner => optionScoped_true counted inner
theorem optionScoped_true (counted : Bool) :
    ∀ e : Option Expr, optionScoped counted (fun _ => true) e = true
  | none => rfl
  | some e => e.isScoped_true counted
theorem allScoped_true (counted : Bool) :
    ∀ es : List (Option Expr), allScoped counted (fun _ => true) es = true
  | [] => rfl
  | e :: rest => by
    rw [allScoped, optionScoped_true counted e, allScoped_true counted rest, Bool.and_true]
theorem seedsScoped_true (counted : Bool) :
    ∀ es : List Expr, seedsScoped counted (fun _ => true) es = true
  | [] => rfl
  | e :: rest => by
    rw [seedsScoped, e.isScoped_true counted, seedsScoped_true counted rest, Bool.and_true]
theorem caseScoped_true (counted : Bool) :
    ∀ c : Case Expr, caseScoped counted (fun _ => true) c = true
  | ⟨_, branch⟩ => optionScoped_true counted branch
theorem casesScoped_true (counted : Bool) :
    ∀ cs : List (Case Expr), casesScoped counted (fun _ => true) cs = true
  | [] => rfl
  | c :: rest => by
    rw [casesScoped, caseScoped_true counted c, casesScoped_true counted rest, Bool.and_true]
theorem accumulatorScoped_true (counted : Bool) :
    ∀ a : Accumulator Expr, accumulatorScoped counted (fun _ => true) (fun _ => true) a = true
  | ⟨_, init, step⟩ => by
    rw [accumulatorScoped, optionScoped_true counted init, step.isScoped_true counted,
      Bool.and_true]
theorem accumulatorsScoped_true (counted : Bool) : ∀ as : List (Accumulator Expr),
    accumulatorsScoped counted (fun _ => true) (fun _ => true) as = true
  | [] => rfl
  | a :: rest => by
    rw [accumulatorsScoped, accumulatorScoped_true counted a, accumulatorsScoped_true counted rest,
      Bool.and_true]
theorem defScoped_true (counted : Bool) (columns : List String) :
    ∀ d : FoldDef Expr, defScoped counted (fun _ => true) columns d = true
  | ⟨accumulators, _, _, _, merge, whenEmpty, _⟩ => by
    simp [defScoped, binds_true, accumulatorsScoped_true counted accumulators,
      optionScoped_true counted merge, optionScoped_true counted whenEmpty]
end

/-! ## Parts that are kept as they stand

Folding replaces names by what they are bound to, but it keeps some parts of a formula as they
stand: the definition and the seeds of a fold that is left to the run, the filter of a table and
the counted arguments.  Names in them have to be bound where the outcome ends up.  The value of a
merge leaves the fold around it, so the names that the merge gets from its fold are of no help to
the parts kept in it.
-/

mutual
/-- Whether the parts kept as they stand take only names from outside that satisfy `p`. -/
def Expr.keptScoped (counted : Bool) (p : String → Bool) : Expr → Bool
  | .constant .. | .cell _ | .letVar .. => true
  | .operator _ args _ | .call _ args _ | .range _ _ args | .splice args
  | .subSection _ args => allKeptScoped counted p args
  | .count _ args => !counted || allScoped counted p args
  | .letIn name value body =>
    optionKeptScoped counted p value && optionKeptScoped counted (binds [name] p) body
  | .switch selector cases otherwise _ =>
    optionKeptScoped counted p selector && casesKeptScoped counted p cases &&
      optionKeptScoped counted p otherwise
  | .switchCase c => caseKeptScoped counted p c
  | .fold _ d seeds _ elements _ | .foldVectors d seeds _ elements _ =>
    defScoped counted p [] d && defKeptScoped counted p d && seedsScoped counted p seeds &&
      allKeptScoped counted p elements
  | .reduce d seed _ elements _ =>
    defScoped counted p [] d && defKeptScoped counted p d && optionScoped counted p seed &&
      allKeptScoped counted p elements
  | .foldArray d array _ =>
    defScoped counted p [] d && defKeptScoped counted p d && optionKeptScoped counted p array
  | .foldTable d seeds _ columns filter _ table _ =>
    defScoped counted p (columns.getD []) d && defKeptScoped counted p d &&
      seedsScoped counted p seeds && optionScoped counted (binds (columns.getD []) p) filter &&
      optionKeptScoped counted p table
  | .parentSection _ inner => optionKeptScoped counted p inner
/-- `Expr.keptScoped` of a child, if there is one. -/
def optionKeptScoped (counted : Bool) (p : String → Bool) : Option Expr → Bool
  | none => true
  | some e => e.keptScoped counted p
/-- `Expr.keptScoped` of children. -/
def allKeptScoped (counted : Bool) (p : String → Bool) : List (Option Expr) → Bool
  | [] => true
  | e :: rest => optionKeptScoped counted p e && allKeptScoped counted p rest
/-- `Expr.keptScoped` of the branch of a case. -/
def caseKeptScoped (counted : Bool) (p : String → Bool) : Case Expr → Bool
  | ⟨_, branch⟩ => optionKeptScoped counted p branch
/-- `Expr.keptScoped` of the branches of cases. -/
def casesKeptScoped (counted : Bool) (p : String → Bool) : List (Case Expr) → Bool
  | [] => true
  | c :: rest => caseKeptScoped counted p c && casesKeptScoped counted p rest
/-- `Expr.keptScoped` of the formulas of a fold whose values leave it. -/
def defKeptScoped (counted : Bool) (p : String → Bool) : FoldDef Expr → Bool
  | ⟨_, _, _, _, merge, whenEmpty, _⟩ =>
    optionKeptScoped counted p merge && optionKeptScoped counted p whenEmpty
end

section Kept

variable {p : String → Bool}

theorem optionKeptScoped_iff :
    optionKeptScoped counted p e = true ↔ ∀ x, e = some x → x.keptScoped counted p = true := by
  cases e <;> simp [optionKeptScoped]

theorem allKeptScoped_iff :
    allKeptScoped counted p es = true ↔ ∀ x, some x ∈ es → x.keptScoped counted p = true := by
  induction es with
  | nil => simp [allKeptScoped]
  | cons e es ih =>
    simp only [allKeptScoped, and_eq_true, optionKeptScoped_iff, ih, mem_cons]
    grind

theorem caseKeptScoped_iff : caseKeptScoped counted p c = true ↔
      ∀ x, c.branch = some x → x.keptScoped counted p = true := by
  cases c
  simp [caseKeptScoped, optionKeptScoped_iff]

theorem casesKeptScoped_iff : casesKeptScoped counted p cs = true ↔
      ∀ c ∈ cs, ∀ x, c.branch = some x → x.keptScoped counted p = true := by
  induction cs with
  | nil => simp [casesKeptScoped]
  | cons c cs ih => simp [casesKeptScoped, caseKeptScoped_iff, ih]

theorem defKeptScoped_iff : defKeptScoped counted p d = true ↔
      (∀ x, d.merge = some x → x.keptScoped counted p = true) ∧
      ∀ x, d.whenEmpty = some x → x.keptScoped counted p = true := by
  cases d
  simp [defKeptScoped, optionKeptScoped_iff]

end Kept

end FormulaFold
