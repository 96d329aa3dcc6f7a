import FormulaFold.Proofs.UpheldNodes

/-! # Walks that refuse nothing

A constant computation may be refused, and is then left to the run.  `Walk.quietly` is the contract
of walks that refuse nothing: under it, a node of which all arguments are constant was computed
(`Settles.exists_computed`).

`Runner.Shows` is what will be granted of formulas without references: whatever the formula
yields in a run, its outcome is a constant that stands for it.
-/
namespace FormulaFold

namespace Walk

/-- The contract of walks that refuse nothing. -/
abbrev quietly (book : Workbook) (E : Memo → Prop) : Contract book E False :=
  framing book E False True

end Walk

/-- What is computed from constants is not refused in a walk that refuses nothing. -/
theorem Settles.exists_computed
    {compute : Computation}
    (h : Settles True site node compute os o) (hconst : ∀ o ∈ os, o.isConstant = true) :
    ∃ v t, compute (Outcome.values os) = .ok v ∧ o = .known (site.engine.adjust v) t := by
  cases h with
  | kept _ hkept =>
    obtain ⟨v, hv, rfl⟩ := exists_of_kept? hkept
    exact ⟨v, _, hv, rfl⟩
  | left _ _ _ hloud => exact absurd trivial (hloud (all_eq_true.mpr hconst))

/-! ## Constants that stand for what is yielded -/

/-- All of the outcome is known, and it stands for what a formula yields at the place.  Among the
elements of a fold, ranges and splices stand for their leaves only. -/
structure Outcome.Stands (plain : Bool) (place : Place) (o : Outcome) (y : Yield) : Prop where
  constant : o.isConstant = true
  sorted : o.expr.isSorted plain place = true
  yield : place ≠ .element ∨ o.isKnown = true → y = o.yield
  leaves : y.leaves = o.flatten.map (·.value)

section Standing

variable {plain : Bool} {place : Place} {o : Outcome} {y : Yield} {os : List Outcome}

theorem Outcome.Fits.stands (h : o.Fits plain) : o.Stands plain place o.yield := by
  refine ⟨h.isConstant, h.isSorted place, fun _ => rfl, ?_⟩
  obtain ⟨v, t, rfl, hv⟩ := h
  simp [Outcome.yield, Yield.leaves, Yield.items, leavesOf, Outcome.flatten, Outcome.value,
    Value.leaves_of_isArray (Value.isArray_of_fits hv)]

theorem stands_constant {v : Value} (t : DataType) (h : v.fits plain = true) :
    (Outcome.constant v t).Stands plain place (.one v) := (fits_constant t h).stands

theorem Outcome.Stands.fits (h : o.Stands plain .scalar y) : o.Fits plain ∧ y = o.yield :=
  ⟨fits_of_isConstant h.sorted h.constant, h.yield (.inl (by simp))⟩

theorem Outcome.Stands.of_scalar (h : o.Stands plain .scalar y) (place : Place) :
    o.Stands plain place y := by
  rw [h.fits.2]
  exact h.fits.1.stands

theorem eq_map_yield_of_stands (hplace : place ≠ .element)
    (h : Forall₂ (Outcome.Stands plain place) os ys) : ys = os.map Outcome.yield := by
  induction h with
  | nil => rfl
  | cons ho _ ih => rw [map_cons, ← ih, ← ho.yield (.inl hplace)]

theorem isConstant_of_stands (h : Forall₂ (Outcome.Stands plain place) os ys) :
    ∀ o ∈ os, o.isConstant = true ∧ o.expr.isSorted plain place = true := by
  intro o ho
  obtain ⟨y, _, hy⟩ := exists_of_forall₂_of_mem h.flip ho
  exact ⟨hy.constant, hy.sorted⟩

end Standing

/-! ## Names -/

/-- Every bound name stands for a known value, and for the same one in the run. -/
structure Bindings.Agrees (plain : Bool) (origin : Option Address) (b : Bindings) (env : Env) :
    Prop where
  fits : b.Fits plain
  names : b.Matches False env
  defined : ∀ x, b.lookup x ≠ .ok none
  origin : env.origin = origin

namespace Bindings.Agrees

variable {plain : Bool} {origin : Option Address} {b : Bindings} {env : Env}

theorem empty (origin : Option Address) : Bindings.empty.Agrees plain origin (.start origin) :=
  ⟨fits_empty, matches_empty _, by simp [lookup, Bindings.empty], rfl⟩

theorem push (h : b.Agrees plain origin env) (name : String) {o : Outcome} (ho : o.Fits plain) :
    (b.push name (some o)).Agrees plain origin (env.set name o.yield) where
  fits := h.fits.push name fun x hx => by
    cases hx
    exact ho
  names := h.names.push id name fun x hx => by
    cases hx
    rfl
  defined x := by
    rw [lookup_push]
    split
    · simp
    · exact h.defined x
  origin := by rw [Env.set_origin, h.origin]

theorem pushAll (h : b.Agrees plain origin env) {pairs : Pairs}
    (hpairs : ∀ pair ∈ pairs, pair.2.Fits plain) :
    (b.pushAll pairs).Agrees plain origin (env.setPairs (valuesOf pairs)) where
  fits := h.fits.pushAll hpairs
  names := h.names.pushAll hpairs
  defined := by
    have hdefined := h.defined
    clear h hpairs
    induction pairs generalizing b with
    | nil => exact hdefined
    | cons pair rest ih =>
      obtain ⟨name, o⟩ := pair
      unfold Bindings.pushAll
      split
      · exact ih hdefined
      · refine ih fun x => ?_
        rw [lookup_push]
        split
        · simp
        · exact hdefined x
  origin := by rw [Env.setPairs_origin, h.origin]

theorem outerRow (h : b.Agrees plain origin env) : b.Agrees plain origin env.outerRow :=
  ⟨h.fits, ⟨h.names.named, h.names.unnamed⟩, h.defined, h.origin⟩

end Bindings.Agrees

/-- Whatever the formula yields where the names agree, the outcome is a constant that stands for
it. -/
def Runner.Shows (ev : Runner) (plain : Bool) (origin : Option Address) (place : Place)
    (b : Bindings) (e : Expr) (o : Outcome) : Prop :=
  ∀ env y, b.Agrees plain origin env → ev.Runs env e y → o.Stands plain place y

/-! ## Children -/

section Children

variable {ev : Runner} {plain : Bool} {b : Bindings}
  {site : Site} {es : Children} {o : Outcome} {os : List Outcome} {env : Env} {y : Yield}
  {t : DataType}

theorem stands_of_childOr {missing : Outcome} {x : Yield} (hmissing : missing.Stands plain place x)
    {e : Option Expr} (ho : ChildOr missing (ev.Shows plain site.origin place b) e o)
    (henv : b.Agrees plain site.origin env) (hy : ChildOr x (ev.Runs env) e y) :
    o.Stands plain place y := by
  cases e with
  | none =>
    cases ho
    cases hy
    exact hmissing
  | some e => exact ho env y henv hy

theorem stands_of_children {ys : List Yield}
    (hos : Forall₂ (Child (ev.Shows plain site.origin place b)) es os)
    (henv : b.Agrees plain site.origin env) (hys : Forall₂ (ChildYields (ev.Runs env)) es ys) :
    Forall₂ (Outcome.Stands plain place) os ys := by
  induction hos generalizing ys with
  | nil =>
    cases hys
    exact .nil
  | cons ho _ ih =>
    obtain _ | ⟨hy, hys⟩ := hys
    exact .cons (stands_of_childOr fits_blank.stands ho henv hy) (ih hys)

/-- **What is computed from constants stands for what a run computes.** -/
theorem stands_of_computes (hengine : site.engine = ev.engine) {compute : Computation}
    (hfits : ∀ vs v, (∀ u ∈ vs, u.Flat plain) → compute vs = .ok v →
      (ev.engine.adjust v).fits plain = true)
    (hos : Forall₂ (Child (ev.Shows plain site.origin .argument b)) (trimmed es) os)
    (ho : (∀ o ∈ os, o.isConstant = true) →
      ∃ v t, compute (Outcome.values os) = .ok v ∧ o = .known (site.engine.adjust v) t)
    (henv : b.Agrees plain site.origin env)
    (hy : ComputedYields ev.engine (ev.Runs env) compute es y) :
    o.Stands plain .scalar y := by
  obtain ⟨ys, v, hys, hv, rfl⟩ := hy
  have hstands := stands_of_children hos henv hys
  have hconst := isConstant_of_stands hstands
  have hyields : ys = os.map Outcome.yield := eq_map_yield_of_stands (by decide) hstands
  rw [hyields, flatMap_items_yield] at hv
  obtain ⟨v', t, hv', rfl⟩ := ho fun o h => (hconst o h).1
  cases hv.symm.trans hv'
  have hflat := flat_of_mem_values (fun o h => (hconst o h).1) fun o h => (hconst o h).2
  rw [hengine]
  exact Outcome.Fits.stands ⟨_, t, rfl, hfits _ v hflat hv⟩

end Children

end FormulaFold
