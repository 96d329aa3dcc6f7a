import FormulaFold.Proofs.Agreement
import FormulaFold.Proofs.SortedFolds

/-! # Meanings that are upheld

A walk may replace a formula by another one if this one yields whatever the first one yielded.  If
the other one yields nothing more, a run that fails goes on failing; a walk that also promises this
is called `strict`.  `Upholds` says both at once, of any two predicates, so that what is upheld for
the parts of a formula carries over to the whole.

The lemmas of this module carry it from children to the nodes that compute with them.
-/
namespace FormulaFold

variable {plain : Bool} {cols rows : Int} {es : Children} {e : Option Expr} {v : Value}

/-- Whatever satisfies `P` satisfies `Q`, and nothing else does where that is promised. -/
structure Upholds {α : Type} (strict : Prop) (P Q : α → Prop) : Prop where
  forth : ∀ a, P a → Q a
  back : strict → ∀ a, Q a → P a

namespace Upholds

variable {α β : Type} {strict : Prop} {P Q R : α → Prop}

theorem refl (P : α → Prop) : Upholds strict P P := ⟨fun _ => id, fun _ _ => id⟩

theorem trans (h : Upholds strict P Q) (h' : Upholds strict Q R) : Upholds strict P R :=
  ⟨fun a ha => h'.forth a (h.forth a ha), fun hs a ha => h.back hs a (h'.back hs a ha)⟩

theorem of_iff (h : ∀ a, P a ↔ Q a) : Upholds strict P Q :=
  ⟨fun a => (h a).mp, fun _ a => (h a).mpr⟩

/-- What follows by a relation from what is upheld. -/
theorem exists_and {F G : α → β → Prop} (h : Upholds strict P Q)
    (hF : ∀ a, Q a → Upholds strict (F a) (G a)) :
    Upholds strict (fun b => ∃ a, P a ∧ F a b) (fun b => ∃ a, Q a ∧ G a b) := by
  constructor
  · rintro b ⟨a, ha, hb⟩
    exact ⟨a, h.forth a ha, (hF a (h.forth a ha)).forth b hb⟩
  · rintro hs b ⟨a, ha, hb⟩
    exact ⟨a, h.back hs a ha, (hF a ha).back hs b hb⟩

/-- What follows from what can only be `a` is what follows from `a`. -/
theorem exists_eq {F : α → β → Prop} (h : Upholds strict P (· = a)) :
    Upholds strict (fun b => ∃ a, P a ∧ F a b) (F a) := by
  constructor
  · rintro b ⟨a', ha, hb⟩
    rwa [h.forth a' ha] at hb
  · intro hs b hb
    exact ⟨a, h.back hs a rfl, hb⟩

theorem forall₂ {γ : Type} {M : α → γ → Prop} {M' : β → γ → Prop}
    (h : Forall₂ (fun x y => Upholds strict (M x) (M' y)) xs ys) :
    Upholds strict (Forall₂ M xs) (Forall₂ M' ys) := by
  induction h with
  | nil => exact .of_iff fun zs => by cases zs <;> simp
  | cons hx _ ih =>
    constructor
    · rintro _ (_ | ⟨hz, hzs⟩)
      exact .cons (hx.forth _ hz) (ih.forth _ hzs)
    · rintro hs _ (_ | ⟨hz, hzs⟩)
      exact .cons (hx.back hs _ hz) (ih.back hs _ hzs)

end Upholds

variable {strict : Prop} {ev : Runner}

/-! ## Constants -/

section Constants

@[simp] theorem runs_constant {t : DataType} :
    ev.Runs env (.constant v t) y ↔ y = .one v := by
  rw [runs_iff]
  constructor
  · rintro ⟨⟩
    rfl
  · rintro rfl
    exact .constant

theorem runs_ofExpr {e : Expr} :
    ev.Runs env (ofExpr e).expr y ↔ ev.Runs env e y := by
  cases e with
  | constant v t => simp [ofExpr, Outcome.constant, Outcome.expr]
  | _ => rfl

theorem runs_range : ev.Runs env (.range rows cols es) y ↔
      ∃ ys, Forall₂ (ChildYields (ev.Runs env)) es ys ∧
        y = .one (.grid rows cols (ys.map Yield.single)) := by
  rw [runs_iff]
  constructor
  · rintro ⟨⟩
    exact ⟨_, ‹_›, rfl⟩
  · rintro ⟨ys, hys, rfl⟩
    exact .range hys

theorem runs_splice : ev.Runs env (.splice es) y ↔
      ∃ ys, Forall₂ (ChildYields (ev.Runs env)) es ys ∧
        y = .many (ys.flatMap Yield.items) := by
  rw [runs_iff]
  constructor
  · rintro ⟨⟩
    exact ⟨_, ‹_›, rfl⟩
  · rintro ⟨ys, hys, rfl⟩
    exact .splice hys

/-- What a constant outcome yields. -/
def Outcome.yield : Outcome → Yield
  | known v _ => .one v
  | residual (.splice es) => .many (Expr.spliceAll es)
  | residual e => .one e.materialize

@[simp] theorem Outcome.items_yield (o : Outcome) : o.yield.items = o.arguments := by
  unfold yield
  split
  · rfl
  · rw [arguments, Expr.spliceValues]
    rfl
  · rename_i e hsplice
    rw [arguments, Expr.spliceValues]
    · rfl
    · exact fun es heq => hsplice es (by rw [heq])

theorem forall₂_yields_scalar (hagg : Expr.allAggregate es = true)
    (h : allSorted plain .scalar es = true) :
    Forall₂ (ChildYields (ev.Runs env)) es ys ↔
      ys = (materializeAll es).map .one := by
  induction es generalizing ys with
  | nil => simp [materializeAll]
  | cons e es ih =>
    simp only [allSorted, and_eq_true] at h
    cases e with
    | none => cases hagg
    | some e =>
      cases e with
      | constant v t =>
        rw [Expr.allAggregate] at hagg
        rw [materializeAll, Expr.materialize, map_cons]
        cases ys with
        | nil => simp
        | cons y ys =>
          rw [List.forall₂_cons, ih hagg h.2, List.cons.injEq]
          exact and_congr_left fun _ => runs_constant
      | range | splice =>
        simp [optionSorted, isSorted, Place.takesRange, Place.takesSplice] at h
      | _ => simp [Expr.allAggregate, Expr.isAggregate] at hagg

theorem runs_range_constant (hagg : Expr.allAggregate es = true)
    (h : allSorted plain .scalar es = true) : ev.Runs env (.range rows cols es) y ↔
      y = .one (Expr.range rows cols es).materialize := by
  simp only [runs_range, forall₂_yields_scalar hagg h, exists_eq_left, map_map,
    Expr.materialize]
  have hmap : (materializeAll es).map (Yield.single ∘ .one) = materializeAll es :=
    List.map_id' _
  rw [hmap]

/-- The elements of a splice of constants are constants and ranges of constants. -/
theorem spliced_cases {e : Expr} (hagg : Expr.allAggregate (some e :: es) = true)
    (h : allSorted plain .spliced (some e :: es) = true) :
    Expr.allAggregate es = true ∧ ((∃ v t, e = .constant v t) ∨ ∃ rows cols elements,
      e = .range rows cols elements ∧ Expr.allAggregate elements = true ∧
        allSorted plain .scalar elements = true) := by
  simp only [allSorted, optionSorted, and_eq_true] at h
  cases e with
  | constant v t =>
    rw [Expr.allAggregate] at hagg
    exact ⟨hagg, .inl ⟨v, t, rfl⟩⟩
  | range rows cols elements =>
    simp only [Expr.allAggregate, Expr.isAggregate, and_eq_true] at hagg
    simp only [isSorted, and_eq_true] at h
    exact ⟨hagg.2, .inr ⟨rows, cols, elements, rfl, hagg.1, h.1.2⟩⟩
  | splice => simp [isSorted, Place.takesSplice] at h
  | _ => simp [Expr.allAggregate, Expr.isAggregate] at hagg

theorem spliceAll_eq (hagg : Expr.allAggregate es = true) (h : allSorted plain .spliced es = true) :
    Expr.spliceAll es = materializeAll es := by
  induction es with
  | nil => rfl
  | cons e es ih =>
    cases e with
    | none => cases hagg
    | some e =>
      obtain ⟨hrest, he⟩ := spliced_cases hagg h
      simp only [allSorted, and_eq_true] at h
      rw [Expr.spliceAll, materializeAll, ih hrest h.2]
      rcases he with ⟨v, t, rfl⟩ | ⟨rows, cols, elements, rfl, _⟩
      all_goals simp [Expr.spliceValues]

theorem forall₂_yields_spliced (hagg : Expr.allAggregate es = true)
    (h : allSorted plain .spliced es = true) :
    Forall₂ (ChildYields (ev.Runs env)) es ys ↔
      ys = (materializeAll es).map .one := by
  induction es generalizing ys with
  | nil => simp [materializeAll]
  | cons e es ih =>
    cases e with
    | none => cases hagg
    | some e =>
      obtain ⟨hrest, he⟩ := spliced_cases hagg h
      simp only [allSorted, and_eq_true] at h
      have hfirst (y : Yield) : ev.Runs env e y ↔ y = .one e.materialize := by
        rcases he with ⟨v, t, rfl⟩ | ⟨rows, cols, elements, rfl, hagg, hsorted⟩
        · exact runs_constant
        · exact runs_range_constant hagg hsorted
      rw [materializeAll, map_cons]
      cases ys with
      | nil => simp
      | cons y ys =>
        rw [List.forall₂_cons, ih hrest h.2, List.cons.injEq]
        exact and_congr_left fun _ => hfirst y

/-- **A constant outcome yields what is known of it.** -/
theorem runs_of_isConstant {o : Outcome} (hconst : o.isConstant = true)
    (h : o.expr.isSorted plain .argument = true) :
    ev.Runs env o.expr y ↔ y = o.yield := by
  cases o with
  | known v t => exact runs_constant
  | residual e =>
    simp only [Outcome.isConstant] at hconst
    simp only [Outcome.expr] at h
    cases e with
    | range rows cols es =>
      simp only [Expr.isAggregate] at hconst
      simp only [isSorted, and_eq_true] at h
      exact runs_range_constant hconst h.2
    | splice es =>
      simp only [Expr.isAggregate] at hconst
      simp only [isSorted, and_eq_true] at h
      simp only [Outcome.expr, runs_splice, forall₂_yields_spliced hconst h.2,
        exists_eq_left, Outcome.yield, spliceAll_eq hconst h.2, List.flatMap_map, Yield.items]
      rw [List.flatMap_singleton']
    | _ => cases hconst

end Constants

/-! ## Children -/

/-- The outcome yields what the formula yields. -/
def Runner.Upheld (ev : Runner) (strict : Prop) (env : Env) (e : Expr) (o : Outcome) : Prop :=
  Upholds strict (ev.Runs env e) (ev.Runs env o.expr)

section Children

theorem upholds_childOr {missing : Outcome} {x : Yield}
    (hmissing : ∀ y, ev.Runs env missing.expr y ↔ y = x)
    (h : ChildOr missing (ev.Upheld strict env) e o) :
    Upholds strict (ChildOr x (ev.Runs env) e) (ev.Runs env o.expr) := by
  cases e with
  | none =>
    rw [show o = missing from h]
    exact .of_iff fun y => (hmissing y).symm
  | some e => exact h

theorem upholds_child (h : Child (ev.Upheld strict env) e o) :
    Upholds strict (ChildYields (ev.Runs env) e) (ev.Runs env o.expr) :=
  upholds_childOr (fun _ => runs_constant) h

theorem upholds_children (h : Forall₂ (Child (ev.Upheld strict env)) es os) :
    Upholds strict (Forall₂ (ChildYields (ev.Runs env)) es)
      (Forall₂ (fun o => ev.Runs env o.expr) os) :=
  .forall₂ (h.imp fun _ _ => upholds_child)

theorem upholds_becomes {e' : Option Expr} {missing : Yield}
    (h : Becomes (ev.Upheld strict env) e e') :
    Upholds strict (ChildOr missing (ev.Runs env) e)
      (ChildOr missing (ev.Runs env) e') := by
  cases h with
  | none => exact .refl _
  | some h =>
    obtain ⟨o, ho, rfl⟩ := h
    exact ho

theorem forall₂_trimmed {R : Expr → Expr → Prop} (h : Forall₂ (Option.Rel R) es es') :
    Forall₂ (Option.Rel R) (trimmed es) (trimmed es') := by
  induction h with
  | nil => exact .nil
  | @cons e e' es es' he _ ih =>
    cases he with
    | some hR =>
      rw [trimmed_some_cons, trimmed_some_cons]
      exact .cons (.some hR) ih
    | none =>
      rw [trimmed_none_cons, trimmed_none_cons]
      generalize trimmed es = ts, trimmed es' = ts' at ih
      cases ih with
      | nil => exact .nil
      | cons he hes => exact .cons .none (.cons he hes)

theorem upholds_keepMissing_trimmed
    (h : Forall₂ (Child (ev.Upheld strict env)) (trimmed es) os) :
    Upholds strict (Forall₂ (ChildYields (ev.Runs env)) es)
      (Forall₂ (ChildYields (ev.Runs env)) (keepMissing es os)) :=
  .forall₂ ((becomes_keepMissing_trimmed h).imp fun _ _ => upholds_becomes)

theorem runs_constants (hconst : ∀ o ∈ os, o.isConstant = true)
    (h : ∀ o ∈ os, o.expr.isSorted plain .argument = true) (ys : List Yield) :
    Forall₂ (fun o => ev.Runs env o.expr) os ys ↔ ys = os.map Outcome.yield := by
  induction os generalizing ys with
  | nil => simp
  | cons o os ih =>
    have hconst := forall_mem_cons.mp hconst
    have h := forall_mem_cons.mp h
    cases ys with
    | nil => simp
    | cons y ys =>
      rw [List.forall₂_cons, ih hconst.2 h.2, runs_of_isConstant hconst.1 h.1, map_cons,
        List.cons.injEq]

theorem flatMap_items_yield (os : List Outcome) :
    (os.map Outcome.yield).flatMap Yield.items = Outcome.values os := by
  rw [List.flatMap_map]
  simp only [Outcome.items_yield]
  rfl

end Children

/-! ## Computed nodes -/

section Computed

variable {compute : Computation}

theorem upholds_computed {args' : Children}
    (h : Forall₂ (Becomes (ev.Upheld strict env)) args args') :
    Upholds strict (ComputedYields ev.engine (ev.Runs env) compute args)
      (ComputedYields ev.engine (ev.Runs env) compute args') := by
  have hargs : Upholds strict
      (Forall₂ (ChildYields (ev.Runs env)) (trimmed args))
      (Forall₂ (ChildYields (ev.Runs env)) (trimmed args')) :=
    .forall₂ ((forall₂_trimmed h).imp fun _ _ => upholds_becomes)
  constructor
  · rintro y ⟨ys, v, hys, hv, rfl⟩
    exact ⟨ys, v, hargs.forth ys hys, hv, rfl⟩
  · rintro hs y ⟨ys, v, hys, hv, rfl⟩
    exact ⟨ys, v, hargs.back hs ys hys, hv, rfl⟩

theorem upholds_kept (hos : Forall₂ (Child (ev.Upheld strict env)) (trimmed args) os)
    (hconst : ∀ o ∈ os, o.isConstant = true)
    (hsorted : ∀ o ∈ os, o.expr.isSorted plain .argument = true)
    (hv : compute (Outcome.values os) = .ok v) :
    Upholds strict (ComputedYields ev.engine (ev.Runs env) compute args)
      (· = .one (ev.engine.adjust v)) := by
  have hargs := (upholds_children hos).trans (.of_iff (runs_constants hconst hsorted))
  constructor
  · rintro y ⟨ys, u, hys, hu, rfl⟩
    rw [hargs.forth ys hys, flatMap_items_yield, hv] at hu
    cases hu
    rfl
  · rintro hs y rfl
    exact ⟨_, v, hargs.back hs _ rfl, by rw [flatMap_items_yield, hv], rfl⟩

/-- **What a node computes from its arguments is upheld** if it computes the same ahead of the run,
whenever it does so. -/
theorem upholds_settles {site : Site} (hengine : site.engine = ev.engine) {node : Expr}
    {compute' : Computation} (hcompute : ∀ vs v, compute vs = .ok v → compute' vs = .ok v)
    (hnode : ∀ y, ev.Runs env node y ↔
      ComputedYields ev.engine (ev.Runs env) compute' args y)
    (hleft : ∀ e, node.withChildren (keepMissing node.children os) = .ok e → ∀ y,
      ev.Runs env e y ↔
        ComputedYields ev.engine (ev.Runs env) compute' (keepMissing args os) y)
    (hos : Forall₂ (Child (ev.Upheld strict env)) (trimmed args) os)
    (hsorted : ∀ o ∈ os, o.expr.isSorted plain .argument = true)
    (h : Settles False site node compute os o) : ev.Upheld strict env node o := by
  refine (Upholds.of_iff hnode).trans ?_
  cases h with
  | kept hconst hkept =>
    obtain ⟨v, hv, rfl⟩ := exists_of_kept? hkept
    refine (upholds_kept hos (by simpa using hconst) hsorted (hcompute _ v hv)).trans ?_
    rw [← hengine]
    exact .of_iff fun y => runs_constant.symm
  | left _ he =>
    refine (upholds_computed (becomes_keepMissing_trimmed hos)).trans (.of_iff fun y => ?_)
    exact ((hleft _ he y).symm).trans runs_ofExpr.symm

end Computed

end FormulaFold
