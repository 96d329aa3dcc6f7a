import FormulaFold.Proofs.Upholding

/-! # Elements of folds that are upheld

A fold goes through what is in its elements at any depth, so of an element only its leaves count.
Taking the elements out of ranges and splices ahead of the run (`Expr.flatten`) changes no leaves
(`leavesYield_flattenOutcomes`).
-/
namespace FormulaFold

/-! ## Leaves -/

section Leaves

variable {α : Type} {M : α → Yield → Prop} {xs : List α}

theorem leavesOf_append (vs ws : List Value) :
    leavesOf (vs ++ ws) = leavesOf vs ++ leavesOf ws := by
  induction vs with
  | nil => rfl
  | cons v vs ih => rw [cons_append, leavesOf, leavesOf, ih, List.append_assoc]

theorem leavesOf_flatMap_items (ys : List Yield) :
    leavesOf (ys.flatMap Yield.items) = ys.flatMap Yield.leaves := by
  induction ys with
  | nil => rfl
  | cons y ys ih => rw [flatMap_cons, leavesOf_append, ih, flatMap_cons, Yield.leaves]

theorem leaves_grid (rows cols : Int) (vs : List Value) :
    (Value.grid rows cols vs).leaves = leavesOf vs := by
  unfold Value.grid
  split
  · rw [Value.leaves]
  · rw [Value.leaves]

theorem Yield.leaves_single (y : Yield) : y.single.leaves = y.leaves := by
  cases y with
  | one v => simp [single, leaves, items, leavesOf]
  | many vs => exact leaves_grid _ _ vs

theorem leavesOf_map_single (ys : List Yield) :
    leavesOf (ys.map Yield.single) = ys.flatMap Yield.leaves := by
  induction ys with
  | nil => rfl
  | cons y ys ih => rw [map_cons, leavesOf, ih, Yield.leaves_single, flatMap_cons]

/-- The leaves of formulas one after the other, given what each formula yields. -/
def LeavesYield (M : α → Yield → Prop) (xs : List α) (vs : List Value) : Prop :=
  ∃ ys, Forall₂ M xs ys ∧ vs = ys.flatMap Yield.leaves

theorem leavesYield_nil : LeavesYield M [] vs ↔ vs = [] := by
  simp [LeavesYield]

theorem leavesYield_singleton :
    LeavesYield M [x] vs ↔ ∃ y, M x y ∧ vs = y.leaves := by
  constructor
  · rintro ⟨_, _ | ⟨hy, ⟨⟩⟩, rfl⟩
    exact ⟨_, hy, by simp⟩
  · rintro ⟨y, hy, rfl⟩
    exact ⟨[y], .cons hy .nil, by simp⟩

theorem leavesYield_append : LeavesYield M (xs ++ xs') vs ↔
    ∃ vs₁ vs₂, LeavesYield M xs vs₁ ∧ LeavesYield M xs' vs₂ ∧ vs = vs₁ ++ vs₂ := by
  constructor
  · rintro ⟨ys, hys, rfl⟩
    obtain ⟨ys₁, ys₂, rfl, hys₁, hys₂⟩ := forall₂_append_left hys
    exact ⟨_, _, ⟨ys₁, hys₁, rfl⟩, ⟨ys₂, hys₂, rfl⟩, List.flatMap_append⟩
  · rintro ⟨_, _, ⟨ys₁, hys₁, rfl⟩, ⟨ys₂, hys₂, rfl⟩, rfl⟩
    exact ⟨ys₁ ++ ys₂, rel_append hys₁ hys₂, List.flatMap_append.symm⟩

theorem leavesYield_cons : LeavesYield M (x :: xs) vs ↔
    ∃ vs₁ vs₂, LeavesYield M [x] vs₁ ∧ LeavesYield M xs vs₂ ∧ vs = vs₁ ++ vs₂ := by
  rw [← singleton_append, leavesYield_append]

/-- No leaf is an array. -/
theorem isArray_of_leavesYield (h : LeavesYield M xs vs) : ∀ v ∈ vs, v.isArray = false := by
  obtain ⟨ys, _, rfl⟩ := h
  intro v hv
  obtain ⟨y, _, hv⟩ := mem_flatMap.mp hv
  exact Value.isArray_of_mem_leavesOf hv

/-- Formulas whose leaves are upheld one by one are upheld together. -/
theorem upholds_leavesYield {β : Type} {strict : Prop} {M' : β → Yield → Prop} {zs : List β}
    (h : Forall₂ (fun x z => Upholds strict (LeavesYield M [x]) (LeavesYield M' [z])) xs zs) :
    Upholds strict (LeavesYield M xs) (LeavesYield M' zs) := by
  induction h with
  | nil => exact .of_iff fun vs => leavesYield_nil.trans leavesYield_nil.symm
  | cons hx _ ih =>
    constructor
    · intro vs hvs
      obtain ⟨vs₁, vs₂, hvs₁, hvs₂, rfl⟩ := leavesYield_cons.mp hvs
      exact leavesYield_cons.mpr ⟨vs₁, vs₂, hx.forth _ hvs₁, ih.forth _ hvs₂, rfl⟩
    · intro hs vs hvs
      obtain ⟨vs₁, vs₂, hvs₁, hvs₂, rfl⟩ := leavesYield_cons.mp hvs
      exact leavesYield_cons.mpr ⟨vs₁, vs₂, hx.back hs _ hvs₁, ih.back hs _ hvs₂, rfl⟩

end Leaves

variable {strict : Prop} {ev : Runner} {os : List Outcome} {o : Outcome}

/-! ## Children -/

/-- The leaves of children. -/
abbrev Runner.ChildLeaves (ev : Runner) (env : Env) :
    List (Option Expr) → List Value → Prop :=
  LeavesYield (ChildYields (ev.Runs env))

/-- The leaves of outcomes. -/
abbrev Runner.OutcomeLeaves (ev : Runner) (env : Env) :
    List Outcome → List Value → Prop :=
  LeavesYield fun o : Outcome => ev.Runs env o.expr

/-- The outcome has the leaves of the formula. -/
def Runner.UpheldLeaves (ev : Runner) (strict : Prop) (env : Env) (e : Expr) (o : Outcome) : Prop :=
  Upholds strict (LeavesYield (ev.Runs env) [e])
    (LeavesYield (ev.Runs env) [o.expr])

theorem Runner.Upheld.leaves (h : ev.Upheld strict env e o) :
    ev.UpheldLeaves strict env e o :=
  (Upholds.of_iff fun _ => leavesYield_singleton).trans
    ((h.exists_and fun _ _ => .refl _).trans (.of_iff fun _ => leavesYield_singleton.symm))

theorem childLeaves_some {M : Yielding} :
    LeavesYield (ChildYields M) [some e] vs ↔ LeavesYield M [e] vs := by
  rw [leavesYield_singleton, leavesYield_singleton]
  rfl

theorem outcomeLeaves_singleton :
    ev.OutcomeLeaves env [o] vs ↔ LeavesYield (ev.Runs env) [o.expr] vs :=
  leavesYield_singleton.trans (leavesYield_singleton (x := o.expr)).symm

theorem upholds_childLeaves
    (h : Forall₂ (Child (ev.UpheldLeaves strict env)) es os) :
    Upholds strict (ev.ChildLeaves env es) (ev.OutcomeLeaves env os) := by
  refine upholds_leavesYield (h.imp fun e o ho => ?_)
  cases e with
  | none =>
    cases ho
    refine .of_iff fun vs => leavesYield_singleton.trans (Iff.trans ?_ leavesYield_singleton.symm)
    exact exists_congr fun y => and_congr_left fun _ => runs_constant.symm
  | some e =>
    exact (Upholds.of_iff fun _ => childLeaves_some).trans
      (ho.trans (.of_iff fun _ => outcomeLeaves_singleton.symm))

theorem upholds_becomesLeaves
    (h : Forall₂ (Becomes (ev.UpheldLeaves strict env)) es es') :
    Upholds strict (ev.ChildLeaves env es) (ev.ChildLeaves env es') := by
  refine upholds_leavesYield (h.imp fun e e' he => ?_)
  cases he with
  | none => exact .refl _
  | some h =>
    obtain ⟨o, ho, rfl⟩ := h
    exact (Upholds.of_iff fun _ => childLeaves_some).trans
      (ho.trans (.of_iff fun _ => childLeaves_some.symm))

/-! ## Ranges and splices -/

theorem leavesYield_range {rows cols : Int} :
    LeavesYield (ev.Runs env) [.range rows cols es] vs ↔
      ev.ChildLeaves env es vs := by
  rw [leavesYield_singleton]
  simp only [runs_range]
  constructor
  · rintro ⟨_, ⟨ys, hys, rfl⟩, rfl⟩
    exact ⟨ys, hys, by simp [Yield.leaves, Yield.items, leavesOf, leaves_grid, leavesOf_map_single]⟩
  · rintro ⟨ys, hys, rfl⟩
    refine ⟨_, ⟨ys, hys, rfl⟩, ?_⟩
    simp [Yield.leaves, Yield.items, leavesOf, leaves_grid, leavesOf_map_single]

theorem leavesYield_splice :
    LeavesYield (ev.Runs env) [.splice es] vs ↔ ev.ChildLeaves env es vs := by
  rw [leavesYield_singleton]
  simp only [runs_splice]
  constructor
  · rintro ⟨_, ⟨ys, hys, rfl⟩, rfl⟩
    exact ⟨ys, hys, by rw [Yield.leaves, Yield.items, leavesOf_flatMap_items]⟩
  · rintro ⟨ys, hys, rfl⟩
    refine ⟨_, ⟨ys, hys, rfl⟩, ?_⟩
    rw [Yield.leaves, Yield.items, leavesOf_flatMap_items]

/-- **Flattening changes no leaves.** -/
theorem leavesYield_flatten (e : Expr) : ∀ vs, ev.OutcomeLeaves env e.flatten vs ↔
    LeavesYield (ev.Runs env) [e] vs := by
  induction e using induction_on_parts with
  | step e ih =>
    have hall (es : Children) (hes : ∀ x, some x ∈ es → x ∈ e.parts) (vs : List Value) :
        ev.OutcomeLeaves env (flattenChildren es) vs ↔
          ev.ChildLeaves env es vs := by
      rw [flattenChildren_eq]
      induction es generalizing vs with
      | nil => exact leavesYield_nil.trans leavesYield_nil.symm
      | cons x es ih' =>
        have hrest := ih' fun x hx => hes x (mem_cons_of_mem _ hx)
        have hfirst (vs : List Value) : ev.OutcomeLeaves env (flattenChild x) vs ↔
            ev.ChildLeaves env [x] vs := by
          cases x with
          | none =>
            refine leavesYield_singleton.trans (Iff.trans ?_ leavesYield_singleton.symm)
            exact exists_congr fun y => and_congr_left fun _ => runs_constant
          | some x => exact (ih x (.part (hes x mem_cons_self)) vs).trans childLeaves_some.symm
        rw [flatMap_cons]
        refine leavesYield_append.trans (Iff.trans ?_ leavesYield_cons.symm)
        simp only [hfirst, hrest]
    intro vs
    cases e with
    | range rows cols es =>
      rw [Expr.flatten, leavesYield_range]
      exact hall es (by simp [parts]) vs
    | splice es =>
      rw [Expr.flatten, leavesYield_splice]
      exact hall es (by simp [parts]) vs
    | _ =>
      refine leavesYield_singleton.trans (Iff.trans ?_ leavesYield_singleton.symm)
      exact exists_congr fun y => and_congr_left fun _ => runs_ofExpr

theorem leavesYield_flattenOutcomes :
    ev.OutcomeLeaves env (flattenOutcomes os) vs ↔
      ev.OutcomeLeaves env os vs := by
  induction os generalizing vs with
  | nil => rfl
  | cons o os ih =>
    have hfirst (vs : List Value) : ev.OutcomeLeaves env o.flatten vs ↔
        ev.OutcomeLeaves env [o] vs := by
      cases o with
      | known v t => rfl
      | residual e =>
        exact (leavesYield_flatten e vs).trans (outcomeLeaves_singleton (o := .residual e)).symm
    have hrest (vs : List Value) : ev.OutcomeLeaves env (os.flatMap Outcome.flatten) vs ↔
        ev.OutcomeLeaves env os vs := ih
    rw [flattenOutcomes, flatMap_cons]
    refine leavesYield_append.trans (Iff.trans ?_ leavesYield_cons.symm)
    simp only [hfirst, hrest]

/-- The leaves of known values are these values. -/
theorem outcomeLeaves_of_fits {plain : Bool} (hos : ∀ o ∈ os, o.Fits plain) :
    ev.OutcomeLeaves env os vs ↔ vs = os.map (·.value) := by
  induction os generalizing vs with
  | nil => exact leavesYield_nil
  | cons o os ih =>
    have hos := forall_mem_cons.mp hos
    obtain ⟨v, t, rfl, hv⟩ := hos.1
    have hfirst (ws : List Value) : ev.OutcomeLeaves env [.known v t] ws ↔ ws = [v] := by
      simp only [leavesYield_singleton, Outcome.expr, runs_constant, exists_eq_left,
        Yield.leaves, Yield.items, leavesOf, Value.leaves_of_isArray (Value.isArray_of_fits hv),
        append_nil]
    refine leavesYield_cons.trans ?_
    simp only [hfirst, ih hos.2]
    constructor
    · rintro ⟨_, _, rfl, rfl, rfl⟩
      rfl
    · rintro rfl
      exact ⟨_, _, rfl, rfl, rfl⟩

end FormulaFold
