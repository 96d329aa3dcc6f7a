import FormulaFold.Proofs.UpheldLists

/-! # Runs on settled values

Where all constants and inputs are settled and nothing is rounded, every value of a run is settled,
and what stands for a single value yields one (`Evaluator.settled_of_runs`).
-/
namespace FormulaFold

/-- Whether the formulas of all cells stand for single values and no cell holds an array. -/
structure Workbook.Sorted (plain : Bool) (book : Workbook) : Prop where
  formulas : ∀ a f, (book.get a).formula = some f → f.isSorted plain .scalar = true
  values : ∀ a, (book.get a).value.isArray = false

theorem Workbook.sorted_of_cells {plain : Bool} {book : Workbook} (h : book.cells.all (fun cell =>
    optionSorted plain .scalar cell.formula && !cell.value.isArray) = true) :
    book.Sorted plain := by
  simp only [all_eq_true, and_eq_true, Bool.not_eq_true', optionSorted_iff] at h
  constructor
  · intro a f hf
    obtain ⟨cell, hcell, _, hformula⟩ := exists_cell_of_formula hf
    exact (h cell hcell).1 f hformula
  · intro a
    unfold get
    cases hfind : book.find? a with
    | none => rfl
    | some cell => exact (h cell (List.mem_of_find?_eq_some hfind)).2

/-- The values of a yield are settled, and there is one where a single value is taken. -/
structure Yield.SettledAt (place : Place) (y : Yield) : Prop where
  items : ∀ v ∈ y.items, v.isSettled = true
  single : place = .scalar → ∃ v, y = .one v

namespace Yield

variable {place : Place} {y : Yield} {v : Value}

theorem settledAt_one (h : v.isSettled = true) : (one v).SettledAt place :=
  ⟨by simpa [items] using h, fun _ => ⟨v, rfl⟩⟩

theorem SettledAt.of_scalar (h : y.SettledAt .scalar) : y.SettledAt place :=
  ⟨h.items, fun _ => h.single rfl⟩

theorem SettledAt.exists_one (h : y.SettledAt .scalar) : ∃ v, y = .one v ∧ v.isSettled = true := by
  obtain ⟨v, rfl⟩ := h.single rfl
  exact ⟨v, rfl, h.items v (by simp [Yield.items])⟩

theorem SettledAt.isSettled_single (h : y.SettledAt place) : y.single.isSettled = true := by
  cases y with
  | one v => exact h.items v (by simp [Yield.items])
  | many vs => exact Value.isSettled_row.mpr h.items

theorem SettledAt.isSettled_leaves (h : y.SettledAt place) : ∀ v ∈ y.leaves, v.isSettled = true :=
  fun _ hv => Value.isSettled_of_mem_leavesOf (Value.allSettled_iff.mpr h.items) hv

end Yield

section Nodes

variable {ev : Evaluator} {env : Env} {M : Yielding} {place : Place} {ys : List Yield}
  {y : Yield}

theorem settledAt_of_childOr (hmissing : missing.isSettled = true)
    (hM : ∀ x y, e = some x → M x y → y.SettledAt place)
    (h : ChildOr (.one missing) M e y) : y.SettledAt place := by
  cases e with
  | none =>
    rw [show y = .one missing from h]
    exact Yield.settledAt_one hmissing
  | some x => exact hM x y rfl h

theorem settledAt_of_forall₂ (hM : ∀ x y, some x ∈ es → M x y → y.SettledAt place)
    (h : Forall₂ (ChildYields M) es ys) : ∀ y ∈ ys, y.SettledAt place := by
  intro y hy
  obtain ⟨e, he, hchild⟩ := exists_of_forall₂_of_mem h hy
  exact settledAt_of_childOr rfl (fun x y hx => hM x y (hx ▸ he)) hchild

theorem isSettled_of_mem_items (h : ∀ y ∈ ys, y.SettledAt place) :
    ∀ v ∈ ys.flatMap Yield.items, v.isSettled = true := by
  intro v hv
  obtain ⟨y, hy, hv⟩ := mem_flatMap.mp hv
  exact (h y hy).items v hv

theorem isSettled_of_mem_singles (h : ∀ y ∈ ys, y.SettledAt place) :
    ∀ v ∈ ys.map Yield.single, v.isSettled = true :=
  List.forall_mem_map.mpr fun y hy => (h y hy).isSettled_single

/-- What a function computes from settled values is settled. -/
theorem Engine.isSettled_of_call {engine : Engine} (hprecision : engine.precision ≤ 0)
    (hif : ofName? fn ≠ some .ifElse) {vs : List Value} (hvs : ∀ v ∈ vs, v.isSettled = true)
    {v : Value} (h : engine.call fn vs = .ok v) : (engine.adjust v).isSettled = true := by
  unfold Engine.call at h
  split at h
  · rename_i f hf
    by_cases hindex : f = .index
    · subst hindex
      have hv : v.isSettled = true := by
        obtain ⟨source, hsource, ⟨_, rfl⟩ | ⟨rows, cols, values, rfl, hv⟩⟩ :=
          Builtin.mem_of_select h
        · exact hvs v hsource
        · exact Value.allSettled_iff.mp (by simpa [Value.isSettled] using hvs _ hsource) v hv
      rw [Engine.adjust_of_isSettled hprecision hv]
      exact hv
    · exact Engine.isSettled_adjust hprecision
        (Builtin.isArray_of_compute (fun heq => hif (heq ▸ hf)) hindex h)
  · cases h

theorem settledAt_of_computedYields {compute : Computation}
    (hM : ∀ x y, some x ∈ es → M x y → y.SettledAt .argument)
    (hcompute : ∀ vs v, (∀ u ∈ vs, u.isSettled = true) → compute vs = .ok v →
      (ev.engine.adjust v).isSettled = true)
    (h : ComputedYields ev.engine M compute es y) : y.SettledAt place := by
  obtain ⟨ys, v, hys, hv, rfl⟩ := h
  have hys := settledAt_of_forall₂ (fun x y hx => hM x y (mem_of_mem_trimmed hx)) hys
  exact Yield.settledAt_one (hcompute _ v (isSettled_of_mem_items hys) hv)

theorem settledAt_of_boolYields {decisive : Bool} (h : BoolYields ev.engine fn decisive M es y) :
    y.SettledAt place := by
  induction h with
  | nil | decided => exact Yield.settledAt_one rfl
  | missing _ ih | next _ _ _ ih => exact ih

theorem settledAt_of_callYields (hprecision : ev.engine.precision ≤ 0)
    (hM : ∀ x y, some x ∈ es → M x y → y.SettledAt (argumentPlace (ofName? fn)))
    (hargs : fitsCall es (ofName? fn) = true)
    (h : CallYields ev.engine M env fn es y (ofName? fn)) : y.SettledAt place := by
  have hcall (hif : ofName? fn ≠ some .ifElse)
      (h : ComputedYields ev.engine M (ev.engine.call fn) es y) : y.SettledAt place := by
    refine settledAt_of_computedYields (fun x y hx hy => ?_)
      (fun vs v hvs => Engine.isSettled_of_call hprecision hif hvs) h
    have hplace : argumentPlace (ofName? fn) = .argument := by
      cases hf : ofName? fn with
      | none => rfl
      | some f => cases f <;> first | rfl | exact absurd hf hif
    exact hplace ▸ hM x y hx hy
  have hposition (hif : ofName? fn ≠ some .ifElse) {position : Address → Int}
      (h : PositionYields ev.engine M env fn position es y) : y.SettledAt place := by
    unfold PositionYields at h
    split at h
    · rw [h]
      exact Yield.settledAt_one (Engine.isSettled_ofInt _)
    · exact hcall hif h
  generalize hf : ofName? fn = f at *
  rcases f with _ | f
  · exact hcall (by simp) h
  cases f
  case ifElse =>
    have hne : ¬cardinality es = 0 := by
      cases es with
      | nil => cases hargs
      | cons e rest =>
        cases e with
        | none => cases hargs
        | some e => simp [cardinality, trimmed_some_cons]
    unfold CallYields IfYields at h
    rw [if_neg hne] at h
    obtain ⟨c, b, _, _, h⟩ := h
    have hbranch {missing : Value} (hmissing : missing.isSettled = true) (i : Nat)
        (h : ChildOr (.one missing) M es[i]?.join y) : y.SettledAt .scalar :=
      settledAt_of_childOr hmissing (fun x y hx => hM x y (mem_of_getElem?_join hx)) h
    cases b with
    | true => exact (hbranch (by decide +kernel) 1 h).of_scalar
    | false => exact (hbranch rfl 2 h).of_scalar
  case and | or => exact settledAt_of_boolYields h
  case row | column => exact hposition (by simp) h
  all_goals exact hcall (by simp) h

end Nodes

/-! ## Folds -/

section Folds

variable {env : Env} {M : Env → Yielding} {d : FoldDef Expr} {inits : Children}
  {st st' : RunFold} {y : Yield}

/-- The accumulators of a fold are settled. -/
def RunFold.Settled (st : RunFold) : Prop :=
  ∀ accs, st.accs = some accs → ∀ v ∈ accs, v.isSettled = true

/-- The formulas of a fold yield settled values. -/
structure FoldDef.Settles (d : FoldDef Expr) (book : Workbook) (M : Env → Yielding) :
    Prop where
  steps : ∀ env e y, env.Fits true book → e ∈ d.steps → M env e y → y.SettledAt .scalar
  merge : ∀ env e y, env.Fits true book → d.merge = some e → M env e y → y.SettledAt .scalar
  whenEmpty : ∀ env e y, env.Fits true book → d.whenEmpty = some e → M env e y → y.SettledAt .scalar

theorem settled_of_startYields {M : Yielding}
    (hM : ∀ x y, some x ∈ inits → M x y → y.SettledAt .scalar)
    (h : StartYields M inits folded st) : st.Settled := by
  cases h with
  | first => rintro _ ⟨⟩
  | inits _ hys =>
    rintro accs ⟨⟩
    exact isSettled_of_mem_singles (settledAt_of_forall₂ hM hys)

theorem settled_of_folds {ξ : Type} {step : RunFold → ξ → RunFold → Prop} {xs : List ξ}
    (hstep : ∀ st x st', x ∈ xs → st.Settled → step st x st' → st'.Settled) (hst : st.Settled)
    (h : Folds step st xs st') : st'.Settled := by
  induction h with
  | nil => exact hst
  | cons hx _ ih =>
    exact ih (fun st x st' hx => hstep st x st' (mem_cons_of_mem _ hx))
      (hstep _ _ _ mem_cons_self hst hx)

theorem isSettled_ofNat (n : Nat) : (Value.number (Float.ofNat n)).isSettled = true :=
  Engine.isSettled_ofInt n

variable (henv : env.Fits true book)
include henv

theorem fits_stepEnv (haccs : ∀ v ∈ accs, v.isSettled = true)
    (helements : ∀ v ∈ elements, v.isSettled = true)
    (hextra : ∀ pair ∈ extra, pair.2.isSettled = true) :
    (d.stepEnv env folded accs elements extra).Fits true book := by
  refine Env.Fits.setPairs (Env.Fits.set (Env.Fits.setPairs (henv.setPairs fun _ pair hpair => ?_)
    fun _ pair hpair => ?_) _ fun _ => ⟨_, rfl, isSettled_ofNat _⟩) fun _ => hextra
  · exact haccs _ (of_mem_zip hpair).2
  · exact helements _ (of_mem_zip hpair).2

theorem fits_mergeEnv (haccs : ∀ v ∈ accs, v.isSettled = true) :
    (d.mergeEnv env folded accs).Fits true book :=
  Env.Fits.set (henv.setPairs fun _ _ hpair => haccs _ (of_mem_zip hpair).2) _
    fun _ => ⟨_, rfl, isSettled_ofNat _⟩

variable (hd : d.Settles book M)
include hd

theorem settled_of_stepYields (hst : st.Settled) (helements : ∀ v ∈ elements, v.isSettled = true)
    (hextra : ∀ pair ∈ extra, pair.2.isSettled = true)
    (h : StepYields M env d st elements extra st') : st'.Settled := by
  cases h with
  | first _ _ heq =>
    rintro accs ⟨⟩
    subst heq
    simpa using helements _ mem_cons_self
  | @next accs ys haccs _ _ hys =>
    rintro accs ⟨⟩
    have hall : ∀ y ∈ ys, y.SettledAt .scalar := by
      intro y hy
      obtain ⟨e, he, hey⟩ := exists_of_forall₂_of_mem hys hy
      exact hd.steps _ e y (fits_stepEnv henv (hst _ haccs) helements hextra) he hey
    exact isSettled_of_mem_singles hall

theorem settledAt_of_resultYields (hst : st.Settled) (h : ResultYields M env d st y) :
    y.SettledAt .scalar := by
  cases h with
  | whenEmpty he _ hy => exact hd.whenEmpty env _ y henv he hy
  | blank => exact Yield.settledAt_one rfl
  | first _ haccs => exact Yield.settledAt_one (hst _ haccs _ mem_cons_self)
  | merged _ haccs hmerge _ hy =>
    exact hd.merge _ _ y (fits_mergeEnv henv (hst _ haccs)) hmerge hy

variable (hinits : ∀ x y, some x ∈ inits → M env x y → y.SettledAt .scalar)
include hinits

theorem settledAt_of_listYields (hes : ∀ x y, some x ∈ es → M env x y → y.SettledAt .element)
    (h : ListYields M env d inits folded es y) : y.SettledAt .scalar := by
  obtain ⟨hstart, hys, hfolds, hy⟩ := h
  have hys := settledAt_of_forall₂ hes hys
  refine settledAt_of_resultYields henv hd (settled_of_folds (fun st x st' hx hst hstep => ?_)
    (settled_of_startYields hinits hstart) hfolds) hy
  obtain ⟨v, hv, rfl⟩ := mem_map.mp hx
  obtain ⟨y, hy, hv⟩ := mem_flatMap.mp hv
  refine settled_of_stepYields henv hd hst ?_ (by simp) hstep
  simpa using (hys y hy).isSettled_leaves v hv

theorem settledAt_of_vectorsYield (hes : ∀ x y, some x ∈ es → M env x y → y.SettledAt .element)
    (h : VectorsYield M env d inits folded es y) : y.SettledAt .scalar := by
  obtain ⟨_, _, hys, _, hstart, hfolds, hy⟩ := h
  have hys := settledAt_of_forall₂ hes hys
  refine settledAt_of_resultYields henv hd (settled_of_folds (fun st x st' hx hst hstep => ?_)
    (settled_of_startYields hinits hstart) hfolds) hy
  refine settled_of_stepYields henv hd hst (fun v hv => ?_) (by simp) hstep
  obtain ⟨i, _, rfl⟩ := mem_map.mp hx
  obtain ⟨leaves, hleaves, hv⟩ := mem_filterMap.mp hv
  obtain ⟨y, hy, rfl⟩ := mem_map.mp hleaves
  exact (hys y hy).isSettled_leaves v (mem_of_getElem? hv)

theorem settledAt_of_tableYields
    (htable : ∀ x y, table = some x → M env x y → y.SettledAt .argument)
    (h : TableYields M env d inits folded columns filter column table y) : y.SettledAt .scalar := by
  obtain ⟨htable', _, _, hstart, hfolds, _, hy⟩ := h
  have hsettled := settledAt_of_childOr rfl htable htable'
  have hvalues := Value.allSettled_iff.mp
    (by simpa [Value.isSettled] using hsettled.items _ mem_cons_self)
  refine settledAt_of_resultYields henv hd (settled_of_folds (fun st row st' hrow hst hstep => ?_)
    (settled_of_startYields hinits hstart) hfolds) hy
  have hrow (v : Value) (hv : v ∈ row) : v.isSettled = true :=
    hvalues v (mem_of_mem_rowsOf (mem_of_mem_take hrow) hv)
  cases hstep with
  | dropped => exact hst
  | taken _ hstep =>
    refine settled_of_stepYields henv hd hst (fun v hv => ?_) (fun pair hpair => ?_) hstep
    · exact hrow v (d.mem_of_mem_rowElements hv)
    · exact hrow _ (of_mem_zip hpair).2

end Folds

/-! ## Formulas -/

section Formulas

variable {ev : Evaluator} {entered : Address → Expr → List Row → Yield → Prop}
  {M : Env → Yielding}

theorem settledAt_of_cellYields (hprecision : ev.engine.precision ≤ 0)
    (hbook : ev.book.Sorted true) (hinputs : ev.inputs.Fits true ev.book)
    (henv : env.Fits true ev.book)
    (hentered : ∀ f y, (ev.book.get a).formula = some f → entered a f env.rows y →
      y.SettledAt .scalar)
    (h : CellYields ev entered env a y) : y.SettledAt .scalar := by
  cases h with
  | row hrow => exact Yield.settledAt_one ((henv.cell? hrow).2 rfl)
  | input _ _ hv => exact Yield.settledAt_one (hinputs.cells rfl _ _ hv)
  | formula _ _ hf hy => exact hentered _ y hf hy
  | literal =>
    exact Yield.settledAt_one (Value.isSettled_of_fits
      (Engine.fits_literal (fun _ => hprecision) (hbook.values a)))

/-- **A node yields settled values** if its parts do. -/
theorem settledAt_of_nodeYields (hprecision : ev.engine.precision ≤ 0)
    (hbook : ev.book.Sorted true) (hinputs : ev.inputs.Fits true ev.book)
    (henv : env.Fits true ev.book)
    (hentered : ∀ a f y, (ev.book.get a).formula = some f → entered a f env.rows y →
      y.SettledAt .scalar)
    (hM : ∀ x env place y, x ∈ e.parts → env.Fits true ev.book → x.isSorted true place = true →
      M env x y → y.SettledAt place)
    (hsorted : e.isSorted true place = true) (h : NodeYields ev entered M env e y) :
    y.SettledAt place := by
  have hfold {d : FoldDef Expr} (hd : d.Sorted true) (hparts : ∀ x ∈ d.parts, x ∈ e.parts) :
      d.Settles ev.book M :=
    { steps := fun env x y henv hx =>
        hM x env .scalar y (hparts x (FoldDef.mem_parts_of_mem_steps hx)) henv (hd.steps x hx)
      merge := fun env x y henv hx =>
        hM x env .scalar y (hparts x (by simp [FoldDef.parts, hx])) henv (hd.merge x hx)
      whenEmpty := fun env x y henv hx =>
        hM x env .scalar y (hparts x (by simp [FoldDef.parts, hx])) henv (hd.whenEmpty x hx) }
  have hseeds {d : FoldDef Expr} {seeds : List Expr} (hd : d.Sorted true)
      (hseeds : seedsSorted true seeds = true)
      (hparts : ∀ x, x ∈ d.parts ∨ x ∈ seeds → x ∈ e.parts) (x : Expr) (y : Yield)
      (hx : some x ∈ d.start seeds) (hy : M env x y) : y.SettledAt .scalar :=
    hM x env .scalar y (hparts x (FoldDef.mem_parts_of_mem_start d hx)) henv
      (hd.start hseeds x hx) hy
  have hall {es : Children} {p : Place} (hparts : ∀ x, some x ∈ es → x ∈ e.parts)
      (hes : allSorted true p es = true) (x : Expr) (y : Yield) (hx : some x ∈ es)
      (hy : M env x y) : y.SettledAt p :=
    hM x env p y (hparts x hx) henv (allSorted_iff.mp hes x hx) hy
  have hoption {o : Option Expr} {p : Place} {env : Env} (henv : env.Fits true ev.book)
      (hparts : ∀ x, o = some x → x ∈ e.parts) (ho : optionSorted true p o = true) (x : Expr)
      (y : Yield) (hx : o = some x) (hy : M env x y) : y.SettledAt p :=
    hM x env p y (hparts x hx) henv (optionSorted_iff.mp ho x hx) hy
  cases h with
  | constant =>
    rw [isSorted] at hsorted
    exact Yield.settledAt_one (Value.isSettled_of_fits hsorted)
  | operator h =>
    rw [isSorted] at hsorted
    exact settledAt_of_computedYields (hall (by simp [parts]) hsorted) (fun vs v _ hv =>
      Engine.isSettled_adjust hprecision (Op.isArray_of_compute hv)) h
  | call h =>
    rw [isSorted, and_eq_true] at hsorted
    exact settledAt_of_callYields hprecision (hall (by simp [parts]) hsorted.2) hsorted.1 h
  | cell h =>
    exact (settledAt_of_cellYields hprecision hbook hinputs henv (hentered _) h).of_scalar
  | range hys =>
    rw [isSorted, and_eq_true] at hsorted
    have hys := settledAt_of_forall₂ (hall (by simp [parts]) hsorted.2) hys
    exact Yield.settledAt_one (Value.isSettled_grid.mpr (isSettled_of_mem_singles hys))
  | letIn hx hy =>
    simp only [isSorted, and_eq_true] at hsorted
    have hx := settledAt_of_childOr rfl (hoption henv (by simp_all [parts]) hsorted.1) hx
    refine (settledAt_of_childOr rfl (hoption (henv.set _ fun _ => hx.exists_one)
      (by simp_all [parts]) hsorted.2) hy).of_scalar
  | letVar hy =>
    obtain ⟨v, rfl, hv⟩ := henv.names rfl _ _ hy
    exact Yield.settledAt_one hv
  | splice hys =>
    rw [isSorted, and_eq_true] at hsorted
    have hys := settledAt_of_forall₂ (hall (by simp [parts]) hsorted.2) hys
    refine ⟨isSettled_of_mem_items hys, ?_⟩
    rintro rfl
    cases hsorted.1
  | switch _ hy =>
    refine (settledAt_of_childOr rfl (fun x y hx hy => ?_) hy).of_scalar
    obtain ⟨hx, hmem⟩ := Expr.sorted_branch hsorted (mem_branches_of_chosenBranch hx)
    exact hM x env .scalar y hmem henv hx hy
  | switchCase => cases hsorted
  | fold h =>
    simp only [isSorted, and_eq_true] at hsorted
    have hd := sorted_of_defSorted hsorted.1.1.2
    exact (settledAt_of_listYields henv (hfold hd (by simp +contextual [parts]))
      (hseeds hd hsorted.1.2 (by simp +contextual [parts, or_imp]))
      (hall (by simp +contextual [parts]) hsorted.2) h).of_scalar
  | reduce h =>
    simp only [isSorted, and_eq_true] at hsorted
    have hd := sorted_of_defSorted hsorted.1.1.2
    refine (settledAt_of_listYields henv (hfold hd (by simp +contextual [parts]))
      (fun x y hx => ?_) (hall (by simp +contextual [parts]) hsorted.2) h).of_scalar
    exact hoption henv (by simp_all [parts]) hsorted.1.2 x y (mem_singleton.mp hx).symm
  | foldArray h =>
    simp only [isSorted, and_eq_true] at hsorted
    have hd := sorted_of_defSorted hsorted.1
    refine (settledAt_of_listYields henv (hfold hd (by simp +contextual [parts]))
      (fun x y hx => hM x env .scalar y (by simp [parts, FoldDef.parts, hx]) henv
        (hd.inits x hx)) (fun x y hx => ?_) (arrayYields_iff.mp h)).of_scalar
    exact hoption henv (by simp_all [parts]) hsorted.2 x y (mem_singleton.mp hx).symm
  | foldVectors h =>
    simp only [isSorted, and_eq_true] at hsorted
    have hd := sorted_of_defSorted hsorted.1.1.2
    exact (settledAt_of_vectorsYield henv (hfold hd (by simp +contextual [parts]))
      (hseeds hd hsorted.1.2 (by simp +contextual [parts, or_imp]))
      (hall (by simp +contextual [parts]) hsorted.2) h).of_scalar
  | foldTable h =>
    simp only [isSorted, and_eq_true] at hsorted
    have hd := sorted_of_defSorted hsorted.1.1.1.2
    exact (settledAt_of_tableYields henv (hfold hd (by simp +contextual [parts]))
      (hseeds hd hsorted.1.1.2 (by simp +contextual [parts, or_imp]))
      (hoption henv (by simp_all [parts]) hsorted.2) h).of_scalar
  | parentSection hy =>
    rw [isSorted] at hsorted
    exact (settledAt_of_childOr rfl (hoption henv.outerRow (by simp_all [parts]) hsorted)
      hy).of_scalar
  | subSection hyss =>
    rw [isSorted, and_eq_true] at hsorted
    refine ⟨fun v hv => ?_, ?_⟩
    · obtain ⟨ys, hys, hv⟩ := mem_flatMap.mp hv
      obtain ⟨row, hrow, hys⟩ := exists_of_forall₂_of_mem hyss hys
      have hall : ∀ y ∈ ys, y.SettledAt .scalar := settledAt_of_forall₂ (fun x y hx =>
        hM x _ .scalar y (by simpa [parts] using hx)
          (henv.enterRow (hinputs.rows _ row hrow)) (allSorted_iff.mp hsorted.2 x hx)) hys
      exact isSettled_of_mem_items hall v hv
    · rintro rfl
      cases hsorted.1
  | count => exact Yield.settledAt_one (Engine.isSettled_ofInt _)

/-- **All values of a run are settled** where all constants and inputs are. -/
theorem Evaluator.settled_of_runs (hprecision : ev.engine.precision ≤ 0)
    (hbook : ev.book.Sorted true) (hinputs : ev.inputs.Fits true ev.book) (n : Nat) :
    ∀ (visited : List Address) (env : Env) (e : Expr) (place : Place) (y : Yield),
      env.Fits true ev.book → e.isSorted true place = true → ev.Runs n visited env e y →
      y.SettledAt place := by
  induction n with
  | zero =>
    intro visited env e
    induction e using induction_on_parts generalizing env with
    | step e ih =>
      intro place y henv hsorted h
      refine settledAt_of_nodeYields hprecision hbook hinputs henv (fun a f y _ hy => ?_)
        (fun x env place y hx henv => ih x (.part hx) env place y henv) hsorted (runs_iff.mp h)
      exact absurd hy.2 Run.not_yields_throw
  | succ n ihn =>
    intro visited env e
    induction e using induction_on_parts generalizing env with
    | step e ih =>
      intro place y henv hsorted h
      refine settledAt_of_nodeYields hprecision hbook hinputs henv (fun a f y hf hy => ?_)
        (fun x env place y hx henv => ih x (.part hx) env place y henv) hsorted (runs_iff.mp h)
      exact ihn _ _ f .scalar y (Env.fits_of_rows henv.rows _) (hbook.formulas a f hf) hy.2

end Formulas

end FormulaFold
