import FormulaFold.Proofs.StayingFolds

/-! # What is left of a fold

A fold that goes through its elements in order holds everything from the first element on that it
cannot take.  **Started from what was accumulated, the smaller fold holds all of its elements
again** (`InOrder.folds_again`): the first one for the same reason as before, and the others since
it comes first.
-/
namespace FormulaFold

variable {os : List Outcome} {o : Outcome} {R : Bindings → Giving} {d : FoldDef Expr}
  {st : FoldState}

/-! ## Elements in order -/

/-- How a fold takes or holds one element if everything after a held element is held.  Whether an
element is held depends on the accumulators and the number of folded elements only. -/
structure InOrder {ι : Type} (nodes : ι → List Expr) (G : FoldState → ι → FoldState → Prop) :
    Prop where
  split : ∀ st x st', G st x st' → st' = st.hold true (nodes x) ∨
    st.stopped = false ∧ st'.stopped = false ∧ st'.held = st.held
  again : ∀ st st₂ x, st.stopped = false → G st x (st.hold true (nodes x)) →
    st₂.accs = st.accs → st₂.folded = st.folded → st₂.stopped = false →
    G st₂ x (st₂.hold true (nodes x))
  stopped : ∀ st x, st.stopped = true → G st x (st.hold true (nodes x))

namespace InOrder

variable {ι : Type} {nodes : ι → List Expr} {G : FoldState → ι → FoldState → Prop}
  (hG : InOrder nodes G)
include hG

/-- Once stopped, a fold holds everything. -/
theorem eq_of_folds_stopped (hst : st.stopped = true) (h : Folds G st xs st') :
    st' = { st with held := st.held ++ xs.map nodes } := by
  induction h with
  | nil => simp
  | @cons st _ _ x xs hx _ ih =>
    obtain rfl | ⟨hopen, _⟩ := hG.split _ _ _ hx
    · rw [ih (by simp [FoldState.hold])]
      simp [FoldState.hold, hst]
    · rw [hst] at hopen
      cases hopen

theorem folds_stopped (hst : st.stopped = true) (xs : List ι) :
    Folds G st xs { st with held := st.held ++ xs.map nodes } := by
  induction xs generalizing st with
  | nil =>
    rw [map_nil, append_nil]
    exact .nil
  | cons x xs ih =>
    have hrest (st' : FoldState) (h : st' = st.hold true (nodes x)) :
        Folds G st' xs { st' with held := st'.held ++ xs.map nodes } :=
      ih (by simp [h, FoldState.hold])
    refine .cons (hG.stopped st x hst) ?_
    simpa [FoldState.hold, hst] using hrest _ rfl

/-- **What a fold in order has held is held again** when it is started from what was
accumulated, and nothing is gained by it. -/
theorem folds_again (h : Folds G st xs st') (hst : st.stopped = false) (hheld : st.held = [])
    (hne : st'.held ≠ []) :
    ∃ left st'', left <:+ xs ∧ st'.held = left.map nodes ∧
      Folds G (.start st'.accs st'.folded) left st'' ∧ st''.held ≠ [] ∧ st''.progress = false := by
  induction h with
  | nil => exact absurd hheld hne
  | @cons st st₁ st' x xs hx hxs ih =>
    obtain rfl | ⟨_, hopen, hsame⟩ := hG.split _ _ _ hx
    · -- The first element that is held: the others follow it.
      obtain rfl := hG.eq_of_folds_stopped (by simp [FoldState.hold]) hxs
      have hfirst := hG.again _ (.start st.accs st.folded) x hst hx rfl rfl rfl
      refine ⟨x :: xs, _, List.suffix_refl _, ?_,
        .cons hfirst (hG.folds_stopped (by simp [FoldState.hold]) xs), ?_, rfl⟩
      · simp [FoldState.hold, hheld]
      · simp [FoldState.hold]
    · obtain ⟨left, st'', hleft, hrest⟩ := ih hopen (hsame.trans hheld) hne
      exact ⟨left, st'', hleft.trans (List.suffix_cons x xs), hrest⟩

end InOrder

/-- A step that is not constant is not constant from other states with the same accumulators. -/
theorem StepGives.none_again (h : StepGives R b d st elements extra none)
    (haccs : st'.accs = st.accs) (hfolded : st'.folded = st.folded) :
    StepGives R b d st' elements extra none := by
  generalize hr : (none : Option FoldState) = r at h
  cases h with
  | first => cases hr
  | next hsome hlen hnames hsteps =>
    obtain rfl := map_eq_none_iff.mp hr.symm
    rw [← hfolded] at hsteps
    exact .next (haccs.trans hsome) hlen hnames hsteps

/-- An element that is held was not folded. -/
theorem not_stepGives_hold :
    ¬StepGives R b d st elements extra (some (st.hold true nodes)) := by
  intro h
  have hheld := held_of_stepGives h
  simp [FoldState.hold] at hheld

section Sensitive

variable (hd : d.orderSensitive = true)
include hd

theorem inOrder_items {pass : List Outcome → Option Bool → Prop}
    {elements : List Outcome → List Outcome} {extra : List Outcome → List (String × Outcome)} :
    InOrder (fun item => item.map (·.expr)) fun st item =>
      ItemGives R b d (pass item) (elements item) (extra item) st item where
  split st row st' h := by
    cases h with
    | held | undecided => exact .inl (by rw [hd])
    | dropped hheld =>
      have hstopped := (or_eq_false_iff.mp hheld).1
      exact .inr ⟨hstopped, hstopped, rfl⟩
    | @tried r hheld _ hr =>
      cases r with
      | none => exact .inl (by rw [hd]; rfl)
      | some st' =>
        have hstopped := (or_eq_false_iff.mp hheld).1
        exact .inr ⟨hstopped, (stopped_of_stepGives hr).trans hstopped, held_of_stepGives hr⟩
  again st st₂ row hst h haccs hfolded hst₂ := by
    have hsame : st₂.stopped = st.stopped := hst₂.trans hst.symm
    rw [← hd] at h ⊢
    generalize hhold : st.hold d.orderSensitive (row.map (·.expr)) = st' at h
    cases h with
    | held hheld => exact .held (by rwa [hsame])
    | undecided hheld hpass => exact .undecided (by rwa [hsame]) hpass
    | dropped => simpa [FoldState.hold] using congrArg FoldState.held hhold
    | @tried r hheld hpass hr =>
      cases r with
      | none => exact .tried (by rwa [hsame]) hpass (hr.none_again haccs hfolded)
      | some st' =>
        subst hhold
        exact absurd (hd ▸ hr) not_stepGives_hold
  stopped st row hst := by
    rw [← hd]
    exact .held (by simp [hst])

end Sensitive

/-! ## Accumulators as first values -/

theorem stopped_of_startGives {R : Giving}
    (h : StartGives R inits folded r) (hr : r = some st) : st.stopped = false := by
  obtain ⟨_, rfl⟩ := exists_start_of_startGives h hr
  rfl

/-- A smaller fold starts with what was accumulated if the accumulators are what they were. -/
theorem startGives_resumed {R : Giving}
    (h : ∀ accs, st.accs = some accs → ∀ o ∈ accs, R o.expr o ∧ o.isConstant = true) :
    StartGives R st.resumed st.folded (some (.start st.accs st.folded)) := by
  unfold FoldState.resumed
  cases haccs : st.accs with
  | none => exact .first rfl
  | some accs =>
    have hgive (accs : List Outcome) (h : ∀ o ∈ accs, R o.expr o ∧ o.isConstant = true) :
        ConstantsGive R (accs.map fun o => some o.expr) (some accs) := by
      induction accs with
      | nil => exact .nil
      | cons o accs ih =>
        have h := forall_mem_cons.mp h
        exact .cons h.1.1 h.1.2 (ih h.2)
    refine .inits (r := some accs) ?_ (hgive accs (h accs haccs))
    intro heq
    obtain ⟨_, _, hnone⟩ := List.map_eq_singleton_iff.mp heq
    cases hnone

theorem sized_of_itemGives {pass : Option Bool → Prop} (hst : st.Sized inits)
    (h : ItemGives R b d pass elements extra st item st') : st'.Sized inits := by
  cases h with
  | held | undecided | dropped => exact ⟨hst.missing, hst.present⟩
  | @tried r _ _ hr =>
    cases r with
    | none => exact ⟨hst.missing, hst.present⟩
    | some st' => exact sized_of_stepGives hst hr

/-! ## Elements that are left -/

/-- The elements of formulas have no elements of their own. -/
theorem flatten_of_mem_flatten (e : Expr) : ∀ o ∈ e.flatten, o.flatten = [o] := by
  induction e using induction_on_parts with
  | step e ih =>
    have hall {es : Children} (hes : ∀ x, some x ∈ es → x ∈ e.parts) (o : Outcome)
        (ho : o ∈ flattenChildren es) : o.flatten = [o] := by
      rw [flattenChildren_eq, mem_flatMap] at ho
      obtain ⟨x, hx, ho⟩ := ho
      cases x with
      | none =>
        rw [mem_singleton.mp ho]
        rfl
      | some x => exact ih x (.part (hes x hx)) o ho
    intro o ho
    cases e with
    | range rows cols elements | splice elements =>
      rw [Expr.flatten] at ho
      exact hall (fun x hx => by simpa [parts] using hx) o ho
    | constant v t =>
      rw [Expr.flatten, mem_singleton] at ho
      · rw [ho]
        rfl
      all_goals simp
    | _ =>
      rw [Expr.flatten_of_isOpen rfl, mem_singleton] at ho
      rw [ho]
      exact Expr.flatten_of_isOpen rfl

theorem flatten_of_mem_flattenOutcomes (ho : o ∈ flattenOutcomes os) : o.flatten = [o] := by
  obtain ⟨x, _, ho⟩ := mem_flatMap.mp ho
  cases x with
  | known v t =>
    rw [mem_singleton.mp ho]
    rfl
  | residual e => exact flatten_of_mem_flatten e o ho

theorem flattenOutcomes_of_flat (h : ∀ o ∈ os, o.flatten = [o]) : flattenOutcomes os = os := by
  induction os with
  | nil => rfl
  | cons o os ih =>
    have h := forall_mem_cons.mp h
    rw [flattenOutcomes, flatMap_cons, h.1]
    exact congrArg (o :: ·) (ih h.2)

/-- Outcomes as children are those outcomes again. -/
theorem map_ofChild_exprs (h : ∀ o ∈ os, o.Typed) :
    ((os.map (·.expr)).map some).map ofChild = os := by
  induction os with
  | nil => rfl
  | cons o os ih =>
    have h := forall_mem_cons.mp h
    rw [map_cons, map_cons, map_cons, ih h.2]
    exact congrArg (· :: os) h.1

section Stays

variable {P : WalkState → Prop} {enter : Address → Expr → Action}

theorem stays_known (htyped : o.Typed) (hknown : o.isKnown = true) :
    Stays P site enter b o.expr := by
  cases o with
  | known v t => exact stays_constant htyped.constant_eq
  | residual e => cases hknown

end Stays

end FormulaFold
