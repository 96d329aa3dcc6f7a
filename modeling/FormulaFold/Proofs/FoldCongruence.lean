import FormulaFold.Proofs.Congruence

/-! # Folds respect congruences

Two walks fold the same elements: what they accumulate is constant, hence equal, and what they
hold is alike.  They may differ in whether a fold is done in part.  Then the one leaves the whole
fold to the run where the other leaves the rest of it, so `Q` must not tell these two apart.
-/
namespace FormulaFold

open Walk

variable {rebuild : FoldState → Expr} {whole : List Outcome → Expr} {α β : Type}

/-- Two folds under way that differ in the formulas they hold only. -/
structure FoldState.Like (Q : Expr → Expr → Prop) (st st' : FoldState) : Prop where
  accs : st'.accs = st.accs
  folded : st'.folded = st.folded
  progress : st'.progress = st.progress
  stopped : st'.stopped = st.stopped
  held : Forall₂ (Forall₂ (Expr.Like Q)) st.held st'.held

namespace FoldState.Like

variable {Q : Expr → Expr → Prop} {st st' : FoldState}

theorem start (accs : Option (List Outcome)) (folded : Nat) :
    (FoldState.start accs folded).Like Q (FoldState.start accs folded) :=
  ⟨rfl, rfl, rfl, rfl, .nil⟩

theorem advance (h : st.Like Q st') (accs : List Outcome) :
    (st.advance accs).Like Q (st'.advance accs) :=
  ⟨rfl, congrArg (· + 1) h.folded, rfl, h.stopped, h.held⟩

theorem hold (h : st.Like Q st') (orderSensitive : Bool)
    (hnodes : Forall₂ (Expr.Like Q) nodes nodes') :
    (st.hold orderSensitive nodes).Like Q (st'.hold orderSensitive nodes') :=
  ⟨h.accs, h.folded, h.progress, congrArg (· || orderSensitive) h.stopped,
    rel_append h.held (.cons hnodes .nil)⟩

theorem skip (h : st.Like Q st') :
    ({ st with progress := true } : FoldState).Like Q { st' with progress := true } :=
  ⟨h.accs, h.folded, rfl, h.stopped, h.held⟩

theorem seeds (h : st.Like Q st') : st'.seeds = st.seeds := by
  rw [FoldState.seeds, FoldState.seeds, h.accs]

end FoldState.Like

theorem forall₂_map_expr {Q : Expr → Expr → Prop} (h : Forall₂ (Outcome.Like Q) os os') :
    Forall₂ (Expr.Like Q) (os.map (·.expr)) (os'.map (·.expr)) := by
  rw [forall₂_map_left_iff, forall₂_map_right_iff]
  exact h.imp fun _ _ ho => ho.expr

/-- The site with folds done in part, or not. -/
def Site.withPartialFolds (site : Site) (p : Bool) : Site := { site with partialFolds := p }

section Elements

variable {Q : Expr → Expr → Prop}

theorem Agreeable.headD_like (hQ : Agreeable book Q) (h : Forall₂ (Outcome.Like Q) os os') :
    (os.headD .blank).Like Q (os'.headD .blank) := by
  cases h with
  | nil => exact hQ.outcome_refl _
  | cons ho _ => exact ho

theorem arrayElements?_like (hQ : Agreeable book Q) (h : o.Like Q o') :
    Option.Rel (Forall₂ (Outcome.Like Q)) (arrayElements? o) (arrayElements? o') := by
  have hrefl (os : List Outcome) : Forall₂ (Outcome.Like Q) os os :=
    forall₂_same.mpr fun o _ => hQ.outcome_refl o
  cases o with
  | known v t =>
    rw [show o' = .known v t from h]
    cases arrayElements? (.known v t) with
    | none => exact .none
    | some os => exact .some (hrefl os)
  | residual e =>
    obtain ⟨e', rfl, he⟩ := h
    have helements : Option.Rel (Forall₂ (Outcome.Like Q)) (Outcome.residual e).elements?
        (Outcome.residual e').elements? := elements?_like hQ ⟨e', rfl, he⟩
    unfold arrayElements?
    generalize (Outcome.residual e).elements? = r at helements ⊢
    generalize (Outcome.residual e').elements? = r' at helements ⊢
    cases helements with
    | none => exact .none
    | some h => exact .some (flattenOutcomes_like hQ h)

/-- Vectors that are alike have the same lengths, or the same flaw. -/
theorem vectorElements?_like (hQ : Agreeable book Q) (h : Forall₂ (Outcome.Like Q) os os')
    (first : Option Nat) (position : Nat) :
    (vectorElements? first position os = none ∧ vectorElements? first position os' = none) ∨
    (∃ m, vectorElements? first position os = some (.error m) ∧
      vectorElements? first position os' = some (.error m)) ∨
    ∃ vs vs', vectorElements? first position os = some (.ok vs) ∧
      vectorElements? first position os' = some (.ok vs') ∧
      Forall₂ (Forall₂ (Outcome.Like Q)) vs vs' := by
  induction h generalizing first position with
  | nil => exact .inr (.inr ⟨[], [], rfl, rfl, .nil⟩)
  | @cons o o' os os' ho _ ih =>
    rw [vectorElements?_cons, vectorElements?_cons]
    have helements := elements?_like hQ ho
    generalize o.elements? = r at helements ⊢
    generalize o'.elements? = r' at helements ⊢
    cases helements with
    | none => exact .inl ⟨rfl, rfl⟩
    | @some es es' hes =>
      have hflat := flattenOutcomes_like hQ hes
      simp only [bind_some, ← hflat.length_eq]
      by_cases hlen : (flattenOutcomes es).length ≠ first.getD (flattenOutcomes es).length
      · simp only [if_pos hlen]
        exact .inr (.inl ⟨_, rfl, rfl⟩)
      · simp only [if_neg hlen]
        rcases ih (some (first.getD (flattenOutcomes es).length)) (position + 1) with
          ⟨hn, hn'⟩ | ⟨m, hm, hm'⟩ | ⟨vs, vs', hvs, hvs', hlike⟩
        · rw [hn, hn']
          exact .inl ⟨rfl, rfl⟩
        · rw [hm, hm']
          exact .inr (.inl ⟨m, rfl, rfl⟩)
        · rw [hvs, hvs']
          exact .inr (.inr ⟨_, _, rfl, rfl, .cons hflat hlike⟩)

end Elements

/-- How a fold is left to the run: whole, around its walked children, or rebuilt from what was
accumulated.  The two are taken for the same only where two walks may differ in this. -/
structure Leaves (site : Site) (p : Bool) (Q : Expr → Expr → Prop) (node : Expr)
    (whole : List Outcome → Expr) (rebuild : FoldState → Expr) : Prop where
  whole_eq : ∀ os, site.residual node os = site.dynamic (whole os)
  rebuild_like : ∀ st st', FoldState.Like Q st st' → (rebuild st).Like Q (rebuild st')
  mixed : p ≠ site.partialFolds → ∀ os st,
    (whole os).Like Q (rebuild st) ∧ (rebuild st).Like Q (whole os)

namespace Walk.Congruence

variable {site : Site} {p : Bool} (C : Congruence site.engine site.partialFolds p)
  {Q : Expr → Expr → Prop} (hQ : Agreeable site.book Q) {node : Expr} {w w' : Expr → Action}
  {es inits : Children} {d : FoldDef Expr} {st : FoldState}

include hQ

/-! ## Steps -/

theorem runConstants (hw : C.AllAlike Q w w' es) :
    C.Rel (· = ·) (FormulaFold.runConstants (es.map (Option.map w)))
      (FormulaFold.runConstants (es.map (Option.map w'))) := by
  induction es with
  | nil => exact C.pure rfl
  | cons e es ih =>
    cases e with
    | none => exact C.pure rfl
    | some e =>
      refine C.bind (hw e mem_cons_self) fun o o' ho => ?_
      refine C.ite (by rw [hQ.isConstant_eq ho]) (fun _ => C.pure rfl) fun hconst => ?_
      rw [ho.eq_of_isConstant (by simpa using hconst)]
      refine C.bind (ih fun e he => hw e (mem_cons_of_mem _ he)) fun _ _ h => ?_
      subst h
      exact C.pure rfl

theorem start? (hw : C.AllAlike Q w w' inits) (folded : Nat) :
    C.Rel (Option.Rel (FoldState.Like Q)) ((planOf w site node d inits).start? folded)
      ((planOf w' (site.withPartialFolds p) node d inits).start? folded) := by
  have hinits : C.Rel (Option.Rel (FoldState.Like Q))
      (FormulaFold.runConstants (inits.map (Option.map w)) >>= fun accs =>
        Pure.pure (accs.map fun accs => FoldState.start (some accs) folded))
      (FormulaFold.runConstants (inits.map (Option.map w')) >>= fun accs =>
        Pure.pure (accs.map fun accs => FoldState.start (some accs) folded)) := by
    refine C.bind (C.runConstants hQ hw) fun accs _ h => ?_
    subst h
    cases accs with
    | none => exact C.pure .none
    | some accs => exact C.pure (.some (.start _ _))
  rcases inits with _ | ⟨_ | init, _ | ⟨second, rest⟩⟩
  · exact hinits
  · exact C.pure (.some (.start _ _))
  · exact hinits
  · exact hinits
  · exact hinits

theorem step? (hw : ∀ e ∈ d.steps, C.Alike Q (w e) (w' e)) (hst : st.Like Q st')
    (elements : List Outcome) (extra : Pairs) :
    C.Rel (Option.Rel (FoldState.Like Q))
      ((planOf w site node d inits).step? st elements extra)
      ((planOf w' (site.withPartialFolds p) node d inits).step? st' elements extra) := by
  unfold FoldPlan.step?
  refine C.ite .rfl (fun _ => C.throw_bind (by trivial) _ _) fun _ => ?_
  rw [hst.accs]
  cases st.accs with
  | none =>
    cases elements with
    | nil => exact C.throw trivial
    | cons o rest => exact C.pure (.some (hst.advance _))
  | some accs =>
    have hsteps (w : Expr → Action) (site : Site) :
        (planOf w site node d inits).d.steps.map some = (d.steps.map some).map (Option.map w) := by
      simp [planOf, Function.comp_def]
    have hscope : (planOf w' (site.withPartialFolds p) node d inits).stepScope st' accs elements
        extra = (planOf w site node d inits).stepScope st accs elements extra := by
      simp only [FoldPlan.stepScope, planOf, FoldDef.map_accumulatorNames,
        FoldDef.map_elementNames, hst.folded]
      rfl
    simp only [hscope, hsteps]
    refine C.bind (C.bindingAll _ _ (C.runConstants hQ fun e he => hw e (by simpa using he)))
      fun next _ h => ?_
    subst h
    cases next with
    | none => exact C.pure .none
    | some accs => exact C.pure (.some (hst.advance accs))

theorem stepOrHold (hw : ∀ e ∈ d.steps, C.Alike Q (w e) (w' e)) (hst : st.Like Q st')
    (elements : List Outcome) (extra : Pairs)
    (hnodes : Forall₂ (Expr.Like Q) nodes nodes') : C.Rel (FoldState.Like Q)
      ((planOf w site node d inits).stepOrHold st elements extra nodes)
      ((planOf w' (site.withPartialFolds p) node d inits).stepOrHold st' elements
        extra nodes') := by
  refine C.bind (C.step? hQ hw hst elements extra) fun r r' hr => ?_
  cases hr with
  | none => exact C.pure (hst.hold _ hnodes)
  | some h => exact C.pure h

theorem foldTuples (hw : ∀ e ∈ d.steps, C.Alike Q (w e) (w' e)) (hst : st.Like Q st')
    (h : Forall₂ (Forall₂ (Outcome.Like Q)) tuples tuples') :
    C.Rel (FoldState.Like Q) ((planOf w site node d inits).foldTuples st tuples)
      ((planOf w' (site.withPartialFolds p) node d inits).foldTuples st' tuples') := by
  induction h generalizing st st' with
  | nil => exact C.pure hst
  | @cons tuple tuple' rest rest' htuple _ ih =>
    rw [foldTuples_cons, foldTuples_cons]
    refine C.bind (R := FoldState.Like Q) ?_ fun _ _ hst => ih hst
    unfold FoldPlan.tupleStep
    refine C.ite (by rw [hst.stopped, all_isKnown_eq htuple])
      (fun _ => C.pure (hst.hold _ (forall₂_map_expr htuple))) fun hheld => ?_
    rw [Bool.or_eq_true, not_or, Bool.not_eq_true', Bool.not_eq_false] at hheld
    obtain rfl := eq_of_forall₂_like_of_isKnown htuple hheld.2
    exact C.stepOrHold hQ hw hst _ _ (forall₂_map_expr htuple)

theorem result (hw : ∀ e ∈ d.parts, C.Alike Q (w e) (w' e)) (hst : st.Like Q st') :
    C.Alike Q ((planOf w site node d inits).result st)
      ((planOf w' (site.withPartialFolds p) node d inits).result st') := by
  have hfinish (merge : Option Expr) (hmerge : d.merge = merge) : C.Alike Q
      (FoldPlan.result.finish (planOf w site node d inits) st st.accs (merge.map w))
      (FoldPlan.result.finish (planOf w' (site.withPartialFolds p) node d inits) st' st'.accs
        (merge.map w')) := by
    rw [hst.accs]
    cases st.accs with
    | none => exact C.pure (hQ.outcome_refl _)
    | some accs =>
      cases merge with
      | none =>
        cases accs with
        | nil => exact C.throw trivial
        | cons => exact C.pure (hQ.outcome_refl _)
      | some merge =>
        simp only [map_some, FoldPlan.result.finish, planOf, hst.folded,
          FoldDef.map_accumulatorNames, FoldDef.map_count]
        exact C.bindingAll _ _ (hw merge (by simp [FoldDef.parts, hmerge]))
  cases hempty : d.whenEmpty with
  | none =>
    simp only [FoldPlan.result, planOf, FoldDef.map_whenEmpty, hempty]
    exact hfinish d.merge rfl
  | some whenEmpty =>
    simp only [FoldPlan.result, planOf, FoldDef.map_whenEmpty, hempty, map_some, hst.folded]
    exact C.ite .rfl (fun _ => hw whenEmpty (by simp [FoldDef.parts, hempty]))
      fun _ => hfinish d.merge rfl

theorem complete (hw : ∀ e ∈ d.parts, C.Alike Q (w e) (w' e)) (hst : st.Like Q st')
    (hleaves : Leaves site p Q node whole rebuild) (hos : Forall₂ (Outcome.Like Q) os os') :
    C.Alike Q ((planOf w site node d inits).complete st (site.residual node os) rebuild)
      ((planOf w' (site.withPartialFolds p) node d inits).complete st' (site.residual node os')
        rebuild) := by
  have hheld : st'.held.length = st.held.length := hst.held.length_eq.symm
  unfold FoldPlan.complete
  refine C.ite (by simp only [List.isEmpty_iff_length_eq_zero, hheld])
    (fun _ => C.result hQ hw hst) fun _ => ?_
  rw [hst.progress, hst.folded, hheld]
  cases hprogress : st.progress with
  | false => exact C.residual hQ hos
  | true =>
    -- What is left is left after the fold was counted, where it is done in part.
    have hleft : C.Alike Q
        (if site.partialFolds then site.dynamic (rebuild st) else site.residual node os)
        (if p then site.dynamic (rebuild st') else site.residual node os') := by
      by_cases hleft : site.partialFolds = true <;> by_cases hright : p = true
      · rw [if_pos hleft, if_pos hright]
        exact C.dynamic hQ (hleaves.rebuild_like st st' hst)
      · rw [if_pos hleft, if_neg hright, hleaves.whole_eq]
        exact C.dynamic hQ (hleaves.mixed (by simp_all) os' st).2
      · rw [if_neg hleft, if_pos hright, hleaves.whole_eq]
        exact C.dynamic hQ (hleaves.mixed (by simp_all) os st').1
      · rw [if_neg hleft, if_neg hright]
        exact C.residual hQ hos
    have hrun (b : Bool) (e : Event) (x y : Action) :
        (modify (WalkState.foldInPart b e) >>= fun _ => if b then x else y) =
          if !(true && b) then y else (do
            Walk.tally fun s => { s with partialFolds := s.partialFolds + 1 }
            Walk.record e
            x) := by
      cases b <;> rfl
    have hdone := C.bind (C.foldInPart (.partialFold node.kind st.folded st.held.length))
      fun _ _ _ => hleft
    rw [hrun, hrun] at hdone
    exact hdone

/-! ## The folds -/

theorem foldElements (hw : ∀ e, e ∈ d.parts ∨ some e ∈ inits ∨ some e ∈ es → C.Alike Q (w e) (w' e))
    (hleaves : Leaves site p Q node whole rebuild) (folded : Nat) : C.Alike Q
      (FormulaFold.foldElements (planOf w site node d inits) folded (es.map (Option.map w)) rebuild)
      (FormulaFold.foldElements (planOf w' (site.withPartialFolds p) node d inits) folded
        (es.map (Option.map w')) rebuild) := by
  unfold FormulaFold.foldElements
  refine C.bind (C.runAll hQ fun e he => hw e (.inr (.inr he))) fun os os' hos => ?_
  refine C.bind (C.start? hQ (fun e he => hw e (.inr (.inl he))) folded) fun st st' hst => ?_
  cases hst with
  | none => exact C.residual hQ hos
  | some hst =>
    refine C.bind
      (C.foldTuples hQ (fun e he => hw e (.inl (FoldDef.mem_parts_of_mem_steps he))) hst ?_)
      fun st st' hst => C.complete hQ (fun e he => hw e (.inl he)) hst hleaves hos
    rw [forall₂_map_left_iff, forall₂_map_right_iff]
    exact (flattenOutcomes_like hQ hos).imp fun _ _ ho => .cons ho .nil

theorem foldWhole? (hw : ∀ e ∈ d.steps, C.Alike Q (w e) (w' e)) (hst : st.Like Q st')
    (h : Forall₂ (Outcome.Like Q) os os') : C.Rel (Option.Rel (FoldState.Like Q))
      (FormulaFold.foldWhole? (planOf w site node d inits) st os)
      (FormulaFold.foldWhole? (planOf w' (site.withPartialFolds p) node d inits) st' os') := by
  induction h generalizing st st' with
  | nil => exact C.pure (.some hst)
  | cons ho _ ih =>
    unfold FormulaFold.foldWhole?
    refine C.ite (by rw [ho.isKnown_eq]) (fun _ => C.pure .none) fun hknown => ?_
    rw [ho.below.eq_of_isKnown (by simpa using hknown)]
    refine C.bind (C.step? hQ hw hst _ _) fun r r' hr => ?_
    cases hr with
    | none => exact C.pure .none
    | some hst => exact ih hst

theorem foldArrayForm
    (hw : ∀ e, e ∈ d.parts ∨ some e ∈ inits ∨ array = some e → C.Alike Q (w e) (w' e)) :
    C.Alike Q (FormulaFold.foldArrayForm (planOf w site node d inits) (array.map w))
      (FormulaFold.foldArrayForm (planOf w' (site.withPartialFolds p) node d inits)
        (array.map w')) := by
  have harray : C.Rel (Forall₂ (Outcome.Like Q))
      (FormulaFold.runAll ([array].map (Option.map w)))
      (FormulaFold.runAll ([array].map (Option.map w'))) :=
    C.runAll hQ fun e he => hw e (.inr (.inr (mem_singleton.mp he).symm))
  unfold FormulaFold.foldArrayForm
  refine C.bind harray fun os os' hos => ?_
  have hwhole : C.Alike Q (site.residual node os) (site.residual node os') := C.residual hQ hos
  have helements := arrayElements?_like hQ (hQ.headD_like hos)
  dsimp only
  generalize arrayElements? (os.headD .blank) = r at helements ⊢
  generalize arrayElements? (os'.headD .blank) = r' at helements ⊢
  cases helements with
  | none => exact hwhole
  | some helements =>
    refine C.bind (C.start? hQ (fun e he => hw e (.inr (.inl he))) 0) fun st st' hst => ?_
    cases hst with
    | none => exact hwhole
    | some hst =>
      refine C.bind (C.foldWhole? hQ
        (fun e he => hw e (.inl (FoldDef.mem_parts_of_mem_steps he))) hst helements)
        fun st st' hst => ?_
      cases hst with
      | none => exact hwhole
      | some hst => exact C.result hQ (fun e he => hw e (.inl he)) hst

theorem foldVectorsForm
    (hw : ∀ e, e ∈ d.parts ∨ some e ∈ inits ∨ some e ∈ es → C.Alike Q (w e) (w' e))
    {rebuild : FoldState → List Expr → Expr}
    (hleaves : ∀ n, Leaves site p Q node whole fun st =>
      rebuild st ((columnsOf n st.held).map Expr.vector))
    (folded : Nat) : C.Alike Q
      (FormulaFold.foldVectorsForm (planOf w site node d inits) folded (es.map (Option.map w))
        rebuild)
      (FormulaFold.foldVectorsForm (planOf w' (site.withPartialFolds p) node d inits) folded
        (es.map (Option.map w')) rebuild) := by
  unfold FormulaFold.foldVectorsForm
  refine C.bind (C.runAll hQ fun e he => hw e (.inr (.inr he))) fun os os' hos => ?_
  have hwhole : C.Alike Q (site.residual node os) (site.residual node os') := C.residual hQ hos
  rw [← hos.length_eq]
  refine C.ite (by
    simp only [List.isEmpty_iff_length_eq_zero, hos.length_eq, planOf, FoldDef.map_elementNames])
    (fun _ => C.throw_bind (by trivial) _ _) fun _ => ?_
  rcases vectorElements?_like hQ hos none 1 with
    ⟨hn, hn'⟩ | ⟨m, hm, hm'⟩ | ⟨vs, vs', hvs, hvs', hlike⟩
  · simp only [hn, hn']
    exact hwhole
  · simp only [hm, hm']
    exact C.throw trivial
  · simp only [hvs, hvs']
    refine C.bind (C.start? hQ (fun e he => hw e (.inr (.inl he))) folded) fun st st' hst => ?_
    cases hst with
    | none => exact hwhole
    | some hst =>
      have hfirst : (vs'.headD []).length = (vs.headD []).length := by
        cases hlike with
        | nil => rfl
        | cons h _ => exact h.length_eq.symm
      rw [hfirst, ← hlike.length_eq]
      exact C.bind (C.foldTuples hQ
        (fun e he => hw e (.inl (FoldDef.mem_parts_of_mem_steps he))) hst
        (forall₂_columnsOf hlike _)) fun st st' hst =>
        C.complete hQ (fun e he => hw e (.inl he)) hst (hleaves vs.length) hos

omit hQ in
theorem passes? (hw : ∀ e, filter = some e → C.Alike Q (w e) (w' e)) (row : List Outcome) :
    C.Rel (· = ·) (TablePlan.passes? ⟨columns, filter.map w, column⟩ row)
      (TablePlan.passes? ⟨columns, filter.map w', column⟩ row) := by
  unfold TablePlan.passes?
  cases filter with
  | none => exact C.pure rfl
  | some filter =>
    refine C.bind (C.bindingAll _ _ (hw filter rfl)) fun o o' ho => ?_
    cases o with
    | residual e =>
      obtain ⟨e', rfl, _⟩ := ho
      exact C.pure rfl
    | known v t =>
      cases ho
      dsimp only
      split
      · exact C.pure rfl
      · exact C.ite .rfl (fun _ => C.pure rfl) fun hf => C.throw_toBool ‹_› hf

theorem foldRows (hw : ∀ e, e ∈ d.parts ∨ filter = some e → C.Alike Q (w e) (w' e))
    (hst : st.Like Q st') (h : Forall₂ (Forall₂ (Outcome.Like Q)) rows rows') :
    C.Rel (FoldState.Like Q)
      (FormulaFold.foldRows (planOf w site node d inits) ⟨columns, filter.map w, column⟩ st rows)
      (FormulaFold.foldRows (planOf w' (site.withPartialFolds p) node d inits)
        ⟨columns, filter.map w', column⟩ st' rows') := by
  induction h generalizing st st' with
  | nil => exact C.pure hst
  | @cons row row' rest rest' hrow _ ih =>
    rw [foldRows_cons, foldRows_cons]
    refine C.bind (R := FoldState.Like Q) ?_ fun _ _ hst => ih hst
    have hheld : (st.hold (planOf w site node d inits).d.orderSensitive (row.map (·.expr))).Like Q
        (st'.hold (planOf w' (site.withPartialFolds p) node d inits).d.orderSensitive
          (row'.map (·.expr))) := hst.hold _ (forall₂_map_expr hrow)
    unfold rowStep
    refine C.ite (by rw [hst.stopped, all_isKnown_eq hrow]) (fun _ => C.pure hheld)
      fun hknown => ?_
    rw [Bool.or_eq_true, not_or, Bool.not_eq_true', Bool.not_eq_false] at hknown
    obtain rfl := eq_of_forall₂_like_of_isKnown hrow hknown.2
    refine C.bind (C.passes? (fun e he => hw e (.inr he)) _) fun r _ hr => ?_
    subst hr
    rcases r with _ | _ | _
    · exact C.pure hheld
    · exact C.pure hst.skip
    · exact C.stepOrHold hQ (fun e he => hw e (.inl (FoldDef.mem_parts_of_mem_steps he))) hst _ _
        (forall₂_map_expr hrow)

theorem foldTableForm (hw : ∀ e, e ∈ d.parts ∨ some e ∈ inits ∨ filter = some e ∨ table = some e →
      C.Alike Q (w e) (w' e))
    {rebuild : FoldState → Expr → Expr}
    (hleaves : ∀ cols, Leaves site p Q node whole fun st =>
      rebuild st (.range st.held.length cols ((st.held.flatten).map some)))
    (folded : Nat) : C.Alike Q
      (FormulaFold.foldTableForm (planOf w site node d inits) folded
        ⟨columns, filter.map w, column⟩ (table.map w) rebuild)
      (FormulaFold.foldTableForm (planOf w' (site.withPartialFolds p) node d inits) folded
        ⟨columns, filter.map w', column⟩ (table.map w') rebuild) := by
  have htable : C.Rel (Forall₂ (Outcome.Like Q))
      (FormulaFold.runAll ([table].map (Option.map w)))
      (FormulaFold.runAll ([table].map (Option.map w'))) :=
    C.runAll hQ fun e he => hw e (.inr (.inr (.inr (mem_singleton.mp he).symm)))
  rw [foldTableForm_eq, foldTableForm_eq]
  refine C.bind htable fun os os' hos => ?_
  unfold FoldPlan.foldTabled
  have hwhole : C.Alike Q (site.residual node os) (site.residual node os') := C.residual hQ hos
  have hhead := hQ.headD_like hos
  generalize os.headD .blank = o at hhead ⊢
  generalize os'.headD .blank = o' at hhead ⊢
  cases o with
  | known v t =>
    cases hhead
    exact hwhole
  | residual e =>
    obtain ⟨e', rfl, he⟩ := hhead
    cases e with
    | range rows cols elements =>
      obtain ⟨elements', rfl, helements⟩ := he
      have helements := Expr.allLike_iff.mp helements
      dsimp only
      unfold foldRange
      rw [← helements.length_eq]
      refine C.ite .rfl (fun _ => C.throw_bind (by trivial) _ _) fun _ => ?_
      refine C.ite .rfl (fun _ => C.throw_bind (by trivial) _ _) fun _ => ?_
      refine C.bind (C.start? hQ (fun e he => hw e (.inr (.inl he))) folded) fun st st' hst => ?_
      cases hst with
      | none => exact hwhole
      | some hst =>
        refine C.ite .rfl (fun _ => C.throw_bind (by trivial) _ _) fun _ => ?_
        have hrows := forall₂_rowsOf cols.toNat elements.length (hQ.forall₂_ofChild helements)
        refine C.bind (C.foldRows hQ (fun e he => hw e (he.imp_right fun h => .inr (.inl h))) hst
          (List.forall₂_take rows.toNat hrows)) fun st st' hst => ?_
        rw [← hrows.length_eq]
        refine C.ite .rfl (fun _ => C.throw_bind (Fault.isOwn_outsideArray _ _) _ _) fun _ => ?_
        exact C.complete hQ (fun e he => hw e (.inl he)) hst (hleaves cols) hos
    | constant v t =>
      rw [show e' = .constant v t from he]
      exact hwhole
    | splice elements =>
      obtain ⟨elements', rfl, _⟩ := he
      exact hwhole
    | _ =>
      have hopen := hQ.isOpen_eq he
      cases e' <;> simp [Expr.isOpen] at hopen <;> exact hwhole

end Walk.Congruence

end FormulaFold
