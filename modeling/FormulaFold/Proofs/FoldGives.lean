import FormulaFold.Proofs.FormGives

/-! # What the folds give

A fold is taken apart into its first values, its steps and its result.  `R b e o` stands for "the
walk of `e` under the names `b` gives `o`".
-/
namespace FormulaFold

open Walk Walk.Contract

variable {rebuild : FoldState → Expr} {folded : Nat} {α ξ σ : Type}

/-- The plan of a fold whose formulas are walked by `w`. -/
def planOf (w : Expr → Action) (site : Site) (node : Expr) (d : FoldDef Expr)
    (inits : Children) : FoldPlan :=
  ⟨site, node, d.map w, inits.map (Option.map w)⟩

namespace FoldDef

variable {ε : Type} (d : FoldDef ε)

/-- The position of the next element, if it has a name. -/
def positionPair (folded : Nat) : List (String × Outcome) :=
  if d.index = "" then []
  else [(d.index, .constant (.number (Float.ofNat (folded + 1))) .numeric)]

/-- What the names stand for in the steps of a fold. -/
def stepPairs (folded : Nat) (accs elements : List Outcome) (extra : Pairs) :
    List (String × Outcome) :=
  d.accumulatorNames.zip accs ++ (d.elementNames.zip elements ++ (d.positionPair folded ++ extra))

/-- What the names stand for in the merge of a fold. -/
def mergePairs (folded : Nat) (accs : List Outcome) : List (String × Outcome) :=
  d.accumulatorNames.zip accs ++
    (if d.count = "" then []
    else [(d.count, .constant (.number (Float.ofNat folded)) .numeric)])

end FoldDef

/-- What walks give whose outcomes all have to be constant. -/
inductive ConstantsGive (R : Giving) :
    List (Option Expr) → Option (List Outcome) → Prop
  | nil : ConstantsGive R [] (some [])
  | missing {rest : Children} : ConstantsGive R (none :: rest) none
  | left {e : Expr} {o : Outcome} {rest : Children} (ho : R e o)
      (hconst : o.isConstant = false) : ConstantsGive R (some e :: rest) none
  | cons {e : Expr} {o : Outcome} {rest : Children} {r : Option (List Outcome)}
      (ho : R e o) (hconst : o.isConstant = true) (hrest : ConstantsGive R rest r) :
      ConstantsGive R (some e :: rest) (r.map (o :: ·))

/-- What the first values of a fold give. -/
inductive StartGives (R : Giving) (inits : Children) (folded : Nat) :
    Option FoldState → Prop
  | first (hinits : inits = [none]) : StartGives R inits folded (some (.start none folded))
  | inits {r : Option (List Outcome)} (hinits : inits ≠ [none]) (hr : ConstantsGive R inits r) :
      StartGives R inits folded (r.map fun accs => .start (some accs) folded)

/-- What folding one element gives; `none` when a step is not constant. -/
inductive StepGives (R : Bindings → Giving) (b : Bindings) (d : FoldDef Expr)
    (st : FoldState) (elements : List Outcome) (extra : Pairs) :
    Option FoldState → Prop
  | first {o : Outcome} {rest : List Outcome} (haccs : st.accs = none)
      (hlen : elements.length = d.elementNames.length) (helements : elements = o :: rest) :
      StepGives R b d st elements extra (some (st.advance [o]))
  | next {accs : List Outcome} {r : Option (List Outcome)} (haccs : st.accs = some accs)
      (hlen : elements.length = d.elementNames.length)
      (hnames : d.accumulatorNames.length = accs.length)
      (hr : ConstantsGive (R (b.pushAll (d.stepPairs st.folded accs elements extra)))
        (d.steps.map some) r) :
      StepGives R b d st elements extra (r.map st.advance)

/-- What folding, filtering out or holding one item gives, be it a tuple of elements or a row of a
table.  `pass` holds of what its filter comes to; the steps see `elements` and `extra`. -/
inductive ItemGives (R : Bindings → Giving) (b : Bindings) (d : FoldDef Expr)
    (pass : Option Bool → Prop) (elements : List Outcome) (extra : Pairs)
    (st : FoldState) (item : List Outcome) : FoldState → Prop
  | held (hheld : (st.stopped || !item.all (·.isKnown)) = true) :
      ItemGives R b d pass elements extra st item (st.hold d.orderSensitive (item.map (·.expr)))
  | undecided (hheld : (st.stopped || !item.all (·.isKnown)) = false) (hpass : pass none) :
      ItemGives R b d pass elements extra st item (st.hold d.orderSensitive (item.map (·.expr)))
  | dropped (hheld : (st.stopped || !item.all (·.isKnown)) = false) (hpass : pass (some false)) :
      ItemGives R b d pass elements extra st item { st with progress := true }
  | tried {r : Option FoldState} (hheld : (st.stopped || !item.all (·.isKnown)) = false)
      (hpass : pass (some true)) (hr : StepGives R b d st elements extra r) :
      ItemGives R b d pass elements extra st item
        (r.getD (st.hold d.orderSensitive (item.map (·.expr))))

/-- The states that one step after the other leads to. -/
inductive Folds {σ ξ : Type} (step : σ → ξ → σ → Prop) : σ → List ξ → σ → Prop
  | nil {st : σ} : Folds step st [] st
  | cons {st st' st'' : σ} {x : ξ} {xs : List ξ} (hx : step st x st')
      (hxs : Folds step st' xs st'') : Folds step st (x :: xs) st''

/-- A property of the states that every step keeps holds at the end, and may be used on the way. -/
theorem Folds.imp_keeping {step step' : σ → ξ → σ → Prop} {P : σ → Prop} (h : Folds step st xs st')
    (hstep : ∀ st x st', x ∈ xs → P st → step st x st' → step' st x st' ∧ P st') (hst : P st) :
    Folds step' st xs st' ∧ P st' := by
  induction h with
  | nil => exact ⟨.nil, hst⟩
  | cons hx _ ih =>
    obtain ⟨hx, hst⟩ := hstep _ _ _ mem_cons_self hst hx
    obtain ⟨hxs, hst'⟩ := ih (fun st x st' hx => hstep st x st' (mem_cons_of_mem _ hx)) hst
    exact ⟨.cons hx hxs, hst'⟩

theorem Folds.imp {step step' : σ → ξ → σ → Prop}
    (hstep : ∀ st x st', x ∈ xs → step st x st' → step' st x st') (h : Folds step st xs st') :
    Folds step' st xs st' :=
  (h.imp_keeping (P := fun _ => True) (fun _ _ _ hx _ h => ⟨hstep _ _ _ hx h, trivial⟩) trivial).1

theorem Folds.keeps {step : σ → ξ → σ → Prop} {P : σ → Prop}
    (h : Folds step st xs st') (hstep : ∀ st x st', x ∈ xs → P st → step st x st' → P st')
    (hst : P st) : P st' :=
  (h.imp_keeping (fun _ _ _ hx hst h => ⟨h, hstep _ _ _ hx hst h⟩) hst).2

/-- What folding or holding one tuple gives. -/
abbrev TupleGives (R : Bindings → Giving) (b : Bindings) (d : FoldDef Expr)
    (st : FoldState) (tuple : List Outcome) : FoldState → Prop :=
  ItemGives R b d (· = some true) tuple [] st tuple

/-- What folding or holding tuples one after the other gives. -/
abbrev TuplesGive (R : Bindings → Giving) (b : Bindings) (d : FoldDef Expr) :
    FoldState → List (List Outcome) → FoldState → Prop :=
  Folds (TupleGives R b d)

/-- What the end of a fold gives. -/
inductive ResultGives (R : Bindings → Giving) (b : Bindings) (d : FoldDef Expr)
    (st : FoldState) : Outcome → Prop
  | whenEmpty {e : Expr} {o : Outcome} (he : d.whenEmpty = some e) (hfolded : st.folded = 0)
      (ho : R b e o) : ResultGives R b d st o
  | blank (hsome : d.whenEmpty.isSome → st.folded ≠ 0) (haccs : st.accs = none) :
      ResultGives R b d st .blank
  | first {o : Outcome} {accs : List Outcome} (hsome : d.whenEmpty.isSome → st.folded ≠ 0)
      (haccs : st.accs = some (o :: accs)) (hmerge : d.merge = none) : ResultGives R b d st o
  | merged {accs : List Outcome} {e : Expr} {o : Outcome}
      (hsome : d.whenEmpty.isSome → st.folded ≠ 0) (haccs : st.accs = some accs)
      (hmerge : d.merge = some e) (hnames : d.accumulatorNames.length = accs.length)
      (ho : R (b.pushAll (d.mergePairs st.folded accs)) e o) : ResultGives R b d st o

/-- What a fold gives after its elements; `whole` is the fold left to the run. -/
inductive CompleteGives (R : Bindings → Giving) (b : Bindings) (d : FoldDef Expr)
    (partialFolds : Bool) (st : FoldState) (whole : Outcome → Prop) (rebuild : FoldState → Expr) :
    Outcome → Prop
  | result {o : Outcome} (hheld : st.held = []) (ho : ResultGives R b d st o) :
      CompleteGives R b d partialFolds st whole rebuild o
  | whole {o : Outcome} (hheld : st.held ≠ [])
      (hprogress : (!st.progress || !partialFolds) = true) (ho : whole o) :
      CompleteGives R b d partialFolds st whole rebuild o
  | rebuilt (hheld : st.held ≠ []) (hprogress : (!st.progress || !partialFolds) = false) :
      CompleteGives R b d partialFolds st whole rebuild (.ofExpr (rebuild st))

/-- What the walks that a fold is made of give under the names that the fold binds for them. -/
structure Walk.Contract.Folds {book : Workbook} {E : Memo → Prop} {bound : Prop}
    (J : Contract book E bound) (w : Expr → Action) (R : Bindings → Giving)
    (b : Bindings) (d : FoldDef Expr) (inits : Children) (columns : List String) :
    Prop where
  inits : ∀ x, some x ∈ inits → J.Holds True b (w x) (R b x)
  steps : ∀ x ∈ d.steps, ∀ pairs, pairs.map (·.1) = d.stepNames columns →
    J.Holds True (b.pushAll pairs) (w x) (R (b.pushAll pairs) x)
  merge : ∀ x, d.merge = some x → ∀ pairs, pairs.map (·.1) = d.mergeNames →
    J.Holds True (b.pushAll pairs) (w x) (R (b.pushAll pairs) x)
  whenEmpty : ∀ x, d.whenEmpty = some x → J.Holds True b (w x) (R b x)

section Parts

variable {E : Memo → Prop} {bound : Prop} {J : Contract book E bound} {A : Prop} {b : Bindings}
  {site : Site} {w : Expr → Action} {node : Expr} {d : FoldDef Expr} {inits : Children}
  {columns : List String} {R : Bindings → Giving} {st : FoldState}

theorem holds_runConstants {R : Giving} (hw : ∀ x, some x ∈ es → J.Holds True b (w x) (R x)) :
    J.Holds A b (runConstants (es.map (Option.map w))) (ConstantsGive R es) := by
  induction es generalizing A with
  | nil => exact holds_pure fun _ => .nil
  | cons e es ih =>
    cases e with
    | none => exact holds_pure fun _ => .missing
    | some e =>
      refine (hw e mem_cons_self).any.bind fun o => holds_ite (fun ho => ?_) fun ho => ?_
      · exact holds_pure fun h => .left h.2 (by simpa using ho)
      · refine (ih fun x hx => hw x (mem_cons_of_mem _ hx)).bind fun r => ?_
        exact holds_pure fun h => .cons h.1.2 (by simpa using ho) h.2

theorem start?_of_ne (hinits : inits ≠ [none]) (folded : Nat) :
    (planOf w site node d inits).start? folded =
      runConstants (inits.map (Option.map w)) >>= fun accs =>
        pure (accs.map fun accs => .start (some accs) folded) := by
  unfold FoldPlan.start? planOf
  dsimp only
  split
  · rename_i hnone
    refine absurd ?_ hinits
    simp only [map_eq_cons_iff, map_eq_nil_iff, map_eq_none_iff] at hnone
    obtain ⟨_, _, rfl, rfl, rfl⟩ := hnone
    rfl
  · rfl

theorem holds_start? (hw : J.Folds w R b d inits columns) (folded : Nat) :
    J.Holds A b ((planOf w site node d inits).start? folded) (StartGives (R b) inits folded) := by
  by_cases hinits : inits = [none]
  · subst hinits
    exact holds_pure fun _ => .first rfl
  · rw [start?_of_ne hinits]
    exact (holds_runConstants hw.inits).bind fun r => holds_pure fun h => .inits hinits h.2

/-! ## Steps -/

theorem stepScope_names (plan : FoldPlan) (st : FoldState) (accs elements : List Outcome)
    (extra : Pairs) :
    (plan.stepScope st accs elements extra).1 = plan.d.stepNames (extra.map (·.1)) := by
  unfold FoldPlan.stepScope FoldDef.stepNames
  dsimp only
  split <;> simp

theorem stepScope_zip (st : FoldState) (accs elements : List Outcome)
    (extra : Pairs) (hlen : elements.length = d.elementNames.length)
    (hscope : ((planOf w site node d inits).stepScope st accs elements extra).1.length =
      ((planOf w site node d inits).stepScope st accs elements extra).2.length) :
    d.accumulatorNames.length = accs.length ∧
      ((planOf w site node d inits).stepScope st accs elements extra).1.zip
        ((planOf w site node d inits).stepScope st accs elements extra).2 =
        d.stepPairs st.folded accs elements extra := by
  simp only [FoldPlan.stepScope, planOf, FoldDef.map_accumulatorNames, FoldDef.map_elementNames,
    length_append, length_map] at hscope
  have hnames : d.accumulatorNames.length = accs.length := by omega
  refine ⟨hnames, ?_⟩
  simp only [FoldPlan.stepScope, planOf, FoldDef.map_accumulatorNames, FoldDef.map_elementNames,
    List.append_assoc]
  rw [List.zip_append hnames, List.zip_append hlen.symm]
  unfold FoldDef.stepPairs FoldDef.positionPair
  congr 2
  exact (List.zip_of_prod rfl rfl).symm

theorem holds_steps (hw : J.Folds w R b d inits columns)
    (hlen : elements.length = d.elementNames.length) (hcolumns : extra.map (·.1) = columns) :
    J.Holds A b
      (bindingAll ((planOf w site node d inits).stepScope st accs elements extra).1
        ((planOf w site node d inits).stepScope st accs elements extra).2
        (runConstants ((planOf w site node d inits).d.steps.map some))) fun r =>
      d.accumulatorNames.length = accs.length ∧
        ConstantsGive (R (b.pushAll (d.stepPairs st.folded accs elements extra)))
          (d.steps.map some) r := by
  refine (holds_bindingAll fun hscope => ?_).imp fun r _ ⟨hscope, hr⟩ =>
    ⟨(stepScope_zip st accs elements extra hlen hscope).1, hr⟩
  obtain ⟨_, hzip⟩ := stepScope_zip st accs elements extra hlen hscope
  have hnames := congrArg (List.map (·.1)) hzip
  rw [map_fst_zip (Nat.le_of_eq hscope), stepScope_names, hcolumns] at hnames
  have hsteps : (planOf w site node d inits).d.steps.map some =
      (d.steps.map some).map (Option.map w) := by simp [planOf, Function.comp_def]
  rw [hzip, hsteps]
  refine holds_runConstants fun x hx => hw.steps x (by simpa using hx) _ ?_
  rw [← hnames, planOf, FoldDef.map_stepNames]

theorem holds_step? (hw : J.Folds w R b d inits columns) (hcolumns : extra.map (·.1) = columns) :
    J.Holds A b ((planOf w site node d inits).step? st elements extra)
      (StepGives R b d st elements extra) := by
  refine holds_ite (fun _ => holds_raise_bind rfl) fun hlen => ?_
  have hlen : elements.length = d.elementNames.length := not_not.mp hlen
  cases haccs : st.accs with
  | none =>
    cases elements with
    | nil => exact holds_raise rfl
    | cons o rest => exact holds_pure fun _ => .first haccs hlen rfl
  | some accs =>
    exact Holds.bind (holds_steps hw hlen hcolumns) fun r =>
      holds_pure fun h => .next haccs hlen h.2.1 h.2.2

/-- Fold one tuple or hold it. -/
def FoldPlan.tupleStep (plan : FoldPlan) (st : FoldState) (tuple : List Outcome) : Walk FoldState :=
  if st.stopped || !tuple.all (·.isKnown) then
    pure (st.hold plan.d.orderSensitive (tuple.map (·.expr)))
  else plan.stepOrHold st tuple [] (tuple.map (·.expr))

theorem foldTuples_cons (plan : FoldPlan) (st : FoldState) (tuple : List Outcome)
    (rest : List (List Outcome)) : plan.foldTuples st (tuple :: rest) =
      plan.tupleStep st tuple >>= fun st => plan.foldTuples st rest := by
  rw [FoldPlan.foldTuples, FoldPlan.tupleStep]
  split <;> rfl

theorem holds_tupleStep (hw : J.Folds w R b d inits []) {tuple : List Outcome} :
    J.Holds A b ((planOf w site node d inits).tupleStep st tuple) (TupleGives R b d st tuple) := by
  refine holds_ite (fun hheld => holds_pure fun h => .held hheld) fun hheld => ?_
  refine (holds_step? hw rfl).bind fun r => holds_pure fun h => ?_
  exact .tried (eq_false_of_ne_true hheld) rfl h.2

theorem holds_foldTuples (hw : J.Folds w R b d inits []) :
    J.Holds A b ((planOf w site node d inits).foldTuples st tuples)
      (TuplesGive R b d st tuples) := by
  induction tuples generalizing A st with
  | nil => exact holds_pure fun _ => .nil
  | cons tuple rest ih =>
    rw [foldTuples_cons]
    exact (holds_tupleStep hw).bind fun st' => ih.imp fun _ h h' => .cons h.2 h'

/-- What the merge of a fold knows beside the accumulators. -/
def FoldDef.totalPair (d : FoldDef Expr) (folded : Nat) : List (String × Outcome) :=
  if d.count = "" then []
  else [(d.count, .constant (.number (Float.ofNat folded)) .numeric)]

theorem mergePairs_zip (folded : Nat) {accs : List Outcome}
    (hlen : (d.accumulatorNames ++ (d.totalPair folded).map (·.1)).length =
      (accs ++ (d.totalPair folded).map (·.2)).length) :
    d.accumulatorNames.length = accs.length ∧
      (d.accumulatorNames ++ (d.totalPair folded).map (·.1)).zip
        (accs ++ (d.totalPair folded).map (·.2)) = d.mergePairs folded accs := by
  simp only [length_append, length_map] at hlen
  have hnames : d.accumulatorNames.length = accs.length := by omega
  rw [List.zip_append hnames]
  exact ⟨hnames, congrArg _ (List.zip_of_prod rfl rfl).symm⟩

theorem holds_merge (hw : J.Folds w R b d inits columns) {e : Expr} (he : d.merge = some e) :
    J.Holds A b (FoldPlan.result.finish (planOf w site node d inits) st (some accs) (some (w e)))
      fun o => d.accumulatorNames.length = accs.length ∧
        R (b.pushAll (d.mergePairs st.folded accs)) e o := by
  have hbind : J.Holds A b (bindingAll (d.accumulatorNames ++ (d.totalPair st.folded).map (·.1))
      (accs ++ (d.totalPair st.folded).map (·.2)) (w e)) _ :=
    holds_bindingAll (Q := R (b.pushAll (d.mergePairs st.folded accs)) e) fun hlen => by
      obtain ⟨_, hzip⟩ := mergePairs_zip st.folded hlen
      have hnames := congrArg (List.map (·.1)) hzip
      rw [map_fst_zip (Nat.le_of_eq hlen)] at hnames
      rw [hzip]
      refine (hw.merge e he _ ?_).any
      rw [← hnames, FoldDef.totalPair, FoldDef.mergeNames]
      split <;> rfl
  have heq : FoldPlan.result.finish (planOf w site node d inits) st (some accs) (some (w e)) =
      bindingAll (d.accumulatorNames ++ (d.totalPair st.folded).map (·.1))
        (accs ++ (d.totalPair st.folded).map (·.2)) (w e) := by
    simp only [FoldPlan.result.finish, planOf, FoldDef.map_accumulatorNames, FoldDef.map_count]
    rfl
  rw [heq]
  exact hbind.imp fun o _ ho => ⟨(mergePairs_zip st.folded ho.1).1, ho.2⟩

theorem holds_result (hw : J.Folds w R b d inits columns) :
    J.Holds A b ((planOf w site node d inits).result st) (ResultGives R b d st) := by
  have hfinish (hsome : d.whenEmpty.isSome → st.folded ≠ 0) :
      J.Holds A b (FoldPlan.result.finish (planOf w site node d inits) st st.accs
        (d.merge.map w)) (ResultGives R b d st) := by
    cases haccs : st.accs with
    | none => exact holds_pure fun _ => .blank hsome haccs
    | some accs =>
      cases hmerge : d.merge with
      | none =>
        cases accs with
        | nil => exact holds_raise rfl
        | cons => exact holds_pure fun _ => .first hsome haccs hmerge
      | some e =>
        exact (holds_merge hw hmerge).imp fun o _ ho =>
          .merged hsome haccs hmerge ho.1 ho.2
  unfold FoldPlan.result
  cases hempty : d.whenEmpty with
  | none =>
    simp only [planOf, FoldDef.map_whenEmpty, hempty, map_none, FoldDef.map_merge]
    exact hfinish (by simp [hempty])
  | some e =>
    simp only [planOf, FoldDef.map_whenEmpty, hempty, map_some, FoldDef.map_merge]
    refine holds_ite (fun hfolded => ?_) fun hfolded => hfinish fun _ => hfolded
    exact (hw.whenEmpty e hempty).any.imp fun o _ ho => .whenEmpty hempty hfolded ho

theorem holds_complete (hw : J.Folds w R b d inits columns) {whole : Action} {Q : Outcome → Prop}
    (hwhole : J.Holds A b whole Q) :
    J.Holds A b ((planOf w site node d inits).complete st whole rebuild)
      (CompleteGives R b d site.partialFolds st Q rebuild) := by
  refine holds_ite (fun hheld => ?_) fun hheld => holds_ite (fun hprogress => ?_)
    fun hprogress => ?_
  · exact (holds_result hw).imp fun o _ ho => .result (isEmpty_iff.mp hheld) ho
  · exact hwhole.imp fun o _ ho => .whole (hheld ∘ isEmpty_iff.mpr) hprogress ho
  · refine Holds.bind (holds_tally ?_) fun _ => (holds_record _).bind fun _ =>
      holds_dynamic fun _ => ?_
    · exact fun _ => Nat.le_refl _
    · exact .rebuilt (hheld ∘ isEmpty_iff.mpr) (eq_false_of_ne_true hprogress)

/-! ## The folds -/

/-- What a fold over a list of elements gives. -/
inductive ElementsGive (R : Bindings → Giving) (b : Bindings) (d : FoldDef Expr)
    (partialFolds : Bool) (node : Expr) (inits : Children) (folded : Nat)
    (rebuild : FoldState → Expr) (os : List Outcome) : Outcome → Prop
  | notStarted {o : Outcome} (hstart : StartGives (R b) inits folded none)
      (ho : Rebuilt node os o) :
      ElementsGive R b d partialFolds node inits folded rebuild os o
  | folded {st st' : FoldState} {o : Outcome} (hstart : StartGives (R b) inits folded (some st))
      (htuples : TuplesGive R b d st ((flattenOutcomes os).map ([·])) st')
      (ho : CompleteGives R b d partialFolds st' (Rebuilt node os) rebuild o) :
      ElementsGive R b d partialFolds node inits folded rebuild os o

/-- A fold over elements that are walked already. -/
def FoldPlan.foldWalked (plan : FoldPlan) (folded : Nat) (rebuild : FoldState → Expr)
    (os : List Outcome) : Action := do
  let whole := plan.site.residual plan.node os
  let some st ← plan.start? folded | whole
  let st ← plan.foldTuples st ((flattenOutcomes os).map ([·]))
  plan.complete st whole rebuild

theorem holds_foldWalked (hw : J.Folds w R b d inits []) :
    J.Holds A b ((planOf w site node d inits).foldWalked folded rebuild os)
      (ElementsGive R b d site.partialFolds node inits folded rebuild os) := by
  refine (holds_start? hw folded).bind fun r => ?_
  cases r with
  | none => exact holds_residual.imp fun o h ho => .notStarted h.2 ho
  | some st =>
    exact (holds_foldTuples hw).bind fun st' =>
      (holds_complete hw holds_residual).imp fun o h ho => .folded h.1.2 h.2 ho

theorem holds_foldElements (hw : J.Folds w R b d inits [])
    (hes : ∀ x, some x ∈ es → J.Holds True b (w x) (R b x)) :
    J.Holds A b (foldElements (planOf w site node d inits) folded (es.map (Option.map w)) rebuild)
      fun o => ∃ os, Forall₂ (Child (R b)) es os ∧
        ElementsGive R b d site.partialFolds node inits folded rebuild os o := by
  exact (holds_runAll hes).bind fun os =>
    (holds_foldWalked hw).imp fun o h ho => ⟨os, h.2, ho⟩

/-- What folding every element of an array gives; `none` when one of them cannot be folded. -/
inductive WholeGives (R : Bindings → Giving) (b : Bindings) (d : FoldDef Expr) :
    FoldState → List Outcome → Option FoldState → Prop
  | nil {st : FoldState} : WholeGives R b d st [] (some st)
  | unknown {st : FoldState} {o : Outcome} {rest : List Outcome} (ho : o.isKnown = false) :
      WholeGives R b d st (o :: rest) none
  | stuck {st : FoldState} {o : Outcome} {rest : List Outcome} (ho : o.isKnown = true)
      (hstep : StepGives R b d st [o] [] none) : WholeGives R b d st (o :: rest) none
  | cons {st st' : FoldState} {o : Outcome} {rest : List Outcome} {r : Option FoldState}
      (ho : o.isKnown = true) (hstep : StepGives R b d st [o] [] (some st'))
      (hrest : WholeGives R b d st' rest r) : WholeGives R b d st (o :: rest) r

/-- What a fold over one array gives, with the outcome of the array. -/
inductive ArrayGives (R : Bindings → Giving) (b : Bindings) (d : FoldDef Expr)
    (node : Expr) (inits : Children) (a : Outcome) : Outcome → Prop
  | sized {o : Outcome} (ha : arrayElements? a = none) (ho : Rebuilt node [a] o) :
      ArrayGives R b d node inits a o
  | notStarted {elements : List Outcome} {o : Outcome} (ha : arrayElements? a = some elements)
      (hstart : StartGives (R b) inits 0 none) (ho : Rebuilt node [a] o) :
      ArrayGives R b d node inits a o
  | stuck {elements : List Outcome} {st : FoldState} {o : Outcome}
      (ha : arrayElements? a = some elements) (hstart : StartGives (R b) inits 0 (some st))
      (hwhole : WholeGives R b d st elements none) (ho : Rebuilt node [a] o) :
      ArrayGives R b d node inits a o
  | folded {elements : List Outcome} {st st' : FoldState} {o : Outcome}
      (ha : arrayElements? a = some elements) (hstart : StartGives (R b) inits 0 (some st))
      (hwhole : WholeGives R b d st elements (some st')) (ho : ResultGives R b d st' o) :
      ArrayGives R b d node inits a o

theorem holds_foldWhole? (hw : J.Folds w R b d inits []) :
    J.Holds A b (foldWhole? (planOf w site node d inits) st os) (WholeGives R b d st os) := by
  induction os generalizing A st with
  | nil => exact holds_pure fun _ => .nil
  | cons o rest ih =>
    refine holds_ite (fun ho => ?_) fun ho => ?_
    · exact holds_pure fun _ => .unknown (by simpa using ho)
    have ho : o.isKnown = true := by simpa using ho
    refine (holds_step? hw rfl).bind fun next => ?_
    cases next with
    | none => exact holds_pure fun h => .stuck ho h.2
    | some st' => exact ih.imp fun r h hr => .cons ho h.2 hr

/-- The walk of a single child that may be missing. -/
theorem runAll_single_bind (act : Option Action) (k : List Outcome → Walk α) :
    runAll [act] >>= k = runOr .blank act >>= fun o => k [o] := by
  cases act <;> simp [runAll, runOr]

theorem holds_foldArrayForm (hw : J.Folds w R b d inits [])
    (harray : ∀ x, array = some x → J.Holds True b (w x) (R b x)) :
    J.Holds A b (foldArrayForm (planOf w site node d inits) (array.map w)) fun o =>
      ∃ a, Child (R b) array a ∧ ArrayGives R b d node inits a o := by
  unfold foldArrayForm
  rw [runAll_single_bind]
  refine (holds_runOr harray).bind fun a => ?_
  dsimp only [List.headD_cons]
  cases ha : arrayElements? a with
  | none => exact holds_residual.imp fun o h ho => ⟨a, h.2, .sized ha ho⟩
  | some elements =>
    refine (holds_start? hw 0).bind fun r => ?_
    cases r with
    | none => exact holds_residual.imp fun o h ho => ⟨a, h.1.2, .notStarted ha h.2 ho⟩
    | some st =>
      refine (holds_foldWhole? hw).bind fun r => ?_
      cases r with
      | none => exact holds_residual.imp fun o h ho => ⟨a, h.1.1.2, .stuck ha h.1.2 h.2 ho⟩
      | some st' =>
        exact (holds_result hw).imp fun o h ho => ⟨a, h.1.1.2, .folded ha h.1.2 h.2 ho⟩

/-- What a fold over vectors gives, with their outcomes. -/
inductive VectorsGive (R : Bindings → Giving) (b : Bindings) (d : FoldDef Expr)
    (partialFolds : Bool) (node : Expr) (inits : Children) (folded : Nat)
    (rebuild : FoldState → List Expr → Expr) (os : List Outcome) : Outcome → Prop
  | sized {o : Outcome} (hvectors : vectorElements? none 1 os = none) (ho : Rebuilt node os o) :
      VectorsGive R b d partialFolds node inits folded rebuild os o
  | notStarted {vectors : List (List Outcome)} {o : Outcome}
      (hvectors : vectorElements? none 1 os = some (.ok vectors))
      (hstart : StartGives (R b) inits folded none) (ho : Rebuilt node os o) :
      VectorsGive R b d partialFolds node inits folded rebuild os o
  | folded {vectors : List (List Outcome)} {st st' : FoldState} {o : Outcome}
      (hvectors : vectorElements? none 1 os = some (.ok vectors))
      (hstart : StartGives (R b) inits folded (some st))
      (htuples : TuplesGive R b d st (columnsOf (vectors.headD []).length vectors) st')
      (ho : CompleteGives R b d partialFolds st' (Rebuilt node os)
        (fun st => rebuild st ((columnsOf vectors.length st.held).map Expr.vector)) o) :
      VectorsGive R b d partialFolds node inits folded rebuild os o

theorem holds_foldVectorsForm (hw : J.Folds w R b d inits [])
    (hes : ∀ x, some x ∈ es → J.Holds True b (w x) (R b x))
    {rebuild : FoldState → List Expr → Expr} :
    J.Holds A b (foldVectorsForm (planOf w site node d inits) folded
      (es.map (Option.map w)) rebuild) fun o => ∃ os, Forall₂ (Child (R b)) es os ∧ os ≠ [] ∧
        os.length = d.elementNames.length ∧
        VectorsGive R b d site.partialFolds node inits folded rebuild os o := by
  refine (holds_runAll hes).bind fun os => holds_ite (fun _ => holds_raise_bind rfl) fun hlen => ?_
  have hlen : os ≠ [] ∧ os.length = d.elementNames.length := by
    simpa [planOf, isEmpty_iff] using hlen
  dsimp only
  split
  · exact holds_residual.imp fun o h ho => ⟨os, h.2, hlen.1, hlen.2, .sized ‹_› ho⟩
  · exact holds_raise rfl
  · rename_i vectors hvectors
    refine (holds_start? hw folded).bind fun r => ?_
    cases r with
    | none =>
      exact holds_residual.imp fun o h ho =>
        ⟨os, h.1.2, hlen.1, hlen.2, .notStarted hvectors h.2 ho⟩
    | some st =>
      exact (holds_foldTuples hw).bind fun st' =>
        (holds_complete hw holds_residual).imp fun o h ho =>
        ⟨os, h.1.1.2, hlen.1, hlen.2, .folded hvectors h.1.2 h.2 ho⟩

/-! ## Tables -/

/-- The truth of a known outcome, if it has one. -/
def Outcome.truth? : Outcome → Option Bool
  | .known v _ => v.toBool.toOption
  | .residual _ => none

/-- The elements that a row of a table gives to the steps. -/
def FoldDef.rowElements {ε α : Type} (d : FoldDef ε) (column : Int) (row : List α) : List α :=
  if d.elementNames.isEmpty then [] else row[column.toNat]?.toList

theorem FoldDef.mem_of_mem_rowElements {ε : Type} (d : FoldDef ε)
    (h : x ∈ d.rowElements column row) : x ∈ row := by
  unfold rowElements at h
  split at h
  · cases h
  · exact mem_of_getElem? (mem_toList.mp h)

/-- Whether a row passes the filter; `none` when that is left to the run. -/
inductive PassGives (R : Bindings → Giving) (b : Bindings) (columns : List String)
    (filter : Option Expr) (row : List Outcome) : Option Bool → Prop
  | all (hfilter : filter = none) : PassGives R b columns filter row (some true)
  | tested {e : Expr} {o : Outcome} (hfilter : filter = some e)
      (ho : R (b.pushAll (columns.zip row)) e o) : PassGives R b columns filter row o.truth?

/-- What folding, filtering out or holding one row gives. -/
abbrev RowGives (R : Bindings → Giving) (b : Bindings) (d : FoldDef Expr)
    (columns : List String) (filter : Option Expr) (column : Int) (st : FoldState)
    (row : List Outcome) : FoldState → Prop :=
  ItemGives R b d (PassGives R b columns filter row) (d.rowElements column row) (columns.zip row) st
    row

/-- What folding, filtering out or holding rows one after the other gives. -/
abbrev RowsGive (R : Bindings → Giving) (b : Bindings) (d : FoldDef Expr)
    (columns : List String) (filter : Option Expr) (column : Int) :
    FoldState → List (List Outcome) → FoldState → Prop :=
  Folds (RowGives R b d columns filter column)

/-- What a fold of a table gives, with the outcome of the table. -/
inductive TableGives (R : Bindings → Giving) (b : Bindings) (d : FoldDef Expr)
    (partialFolds : Bool) (node : Expr) (inits : Children) (folded : Nat)
    (columns : List String) (filter : Option Expr) (column : Int)
    (rebuild : FoldState → Expr → Expr) (a : Outcome) : Outcome → Prop
  | sized {o : Outcome} (ha : ∀ rows cols elements, a ≠ .residual (.range rows cols elements))
      (ho : Rebuilt node [a] o) :
      TableGives R b d partialFolds node inits folded columns filter column rebuild a o
  | notStarted {rows cols : Int} {elements : Children} {o : Outcome}
      (ha : a = .residual (.range rows cols elements)) (hcols : cols = columns.length)
      (hstart : StartGives (R b) inits folded none) (ho : Rebuilt node [a] o)
      (hcolumn : 0 ≤ column ∧ column < cols) :
      TableGives R b d partialFolds node inits folded columns filter column rebuild a o
  | folded {rows cols : Int} {elements : Children} {st st' : FoldState} {o : Outcome}
      (ha : a = .residual (.range rows cols elements)) (hcols : cols = columns.length)
      (hcolumn : 0 ≤ column ∧ column < cols)
      (hstart : StartGives (R b) inits folded (some st))
      (hsize : (elements.length : Int) = wrap (rows * cols))
      (hall : rows ≤ (rowsOf cols.toNat elements.length (elements.map ofChild)).length)
      (hrows : RowsGive R b d columns filter column st
        ((rowsOf cols.toNat elements.length (elements.map ofChild)).take rows.toNat) st')
      (ho : CompleteGives R b d partialFolds st' (Rebuilt node [a])
        (fun st => rebuild st (.range st.held.length cols ((st.held.flatten).map some))) o) :
      TableGives R b d partialFolds node inits folded columns filter column rebuild a o

/-- Fold one row, filter it out or hold it. -/
def rowStep (plan : FoldPlan) (table : TablePlan) (st : FoldState) (row : List Outcome) :
    Walk FoldState :=
  let held := st.hold plan.d.orderSensitive (row.map (·.expr))
  if st.stopped || !row.all (·.isKnown) then pure held
  else table.passes? row >>= fun
    | none => pure held
    | some false => pure { st with progress := true }
    | some true =>
      plan.stepOrHold st
        (if plan.d.elementNames.isEmpty then [] else row[table.foldColumn.toNat]?.toList)
        (table.columns.zip row) (row.map (·.expr))

theorem foldRows_cons (plan : FoldPlan) (table : TablePlan) (st : FoldState) (row : List Outcome)
    (rest : List (List Outcome)) :
    foldRows plan table st (row :: rest) =
      rowStep plan table st row >>= fun st => foldRows plan table st rest := by
  rw [foldRows, rowStep]
  dsimp only
  split
  · rfl
  · rw [bind_assoc]
    congr 1
    funext passes
    cases passes with
    | none => rfl
    | some passes => cases passes <;> rfl

/-- A fold over the rows of a table that is written out. -/
def foldRange (plan : FoldPlan) (folded : Nat) (table : TablePlan) (whole : Action)
    (rebuild : FoldState → Expr → Expr) (rows cols : Int) (elements : Children) :
    Action := do
  if cols ≠ table.columns.length then
    plan.misuse (.columnCount cols table.columns.length)
  if table.foldColumn < 0 ∨ cols ≤ table.foldColumn then
    plan.misuse (.foldColumn (wrap (table.foldColumn + 1)) cols)
  let some st ← plan.start? folded | whole
  if (elements.length : Int) ≠ wrap (rows * cols) then
    plan.site.complain (.tableSize rows cols elements.length) plan.node
  let all := rowsOf cols.toNat elements.length (elements.map ofChild)
  let st ← foldRows plan table st (all.take rows.toNat)
  if all.length < rows then throw (.failed (.outsideArray elements.length))
  plan.complete st whole fun st =>
    rebuild st (.range st.held.length cols ((st.held.flatten).map some))

/-- A fold over the rows of a table that is walked already. -/
def FoldPlan.foldTabled (plan : FoldPlan) (folded : Nat) (table : TablePlan)
    (rebuild : FoldState → Expr → Expr) (os : List Outcome) : Action :=
  match os.headD .blank with
  | .residual (.range rows cols elements) =>
    foldRange plan folded table (plan.site.residual plan.node os) rebuild rows cols elements
  | _ => plan.site.residual plan.node os

theorem foldTableForm_eq (plan : FoldPlan) (folded : Nat) (table : TablePlan) (act : Option Action)
    (rebuild : FoldState → Expr → Expr) :
    foldTableForm plan folded table act rebuild =
      runAll [act] >>= plan.foldTabled folded table rebuild := rfl

section Tables

variable (hfilter : ∀ e, filter = some e → ∀ pairs, pairs.map (·.1) = columns →
    J.Holds True (b.pushAll pairs) (w e) (R (b.pushAll pairs) e))
include hfilter

theorem holds_passes? :
    J.Holds A b ((⟨columns, filter.map w, column⟩ : TablePlan).passes? row)
      (PassGives R b columns filter row) := by
  cases filter with
  | none => exact holds_pure fun _ => .all rfl
  | some e =>
    have hrun : J.Holds A b (bindingAll columns row (w e)) fun o =>
        columns.length = row.length ∧ R (b.pushAll (columns.zip row)) e o :=
      holds_bindingAll fun hlen => (hfilter e rfl _ (map_fst_zip (Nat.le_of_eq hlen))).any
    have htested (o : Outcome) (ho : columns.length = row.length ∧
        R (b.pushAll (columns.zip row)) e o) : PassGives R b columns (some e) row o.truth? :=
      .tested rfl ho.2
    refine (hrun.imp fun o _ => htested o).bind fun o => ?_
    cases o with
    | residual x => exact holds_pure And.right
    | known v t =>
      unfold Outcome.truth?
      dsimp only
      split
      · rename_i htruth
        rw [htruth]
        exact holds_pure And.right
      · rename_i f htruth
        rw [htruth]
        refine holds_ite (fun _ => holds_pure And.right) fun hexpected => ?_
        exact absurd (failsAsExpected_toBool v f htruth) hexpected

variable (hw : J.Folds w R b d inits columns)
include hw

theorem holds_rowStep (hlen : row.length = columns.length) :
    J.Holds A b (rowStep (planOf w site node d inits) ⟨columns, filter.map w, column⟩ st row)
      (RowGives R b d columns filter column st row) := by
  refine holds_ite (fun hheld => holds_pure fun h => .held hheld) fun hheld => ?_
  have hheld := eq_false_of_ne_true hheld
  refine (holds_passes? hfilter).bind fun pass => ?_
  rcases pass with _ | _ | _
  · exact holds_pure fun h => .undecided hheld h.2
  · exact holds_pure fun h => .dropped hheld h.2
  · exact Holds.bind (holds_step? hw (map_fst_zip (Nat.le_of_eq hlen.symm))) fun r =>
      holds_pure fun h => .tried hheld h.1.2 h.2

theorem holds_foldRows (hlen : ∀ row ∈ rows, row.length = columns.length) :
    J.Holds A b (foldRows (planOf w site node d inits) ⟨columns, filter.map w, column⟩ st rows)
      (RowsGive R b d columns filter column st rows) := by
  induction rows generalizing A st with
  | nil => exact holds_pure fun _ => .nil
  | cons row rest ih =>
    rw [foldRows_cons]
    refine (holds_rowStep hfilter hw (hlen row mem_cons_self)).bind fun st' => ?_
    exact (ih fun row hrow => hlen row (mem_cons_of_mem _ hrow)).imp fun _ h h' => .cons h.2 h'

theorem holds_foldRange {rebuild : FoldState → Expr → Expr} {rows cols : Int}
    {elements : Children} :
    J.Holds A b (foldRange (planOf w site node d inits) folded ⟨columns, filter.map w, column⟩
      (site.residual node [.residual (.range rows cols elements)]) rebuild rows cols elements)
      (TableGives R b d site.partialFolds node inits folded columns filter column rebuild
        (.residual (.range rows cols elements))) := by
  refine holds_ite (fun _ => holds_raise_bind rfl) fun hcols => holds_ite
    (fun _ => holds_raise_bind rfl) fun hcolumn => ?_
  have hcols : cols = columns.length := not_not.mp hcols
  have hcolumn : 0 ≤ column ∧ column < cols := by
    dsimp only at hcolumn
    omega
  refine (holds_start? hw folded).bind fun r => ?_
  cases r with
  | none => exact holds_residual.imp fun o h ho => .notStarted rfl hcols h.2 ho hcolumn
  | some st =>
    refine holds_ite (fun _ => holds_raise_bind rfl) fun hsize => ?_
    have hsize := not_not.mp hsize
    have hlen : ∀ row ∈ (rowsOf cols.toNat elements.length (elements.map ofChild)).take
        rows.toNat, row.length = columns.length := by
      intro row hrow
      rw [length_of_mem_rowsOf (mem_of_mem_take hrow), hcols]
      rfl
    refine (holds_foldRows hfilter hw hlen).bind fun st' =>
      holds_ite (fun hall => holds_raise rfl) fun hall => ?_
    exact (holds_complete hw holds_residual).imp fun o h ho =>
      .folded rfl hcols hcolumn h.1.2 hsize (by omega) h.2 ho

theorem holds_foldTabled {rebuild : FoldState → Expr → Expr} :
    J.Holds A b ((planOf w site node d inits).foldTabled folded ⟨columns, filter.map w, column⟩
      rebuild [a])
      (TableGives R b d site.partialFolds node inits folded columns filter column rebuild a) := by
  unfold FoldPlan.foldTabled
  dsimp only [List.headD_cons]
  split
  · exact holds_foldRange hfilter hw
  · rename_i hne
    exact holds_residual.imp fun o _ ho => .sized hne ho

theorem holds_foldTableForm {table : Option Expr}
    (htable : ∀ x, table = some x → J.Holds True b (w x) (R b x))
    {rebuild : FoldState → Expr → Expr} :
    J.Holds A b (foldTableForm (planOf w site node d inits) folded ⟨columns, filter.map w, column⟩
      (table.map w) rebuild) fun o => ∃ a, Child (R b) table a ∧
        TableGives R b d site.partialFolds node inits folded columns filter column rebuild a o := by
  rw [foldTableForm_eq, runAll_single_bind]
  exact (holds_runOr htable).bind fun a =>
    (holds_foldTabled hfilter hw).imp fun o h ho => ⟨a, h.2, ho⟩

end Tables

end Parts

/-! ## Other relations for the formulas of a fold -/

section Imp

section Starts

variable {R S : Giving}

theorem ConstantsGive.imp (hRS : ∀ e o, some e ∈ es → R e o → S e o)
    (h : ConstantsGive R es r) : ConstantsGive S es r := by
  induction h with
  | nil => exact .nil
  | missing => exact .missing
  | left ho hconst => exact .left (hRS _ _ mem_cons_self ho) hconst
  | cons ho hconst _ ih =>
    exact .cons (hRS _ _ mem_cons_self ho) hconst
      (ih fun e o he => hRS e o (mem_cons_of_mem _ he))

theorem StartGives.imp (hRS : ∀ e o, some e ∈ es → R e o → S e o)
    (h : StartGives R es folded r) : StartGives S es folded r := by
  cases h with
  | first hinits => exact .first hinits
  | inits hinits hr => exact .inits hinits (hr.imp hRS)

end Starts

variable {R S : Bindings → Giving}

theorem PassGives.imp (hfilter : ∀ b e o, filter = some e → R b e o → S b e o)
    (h : PassGives R b columns filter row r) : PassGives S b columns filter row r := by
  cases h with
  | all hnone => exact .all hnone
  | tested he ho => exact .tested he (hfilter _ _ _ he ho)

theorem ResultGives.imp (hRS : ∀ b e o, e ∈ d.parts → R b e o → S b e o)
    (h : ResultGives R b d st o) : ResultGives S b d st o := by
  cases h with
  | whenEmpty he hfolded ho =>
    exact .whenEmpty he hfolded (hRS _ _ _ (by simp [FoldDef.parts, he]) ho)
  | blank hsome haccs => exact .blank hsome haccs
  | first hsome haccs hmerge => exact .first hsome haccs hmerge
  | merged hsome haccs hmerge hnames ho =>
    exact .merged hsome haccs hmerge hnames (hRS _ _ _ (by simp [FoldDef.parts, hmerge]) ho)

variable {d : FoldDef Expr} (hRS : ∀ b e o, e ∈ d.steps → R b e o → S b e o)
include hRS

theorem StepGives.imp (h : StepGives R b d st elements extra r) :
    StepGives S b d st elements extra r := by
  cases h with
  | first haccs hlen helements => exact .first haccs hlen helements
  | next haccs hlen hnames hr =>
    exact .next haccs hlen hnames (hr.imp fun e o he => hRS _ e o (by simpa using he))

theorem ItemGives.imp {pass pass' : Option Bool → Prop} (hpass : ∀ r, pass r → pass' r)
    (h : ItemGives R b d pass elements extra st item st') :
    ItemGives S b d pass' elements extra st item st' := by
  cases h with
  | held hheld => exact .held hheld
  | undecided hheld h => exact .undecided hheld (hpass _ h)
  | dropped hheld h => exact .dropped hheld (hpass _ h)
  | tried hheld h hr => exact .tried hheld (hpass _ h) (hr.imp hRS)

theorem TuplesGive.imp (h : TuplesGive R b d st tuples st') : TuplesGive S b d st tuples st' :=
  Folds.imp (fun _ _ _ _ h => h.imp hRS fun _ => id) h

theorem WholeGives.imp (h : WholeGives R b d st os r) : WholeGives S b d st os r := by
  induction h with
  | nil => exact .nil
  | unknown ho => exact .unknown ho
  | stuck ho hstep => exact .stuck ho (hstep.imp hRS)
  | cons ho hstep _ ih => exact .cons ho (hstep.imp hRS) ih

theorem RowsGive.imp (hfilter : ∀ b e o, filter = some e → R b e o → S b e o)
    (h : RowsGive R b d columns filter column st rows st') :
    RowsGive S b d columns filter column st rows st' :=
  Folds.imp (fun _ _ _ _ h => h.imp hRS fun _ h => h.imp hfilter) h

end Imp

end FormulaFold
