import FormulaFold.Proofs.Environments
import FormulaFold.Proofs.References

/-! # Relations that runs respect

A run puts the runs of its children together by running one after the other and by stopping at a
fault of its own.  Names are bound in environments, so nothing else is left to respect.  The
environments of the two runs may differ, as may the rows of sections; which of them may be exchanged
for each other is up to the relation (`Run.Congruence.Exchanges`).  **Two runs of one formula are
related by a `Run.Congruence` if they are so at the cells that the formula refers to**
(`Run.Congruence.exchanged`).

A run that is promised that all names are bound does not stop at an unbound one by itself.
-/
namespace FormulaFold

/-- Whether the used parts of a formula refer to cells of a kind only. -/
def Expr.Confined (q : Address → Prop) (e : Expr) : Prop :=
  ∀ a, Relation.ReflTransGen (fun p e => p ∈ e.liveParts) (.cell a) e → q a

namespace Expr

variable {e : Expr} {q : Address → Prop}

theorem confined_iff :
    e.Confined q ↔ (∀ a, e = .cell a → q a) ∧ ∀ p ∈ e.liveParts, p.Confined q := by
  constructor
  · intro h
    refine ⟨?_, fun p hp a ha => h a (ha.tail hp)⟩
    rintro a rfl
    exact h a .refl
  · rintro ⟨hcell, hparts⟩ a ha
    rcases Relation.ReflTransGen.cases_tail ha with heq | ⟨p, hap, hp⟩
    · exact hcell a heq
    · exact hparts p hp a hap

theorem Confined.part (h : e.Confined q) {p : Expr} (hp : p ∈ e.liveParts) : p.Confined q :=
  (confined_iff.mp h).2 p hp

theorem confined_of_mentions (h : ∀ a, e.Mentions a → q a) : e.Confined q :=
  fun a ha => h a (ha.lift id fun _ _ => mem_parts_of_mem_liveParts)

section Counts

variable {inputs inputs' : Inputs} (h : ∀ s, (inputs'.rows s).length = (inputs.rows s).length)
include h

/-- A count depends on the number of rows only. -/
theorem countRun_eq (e : Expr) : e.countRun inputs' = e.countRun inputs := by
  induction e using induction_on_parts with
  | step e ih =>
    have hall (es : Children) (hparts : ∀ x, some x ∈ es → x ∈ e.parts) :
        countRunAll inputs' es = countRunAll inputs es := by
      induction es with
      | nil => rfl
      | cons x rest ihrest =>
        have hrest := ihrest fun y hy => hparts y (mem_cons_of_mem _ hy)
        cases x with
        | none => rw [countRunAll, countRunAll, hrest]
        | some x =>
          rw [countRunAll, countRunAll, hrest, ih x (.part (hparts x mem_cons_self))]
    cases e with
    | subSection s elements => rw [countRun, countRun, hall elements (by simp [parts]), h]
    | range _ _ elements | splice elements =>
      rw [countRun, countRun]
      exact hall elements (by simp [parts])
    | parentSection s inner =>
      cases inner with
      | none => rfl
      | some inner =>
        rw [countRun, countRun]
        exact ih inner (.part (by simp [parts]))
    | _ => simp [countRun]

theorem countRunArgs_eq (args : Children) :
    countRunArgs inputs' args = countRunArgs inputs args := by
  induction args with
  | nil => rfl
  | cons e rest ih =>
    cases e with
    | none => exact ih
    | some e => rw [countRunArgs, countRunArgs, ih, countRun_eq h]

end Counts

end Expr

/-- Whether the fault is one that a form can stop at by itself, not at a cell.  Under the promise
that all names are bound, an unbound name is none. -/
def RunFault.IsOwn (bound : Prop) : RunFault → Prop
  | circular _ | tooDeep => False
  | unbound _ => ¬bound
  | _ => True

namespace Run

/-- A relation between runs that the ways of putting runs together respect. -/
structure Congruence (bound : Prop) where
  Rel : {α : Type} → Run α → Run α → Prop
  pure : ∀ {α : Type} (a : α), Rel (pure a : Run α) (pure a)
  throw : ∀ {α : Type} {f : RunFault}, f.IsOwn bound → Rel (throw f : Run α) (throw f)
  bind : ∀ {α β : Type} {x x' : Run α} {k k' : α → Run β}, Rel x x' → (∀ a, Rel (k a) (k' a)) →
    Rel (x >>= k) (x' >>= k')

end Run

/-- Two ways to run the formulas of a fold are related in what its steps, its merge and its result
for nothing see. -/
structure FoldDef.Related {bound : Prop} (C : Run.Congruence bound) (f f' : Expr → Evaluation)
    (env env' : Env) (columns : List String) (d : FoldDef Expr) : Prop where
  steps : ∀ x ∈ d.steps, ∀ folded accs elements extra, extra.map (·.1) = columns →
    d.accumulatorNames.length = accs.length → d.elementNames.length = elements.length →
    C.Rel (f x (d.stepEnv env folded accs elements extra))
      (f' x (d.stepEnv env' folded accs elements extra))
  merge : ∀ x, d.merge = some x → ∀ folded accs, d.accumulatorNames.length = accs.length →
    C.Rel (f x (d.mergeEnv env folded accs)) (f' x (d.mergeEnv env' folded accs))
  whenEmpty : ∀ x, d.whenEmpty = some x → C.Rel (f x env) (f' x env')

namespace Run.Congruence

variable {bound : Prop} (C : Congruence bound) {α β : Type}

theorem ite {p : Prop} [Decidable p] (hx : C.Rel x x') (hy : C.Rel y y') :
    C.Rel (if p then x else y) (if p then x' else y') := by
  split
  · exact hx
  · exact hy

theorem throw_bind (hf : f.IsOwn bound) (k k' : α → Run β) :
    C.Rel (MonadExcept.throw f >>= k) (MonadExcept.throw f >>= k') := C.throw hf

/-- Which environments may be exchanged for each other: those with `E p env env'`, as far as the
names that satisfy `p` are concerned.  Whether a formula takes other names from outside is asked
only if it is said to be `closed`. -/
structure Exchanges (C : Congruence bound) (closed : Prop) (inputs inputs' : Inputs)
    (E : (String → Bool) → Env → Env → Prop) : Prop where
  imp : ∀ {p q env env'}, E p env env' → (∀ x, q x = true → p x = true) → E q env env'
  set : ∀ {p env env'}, E p env env' → ∀ name y,
    E (binds [name] p) (env.set name y) (env'.set name y)
  outerRow : ∀ {p env env'}, E p env env' → E p env.outerRow env'.outerRow
  origin : ∀ {p env env'}, E p env env' → env'.origin = env.origin
  find? : ∀ {p env env' x}, E p env env' → (closed → p x = true) →
    env'.find? x = env.find? x ∧ (bound → (env.find? x).isSome = true)
  rows : ∀ s, Forall₂ (fun row row' => ∀ {p env env'}, E p env env' →
    E p (env.enterRow row) (env'.enterRow row')) (inputs.rows s) (inputs'.rows s)

namespace Exchanges

variable {C : Congruence bound} {E : (String → Bool) → Env → Env → Prop} {p : String → Bool}
  (hE : Exchanges C closed inputs inputs' E) {env env' : Env}
include hE

theorem setPairs (h : E p env env') (pairs : List (String × Value)) :
    E (binds (pairs.map (·.1)) p) (env.setPairs pairs) (env'.setPairs pairs) := by
  induction pairs generalizing env env' p with
  | nil =>
    refine hE.imp h fun x hx => ?_
    exact (binds_iff.mp hx).resolve_left fun hmem => by cases hmem.2
  | cons pair rest ih =>
    obtain ⟨name, v⟩ := pair
    refine hE.imp (ih (hE.set h name (.one v))) fun x hx => binds_iff.mpr ?_
    rw [binds_iff]
    rcases binds_iff.mp hx with ⟨hne, hmem⟩ | hx
    · rcases mem_cons.mp hmem with rfl | hmem
      · exact .inr (.inl ⟨hne, List.mem_singleton_self _⟩)
      · exact .inl ⟨hne, hmem⟩
    · exact .inr (.inr hx)

theorem stepEnv {d : FoldDef Expr} {extra : List (String × Value)} (h : E p env env')
    (haccs : d.accumulatorNames.length = accs.length)
    (helements : d.elementNames.length = elements.length) :
    E (binds (d.stepNames (extra.map (·.1))) p) (d.stepEnv env folded accs elements extra)
      (d.stepEnv env' folded accs elements extra) := by
  refine hE.imp (hE.setPairs (hE.set (hE.setPairs (hE.setPairs h _) _) d.index _) extra)
    fun x hx => ?_
  rw [map_fst_zip (Nat.le_of_eq haccs), map_fst_zip (Nat.le_of_eq helements)]
  exact FoldDef.binds_stepNames hx

theorem mergeEnv {d : FoldDef Expr} (h : E p env env')
    (haccs : d.accumulatorNames.length = accs.length) :
    E (binds d.mergeNames p) (d.mergeEnv env folded accs) (d.mergeEnv env' folded accs) := by
  refine hE.imp (hE.set (hE.setPairs h _) d.count _) fun x hx => ?_
  rw [map_fst_zip (Nat.le_of_eq haccs)]
  exact FoldDef.binds_mergeNames hx

end Exchanges

/-! ## Children and calls -/

section Forms

variable {ev : Evaluator} {inputs' : Inputs} {env env' : Env} {f f' : Expr → Evaluation}
  {es : Children}

theorem runChild (hf : ∀ x, e = some x → C.Rel (f x env) (f' x env')) :
    C.Rel (FormulaFold.runChild env (e.map f)) (FormulaFold.runChild env' (e.map f')) := by
  cases e with
  | none => exact C.pure _
  | some e => exact hf e rfl

theorem attempt (r : Except Failure α) :
    C.Rel (ev.attempt node r) (Evaluator.attempt ⟨ev.engine, ev.book, inputs'⟩ node r) := by
  cases r with
  | ok a => exact C.pure a
  | error g => exact C.throw trivial

theorem computed (r : Except Failure Value) :
    C.Rel (ev.computed node r) (Evaluator.computed ⟨ev.engine, ev.book, inputs'⟩ node r) :=
  C.bind (C.attempt r) fun _ => C.pure _

theorem truth (fn : String) (y : Yield) :
    C.Rel (ev.truth node fn y) (Evaluator.truth ⟨ev.engine, ev.book, inputs'⟩ node fn y) := by
  unfold Evaluator.truth
  split
  · exact C.bind (C.attempt _) fun _ => C.attempt _
  · exact C.attempt _

section Children

variable (hf : ∀ x, some x ∈ es → C.Rel (f x env) (f' x env'))
include hf

theorem runItems : C.Rel (FormulaFold.runItems env (es.map (Option.map f)))
      (FormulaFold.runItems env' (es.map (Option.map f'))) := by
  induction es with
  | nil => exact C.pure _
  | cons e es ih =>
    refine C.bind (C.runChild fun x hx => hf x (hx ▸ mem_cons_self)) fun y => ?_
    exact C.bind (ih fun x hx => hf x (mem_cons_of_mem _ hx)) fun _ => C.pure _

theorem runSingles :
    C.Rel (FormulaFold.runSingles env (es.map (Option.map f)))
      (FormulaFold.runSingles env' (es.map (Option.map f'))) := by
  induction es with
  | nil => exact C.pure _
  | cons e es ih =>
    refine C.bind (C.runChild fun x hx => hf x (hx ▸ mem_cons_self)) fun y => ?_
    exact C.bind (ih fun x hx => hf x (mem_cons_of_mem _ hx)) fun _ => C.pure _

theorem branch (i : Nat) (y : Yield) :
    C.Rel
      (match es[i]?.join.map f with
        | some branch => branch env
        | none => Pure.pure y)
      (match es[i]?.join.map f' with
        | some branch => branch env'
        | none => Pure.pure y) := by
  cases h : es[i]?.join with
  | none => exact C.pure y
  | some x => exact hf x (mem_of_getElem?_join h)

theorem ifForm :
    C.Rel (ev.ifForm node (es.map (Option.map f)) env)
      (Evaluator.ifForm ⟨ev.engine, ev.book, inputs'⟩ node (es.map (Option.map f')) env') := by
  have hcardinality :
      cardinality (es.map (Option.map f')) = cardinality (es.map (Option.map f)) := by
    simp only [cardinality, trimmed_map, length_map]
  have hget (g : Expr → Evaluation) (i : Nat) :
      (es.map (Option.map g))[i]?.join = es[i]?.join.map g := by
    cases h : es[i]? <;> simp [h]
  unfold Evaluator.ifForm
  simp only [hcardinality, hget]
  refine C.ite (C.computed _) (C.bind (C.runChild fun x hx => hf x (mem_of_getElem?_join hx))
    fun c => C.bind (C.attempt _) fun b => C.ite (C.branch hf 1 _) (C.branch hf 2 _))

theorem boolForm {fn : String} {decisive : Bool}
    :
    C.Rel (ev.boolForm node fn decisive env (es.map (Option.map f)))
      (Evaluator.boolForm ⟨ev.engine, ev.book, inputs'⟩ node fn decisive env'
        (es.map (Option.map f'))) := by
  induction es with
  | nil => exact C.pure _
  | cons e es ih =>
    have hrest := ih fun x hx => hf x (mem_cons_of_mem _ hx)
    cases e with
    | none => exact hrest
    | some e =>
      exact C.bind (hf e mem_cons_self) fun y => C.bind (C.truth fn y) fun b =>
        C.ite (C.pure _) hrest

theorem callForm {fn : String} :
    C.Rel (ev.callForm node fn (es.map (Option.map f)) env)
      (Evaluator.callForm ⟨ev.engine, ev.book, inputs'⟩ node fn (es.map (Option.map f')) env') := by
  unfold Evaluator.callForm
  rw [trimmed_map, trimmed_map]
  exact C.bind (C.runItems fun x hx => hf x (mem_of_mem_trimmed hx)) fun _ => C.computed _

theorem positionForm {fn : String} {position : Address → Int} {args : Children}
    (horigin : env'.origin = env.origin) :
    C.Rel (ev.positionForm node fn position args (es.map (Option.map f)) env)
      (Evaluator.positionForm ⟨ev.engine, ev.book, inputs'⟩ node fn position args
        (es.map (Option.map f')) env') := by
  have hcell : Evaluator.positionCell? args env' = Evaluator.positionCell? args env := by
    unfold Evaluator.positionCell?
    rw [horigin]
  unfold Evaluator.positionForm
  rw [hcell]
  split
  · exact C.pure _
  · exact C.callForm hf

end Children

theorem switchForm {selector otherwise : Option Expr} {cases : List (Case Expr)}
    (hselector : ∀ x, selector = some x → C.Rel (f x env) (f' x env'))
    (hcases : ∀ c ∈ cases, ∀ x, c.branch = some x → C.Rel (f x env) (f' x env'))
    (hotherwise : ∀ x, otherwise = some x → C.Rel (f x env) (f' x env')) :
    C.Rel (Evaluator.switchForm (selector.map f) (cases.map (Case.map f)) (otherwise.map f) env)
      (Evaluator.switchForm (selector.map f') (cases.map (Case.map f')) (otherwise.map f')
        env') := by
  have hfind (g : Expr → Evaluation) (k : Int) : (cases.map (Case.map g)).find? (·.matches k) =
      (cases.find? (·.matches k)).map (Case.map g) := by
    rw [List.find?_map]
    rfl
  refine C.bind (C.runChild hselector) fun y => ?_
  simp only [hfind]
  cases hc : cases.find? (·.matches (y.toInt leastWord)) with
  | none => exact C.runChild hotherwise
  | some c => exact C.runChild (hcases c (List.mem_of_find?_eq_some hc))

theorem rowsForm {rows rows' : List Row}
    (hf : Forall₂ (fun row row' => ∀ x, some x ∈ es →
      C.Rel (f x (env.enterRow row)) (f' x (env'.enterRow row'))) rows rows') :
    C.Rel (Evaluator.rowsForm (es.map (Option.map f)) env rows)
      (Evaluator.rowsForm (es.map (Option.map f')) env' rows') := by
  induction hf with
  | nil => exact C.pure _
  | cons hrow _ ih => exact C.bind (C.runItems hrow) fun _ => C.bind ih fun _ => C.pure _

end Forms

/-! ## Folds -/

section Folds

variable {env env' : Env} {f f' : Expr → Evaluation} {d : FoldDef Expr} {inits es : Children}
  {folded : Nat}

theorem start (hf : ∀ x, some x ∈ inits → C.Rel (f x env) (f' x env')) :
    C.Rel (RunFold.start (inits.map (Option.map f)) folded env)
      (RunFold.start (inits.map (Option.map f')) folded env') := by
  have hinits : C.Rel
      (FormulaFold.runSingles env (inits.map (Option.map f)) >>= fun vs =>
        Pure.pure (⟨some vs, folded⟩ : RunFold))
      (FormulaFold.runSingles env' (inits.map (Option.map f')) >>= fun vs =>
        Pure.pure (⟨some vs, folded⟩ : RunFold)) :=
    C.bind (C.runSingles hf) fun _ => C.pure _
  rcases inits with _ | ⟨_ | init, _ | ⟨second, rest⟩⟩
  · exact hinits
  · exact C.pure _
  · exact hinits
  · exact hinits
  · exact hinits

theorem step (hd : d.Related C f f' env env' columns) (st : RunFold) (elements : List Value)
    {extra : List (String × Value)} (hextra : extra.map (·.1) = columns) :
    C.Rel (st.step (d.map f) env elements extra) (st.step (d.map f') env' elements extra) := by
  have hsteps (g : Expr → Evaluation) : (d.map g).steps.map some =
      (d.steps.map some).map (Option.map g) := by
    simp [Function.comp_def]
  simp only [RunFold.step_eq, FoldDef.map_elementNames, FoldDef.map_accumulatorNames,
    FoldDef.map_stepEnv, hsteps]
  by_cases hlen : elements.length = d.elementNames.length
  · rw [if_neg (not_not.mpr hlen), if_neg (not_not.mpr hlen)]
    cases st.accs with
    | none =>
      cases elements with
      | nil => exact C.throw trivial
      | cons => exact C.pure _
    | some accs =>
      by_cases haccs : d.accumulatorNames.length = accs.length
      · simp only [if_pos haccs]
        refine C.bind (C.runSingles fun x hx => ?_) fun _ => C.pure _
        exact hd.steps x (by simpa using hx) _ _ _ _ hextra haccs hlen.symm
      · simp only [if_neg haccs]
        exact C.throw trivial
  · rw [if_pos hlen, if_pos hlen]
    exact C.throw trivial

theorem steps (hd : d.Related C f f' env env' []) (st : RunFold) (tuples : List (List Value)) :
    C.Rel (st.steps (d.map f) env tuples) (st.steps (d.map f') env' tuples) := by
  induction tuples generalizing st with
  | nil => exact C.pure _
  | cons tuple rest ih => exact C.bind (C.step hd st tuple rfl) ih

theorem result (hd : d.Related C f f' env env' columns) (st : RunFold) :
    C.Rel (st.result (d.map f) env) (st.result (d.map f') env') := by
  have hfinish : C.Rel (RunFold.result.finish (d.map f) env st)
      (RunFold.result.finish (d.map f') env' st) := by
    simp only [RunFold.finish_eq, FoldDef.map_merge, FoldDef.map_accumulatorNames,
      FoldDef.map_mergeEnv]
    cases st.accs with
    | none => exact C.pure _
    | some accs =>
      cases hmerge : d.merge with
      | none =>
        cases accs with
        | nil => exact C.throw trivial
        | cons => exact C.pure _
      | some merge =>
        by_cases haccs : d.accumulatorNames.length = accs.length
        · simp only [map_some, if_pos haccs]
          exact hd.merge merge hmerge _ _ haccs
        · simp only [map_some, if_neg haccs]
          exact C.throw trivial
  simp only [RunFold.result_eq, FoldDef.map_whenEmpty]
  cases hempty : d.whenEmpty with
  | none => exact hfinish
  | some whenEmpty => exact C.ite (hd.whenEmpty whenEmpty hempty) hfinish

theorem runElements (hd : d.Related C f f' env env' [])
    (hf : ∀ x, some x ∈ es → C.Rel (f x env) (f' x env')) (st : RunFold) :
    C.Rel (FormulaFold.runElements (d.map f) env st (es.map (Option.map f)))
      (FormulaFold.runElements (d.map f') env' st (es.map (Option.map f'))) := by
  induction es generalizing st with
  | nil => exact C.pure _
  | cons e es ih =>
    refine C.bind (C.runChild fun x hx => hf x (hx ▸ mem_cons_self)) fun y => ?_
    exact C.bind (C.steps hd st _) fun st => ih (fun x hx => hf x (mem_cons_of_mem _ hx)) st

theorem runFold (hd : d.Related C f f' env env' [])
    (hinits : ∀ x, some x ∈ inits → C.Rel (f x env) (f' x env'))
    (hf : ∀ x, some x ∈ es → C.Rel (f x env) (f' x env')) :
    C.Rel (FormulaFold.runFold (d.map f) (inits.map (Option.map f)) folded
        (es.map (Option.map f)) env)
      (FormulaFold.runFold (d.map f') (inits.map (Option.map f')) folded
        (es.map (Option.map f')) env') :=
  C.bind (C.start hinits) fun st => C.bind (C.runElements hd hf st) (C.result hd)

theorem runFoldArray {array : Option Expr} (hd : d.Related C f f' env env' [])
    (hinits : ∀ x, some x ∈ d.inits → C.Rel (f x env) (f' x env'))
    (harray : ∀ x, array = some x → C.Rel (f x env) (f' x env')) :
    C.Rel (FormulaFold.runFoldArray (d.map f) (array.map f) env)
      (FormulaFold.runFoldArray (d.map f') (array.map f') env') := by
  unfold FormulaFold.runFoldArray
  simp only [FoldDef.map_inits]
  exact C.bind (C.runChild harray) fun _ => C.bind (C.start hinits) fun st =>
    C.bind (C.steps hd st _) (C.result hd)

theorem runVectors (hf : ∀ x, some x ∈ es → C.Rel (f x env) (f' x env')) (first : Option Nat)
    (position : Nat) :
    C.Rel (FormulaFold.runVectors env first position (es.map (Option.map f)))
      (FormulaFold.runVectors env' first position (es.map (Option.map f'))) := by
  induction es generalizing first position with
  | nil => exact C.pure _
  | cons e es ih =>
    refine C.bind (C.runChild fun x hx => hf x (hx ▸ mem_cons_self)) fun y => ?_
    refine C.ite (C.throw_bind (by trivial) _ _) ?_
    exact C.bind (ih (fun x hx => hf x (mem_cons_of_mem _ hx)) _ _) fun _ => C.pure _

theorem runFoldVectors (hd : d.Related C f f' env env' [])
    (hinits : ∀ x, some x ∈ inits → C.Rel (f x env) (f' x env'))
    (hf : ∀ x, some x ∈ es → C.Rel (f x env) (f' x env')) :
    C.Rel (FormulaFold.runFoldVectors (d.map f) (inits.map (Option.map f)) folded
        (es.map (Option.map f)) env)
      (FormulaFold.runFoldVectors (d.map f') (inits.map (Option.map f')) folded
        (es.map (Option.map f')) env') := by
  unfold FormulaFold.runFoldVectors
  simp only [List.isEmpty_map, length_map, FoldDef.map_elementNames]
  refine C.ite (C.throw_bind (by trivial) _ _) ?_
  exact C.bind (C.runVectors hf none 1) fun _ => C.bind (C.start hinits) fun st =>
    C.bind (C.steps hd st _) (C.result hd)

section Tables

variable {columns : List String} {filter : Option Expr}
  (hf : ∀ x, filter = some x → ∀ row : List Value, columns.length = row.length →
    C.Rel (f x (env.setPairs (columns.zip row))) (f' x (env'.setPairs (columns.zip row))))
include hf

theorem passes (position : Nat) (row : List Value) :
    C.Rel (TableRun.passes ⟨columns, filter.map f, column⟩ env position row)
      (TableRun.passes ⟨columns, filter.map f', column⟩ env' position row) := by
  rw [passes_eq, passes_eq]
  cases filter with
  | none => exact C.pure _
  | some filter =>
    by_cases hlen : columns.length = row.length
    · simp only [map_some, if_pos hlen]
      refine C.bind (hf filter rfl row hlen) fun y => ?_
      split
      · exact C.pure _
      · exact C.throw trivial
    · simp only [map_some, if_neg hlen]
      exact C.throw trivial

theorem runRows (hd : d.Related C f f' env env' columns) (st : RunFold) (position : Nat)
    {rows : List (List Value)} (hrows : ∀ row ∈ rows, columns.length = row.length) :
    C.Rel (FormulaFold.runRows (d.map f) ⟨columns, filter.map f, column⟩ env st position rows)
      (FormulaFold.runRows (d.map f') ⟨columns, filter.map f', column⟩ env' st position rows) := by
  induction rows generalizing st position with
  | nil => exact C.pure _
  | cons row rows ih =>
    have hrest (st : RunFold) := ih st (position + 1) fun row h =>
      hrows row (mem_cons_of_mem _ h)
    unfold FormulaFold.runRows
    simp only [FoldDef.map_elementNames]
    refine C.bind (C.passes hf position row) fun b => C.ite ?_ (C.bind (C.pure _) hrest)
    refine C.bind (C.step hd st _ ?_) hrest
    exact map_fst_zip (Nat.le_of_eq (hrows row mem_cons_self))

theorem runFoldTable {table : Option Expr} (hd : d.Related C f f' env env' columns)
    (hinits : ∀ x, some x ∈ inits → C.Rel (f x env) (f' x env'))
    (htable : ∀ x, table = some x → C.Rel (f x env) (f' x env')) :
    C.Rel (FormulaFold.runFoldTable (d.map f) (inits.map (Option.map f)) folded
        ⟨columns, filter.map f, column⟩ (table.map f) env)
      (FormulaFold.runFoldTable (d.map f') (inits.map (Option.map f')) folded
        ⟨columns, filter.map f', column⟩ (table.map f') env') := by
  rw [runFoldTable_eq, runFoldTable_eq]
  refine C.bind (C.runChild htable) fun y => ?_
  split
  · rename_i rows cols values
    unfold runFoldRange
    by_cases hcols : cols = columns.length
    · rw [if_neg (not_not.mpr hcols), if_neg (not_not.mpr hcols)]
      refine C.ite (C.throw trivial) (C.bind (C.start hinits) fun st => ?_)
      refine C.bind (C.runRows hf hd st 1 fun row hrow => ?_)
        fun st => C.ite (C.throw trivial) (C.result hd st)
      rw [length_of_mem_rowsOf (mem_of_mem_take hrow)]
      omega
    · rw [if_pos hcols, if_pos hcols]
      exact C.throw trivial
  · exact C.throw trivial

end Tables

end Folds

/-! ## Formulas -/

section Formulas

variable {C} {ev : Evaluator} {closed : Prop} {inputs' : Inputs}
  {E : (String → Bool) → Env → Env → Prop}
  (hE : Exchanges C closed ev.inputs inputs' E)
include hE

/-- The formulas of a fold are related if they are so under the names that they see. -/
theorem related_def {d : FoldDef Expr} {columns : List String} {env env' : Env} {p : String → Bool}
    (ih : ∀ e ∈ d.body, ∀ env env' p, (closed → e.isScoped false p = true) → E p env env' →
      C.Rel (f e env) (f' e env'))
    (hd : closed → d.Scoped false p columns) (h : E p env env') :
    d.Related C f f' env env' columns where
  steps x hx folded accs elements extra hextra haccs helements := by
    refine ih x (by simp [FoldDef.body, hx]) _ _ _ (fun hs => (hd hs).steps x hx) ?_
    rw [← hextra]
    exact hE.stepEnv h haccs helements
  merge x hx folded accs haccs :=
    ih x (by simp [FoldDef.body, hx]) _ _ _ (fun hs => (hd hs).merge x hx) (hE.mergeEnv h haccs)
  whenEmpty x hx :=
    ih x (by simp [FoldDef.body, hx]) env env' p (fun hs => (hd hs).whenEmpty x hx) h

/-- **Two runs of one formula are related if they are so at the cells it refers to**, in
environments that may be exchanged for each other. -/
theorem exchanged {q : Address → Prop} (hcell : ∀ a, q a → ∀ p env env', E p env env' →
      C.Rel (ev.cellForm enter a env)
        (Evaluator.cellForm ⟨ev.engine, ev.book, inputs'⟩ enter' a env')) (e : Expr)
    (he : e.Confined q) (env env' : Env) (p : String → Bool)
    (hs : closed → e.isScoped false p = true) (h : E p env env') : C.Rel (e.evaluation ev enter env)
      (e.evaluation ⟨ev.engine, ev.book, inputs'⟩ enter' env') := by
  induction e using induction_on_parts generalizing env env' p with
  | step e ih =>
  have hpart (x : Expr) (hx : x ∈ e.liveParts) :=
    ih x (.part (Expr.mem_parts_of_mem_liveParts hx)) (he.part hx)
  -- The children are run under the names around the formula.
  have hall {es : Children} (hparts : ∀ x, some x ∈ es → x ∈ e.liveParts)
      (hes : closed → allScoped false p es = true) {env env' : Env} (h : E p env env') (x : Expr)
      (hx : some x ∈ es) := hpart x (hparts x hx) env env' p
        (fun hs => allScoped_iff.mp (hes hs) x hx) h
  have hoption {e' : Option Expr} (hparts : ∀ x, e' = some x → x ∈ e.liveParts)
      (he : closed → optionScoped false p e' = true) {env env' : Env} (h : E p env env')
      (x : Expr) (hx : e' = some x) := hpart x (hparts x hx) env env' p
        (fun hs => optionScoped_iff.mp (he hs) x hx) h
  have hdef {d : FoldDef Expr} {columns : List String} (hparts : ∀ x ∈ d.body, x ∈ e.liveParts)
      (hd : closed → defScoped false p columns d = true) :=
    related_def hE (fun x hx => hpart x (hparts x hx)) (fun hs => defScoped_iff.mp (hd hs)) h
  have hstart {d : FoldDef Expr} {columns : List String} {seeds : List Expr}
      (hparts : ∀ x, some x ∈ d.start seeds → x ∈ e.liveParts)
      (hd : closed → defScoped false p columns d = true)
      (hseeds : closed → seedsScoped false p seeds = true) (x : Expr)
      (hx : some x ∈ d.start seeds) := hpart x (hparts x hx) env env' p
        (fun hs => (FoldDef.mem_start d hx).elim ((defScoped_iff.mp (hd hs)).inits x)
          (seedsScoped_iff.mp (hseeds hs) x)) h
  cases e with
  | constant v t =>
    rw [Expr.evaluation, Expr.evaluation]
    exact C.pure _
  | operator op operands t =>
    simp only [Expr.evaluation, evaluationAll_eq, trimmed_map]
    refine C.bind (C.runItems fun x hx => ?_) fun _ => C.computed _
    exact hall (fun x hx => by simpa [liveParts, parts] using hx)
      (by simpa [isScoped] using hs) h x (mem_of_mem_trimmed hx)
  | call fn args t =>
    have hargs := hall (fun x hx => by simpa [liveParts, parts] using hx)
      (by simpa [isScoped] using hs) h
    rw [evaluation_call, evaluation_call]
    split
    · exact C.ifForm hargs
    · exact C.boolForm hargs
    · exact C.boolForm hargs
    · exact C.positionForm hargs (hE.origin h)
    · exact C.positionForm hargs (hE.origin h)
    · exact C.callForm hargs
  | cell a =>
    rw [Expr.evaluation, Expr.evaluation]
    exact hcell a ((Expr.confined_iff.mp he).1 a rfl) p env env' h
  | range rows cols elements =>
    simp only [Expr.evaluation, evaluationAll_eq]
    exact C.bind (C.runSingles (hall (fun x hx => by simpa [liveParts, parts] using hx)
      (by simpa [isScoped] using hs) h)) fun _ => C.pure _
  | letIn name value body =>
    simp only [Expr.evaluation, evaluationOption_eq]
    simp only [isScoped, and_eq_true] at hs
    refine C.bind (C.runChild (hoption (fun x hx => by simp [liveParts, parts, hx])
      (fun hb => (hs hb).1) h)) fun y => C.runChild fun x hx => ?_
    exact hpart x (by simp [liveParts, parts, hx]) _ _ (binds [name] p)
      (fun hb => optionScoped_iff.mp (hs hb).2 x hx) (hE.set h name y)
  | letVar name t =>
    rw [Expr.evaluation, Expr.evaluation]
    obtain ⟨hname, hbound⟩ := hE.find? h hs
    unfold Evaluator.nameForm
    rw [hname]
    cases hy : env.find? name with
    | some y => exact C.pure _
    | none =>
      refine C.throw fun hb => ?_
      have := hbound hb
      rw [hy] at this
      cases this
  | splice elements =>
    simp only [Expr.evaluation, evaluationAll_eq]
    exact C.bind (C.runItems (hall (fun x hx => by simpa [liveParts, parts] using hx)
      (by simpa [isScoped] using hs) h)) fun _ => C.pure _
  | switch selector cases otherwise t =>
    simp only [Expr.evaluation, evaluationOption_eq, evaluationCases_eq]
    simp only [isScoped, and_eq_true] at hs
    refine C.switchForm
      (hoption (fun x hx => by simp [liveParts, parts, hx]) (fun hb => (hs hb).1.1) h)
      (fun c hc x hx => ?_)
      (hoption (fun x hx => by simp [liveParts, parts, hx]) (fun hb => (hs hb).2) h)
    refine hpart x ?_ env env' p (fun hb => casesScoped_iff.mp (hs hb).1.2 c hc x hx) h
    simp only [liveParts, parts, mem_append, mem_present]
    exact .inl (.inr (mem_map.mpr ⟨c, hc, hx⟩))
  | switchCase c =>
    simp only [Expr.evaluation, evaluationCase_eq]
    exact C.runChild fun x hx => hpart x (by simpa [liveParts, parts] using hx) env env' p
      (fun hb => caseScoped_iff.mp (hs hb) x hx) h
  | fold form d seeds folded elements t =>
    simp only [Expr.evaluation, evaluationDef_eq, evaluationSeeds_eq, evaluationAll_eq,
      FoldDef.map_start]
    simp only [isScoped, and_eq_true] at hs
    exact C.runFold (hdef (fun x hx => by simp [liveParts, hx]) fun hb => (hs hb).1.1)
      (hstart (fun x hx => by simp [liveParts, hx]) (fun hb => (hs hb).1.1)
        fun hb => (hs hb).1.2)
      (hall (fun x hx => by simp [liveParts, hx]) (fun hb => (hs hb).2) h)
  | reduce d seed folded elements t =>
    have hseed (g : Expr → Evaluation) : [seed.map g] = [seed].map (Option.map g) := rfl
    simp only [Expr.evaluation, evaluationDef_eq, evaluationOption_eq, evaluationAll_eq, hseed]
    simp only [isScoped, and_eq_true] at hs
    exact C.runFold (hdef (fun x hx => by simp [liveParts, hx]) fun hb => (hs hb).1.1)
      (fun x hx => hoption (fun x hx => by simp [liveParts, hx]) (fun hb => (hs hb).1.2) h x
        (mem_singleton.mp hx).symm)
      (hall (fun x hx => by simp [liveParts, hx]) (fun hb => (hs hb).2) h)
  | foldArray d array t =>
    simp only [Expr.evaluation, evaluationDef_eq, evaluationOption_eq]
    simp only [isScoped, and_eq_true] at hs
    exact C.runFoldArray (hdef (fun x hx => by simp [liveParts, hx]) fun hb => (hs hb).1)
      (hall (fun x hx => by simp [liveParts, hx])
        (fun hb => allScoped_iff.mpr (defScoped_iff.mp (hs hb).1).inits) h)
      (hoption (fun x hx => by simp [liveParts, hx]) (fun hb => (hs hb).2) h)
  | foldVectors d seeds folded vectors t =>
    simp only [Expr.evaluation, evaluationDef_eq, evaluationSeeds_eq, evaluationAll_eq,
      FoldDef.map_start]
    simp only [isScoped, and_eq_true] at hs
    exact C.runFoldVectors (hdef (fun x hx => by simp [liveParts, hx]) fun hb => (hs hb).1.1)
      (hstart (fun x hx => by simp [liveParts, hx]) (fun hb => (hs hb).1.1)
        fun hb => (hs hb).1.2)
      (hall (fun x hx => by simp [liveParts, hx]) (fun hb => (hs hb).2) h)
  | foldTable d seeds folded columns filter column table t =>
    simp only [Expr.evaluation, evaluationDef_eq, evaluationSeeds_eq, evaluationOption_eq,
      FoldDef.map_start]
    simp only [isScoped, and_eq_true] at hs
    refine C.runFoldTable (fun x hx row hrow => ?_)
      (hdef (fun x hx => by simp [liveParts, hx]) fun hb => (hs hb).1.1.1)
      (hstart (fun x hx => by simp [liveParts, hx]) (fun hb => (hs hb).1.1.1)
        fun hb => (hs hb).1.1.2)
      (hoption (fun x hx => by simp [liveParts, hx]) (fun hb => (hs hb).2) h)
    refine hpart x (by simp [liveParts, hx]) _ _ (binds (columns.getD []) p)
      (fun hb => optionScoped_iff.mp (hs hb).1.2 x hx) ?_
    have hbinds := hE.setPairs h ((columns.getD []).zip row)
    rwa [map_fst_zip (Nat.le_of_eq hrow)] at hbinds
  | parentSection s inner =>
    simp only [Expr.evaluation, evaluationOption_eq]
    exact C.runChild (hoption (fun x hx => by simp [liveParts, parts, hx])
      (by simpa [isScoped] using hs) (hE.outerRow h))
  | subSection s elements =>
    simp only [Expr.evaluation, evaluationAll_eq]
    refine C.bind (C.rowsForm ((hE.rows s).imp fun row row' hrow => ?_)) fun _ => C.pure _
    exact hall (fun x hx => by simpa [liveParts, parts] using hx)
      (by simpa [isScoped] using hs) (hrow h)
  | count static args =>
    rw [Expr.evaluation, Expr.evaluation,
      Expr.countRunArgs_eq fun s => (hE.rows s).length_eq.symm]
    exact C.pure _

end Formulas

/-- An environment may be exchanged for itself, where names are bound as promised. -/
theorem exchanges_same (inputs : Inputs) :
    Exchanges C bound inputs inputs fun p env env' => env' = env ∧ (bound → env.Binds p) where
  imp h hpq := ⟨h.1, fun hb => (h.2 hb).imp hpq⟩
  set h name y := ⟨h.1 ▸ rfl, fun hb => (h.2 hb).set name y⟩
  outerRow h := ⟨h.1 ▸ rfl, h.2⟩
  origin h := h.1 ▸ rfl
  find? h hx := ⟨h.1 ▸ rfl, fun hb => h.2 hb _ (hx hb)⟩
  rows _ := forall₂_same.mpr fun _ _ _ _ _ h => ⟨h.1 ▸ rfl, h.2⟩

/-- Two runs of one formula in the same environment are related if they are so at the cells it
mentions. -/
theorem evaluation {ev : Evaluator} (e : Expr) (hcell : ∀ a, e.Mentions a → ∀ env,
      C.Rel (ev.cellForm enter a env) (ev.cellForm enter' a env)) (env : Env)
    (p : String → Bool) (hs : bound → e.isScoped false p = true) (hp : bound → env.Binds p) :
    C.Rel (e.evaluation ev enter env) (e.evaluation ev enter' env) := by
  refine exchanged (C.exchanges_same ev.inputs) (fun a ha p env env' h => ?_) e
    (Expr.confined_of_mentions fun _ => id) env env p hs ⟨rfl, hp⟩
  rw [h.1]
  exact hcell a ha env

end Run.Congruence

end FormulaFold
