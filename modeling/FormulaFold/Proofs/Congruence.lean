import FormulaFold.Proofs.Likeness

/-! # Relations that walks respect

A form puts the walks of its children together, and it does so in few ways: it runs one after the
other, binds names around one, counts, records, and stops at a fault of its own.  A relation
between actions that all of these respect is a `Walk.Congruence`; `C.Rel R x x'` says of the results
of `x` and `x'` that they are related by `R`.

The results of two walks need not be the same, only alike up to an `Agreeable` relation `Q`.  **Two
walks of a form are related and leave formulas that are alike if this is so of its children**; the
folds have a module of their own.
-/
namespace FormulaFold

variable {decisive : Bool} {t : DataType} {compute : Computation}
  {o o' : Outcome} {fn : String} {α : Type}

/-! ## Faults of forms -/

/-- Whether computing an operator or a function can end with the failure. -/
def Engine.Returns (engine : Engine) (f : Failure) : Prop :=
  (∃ (op : Op) (args : List Value), op.compute args = .error f) ∨
    ∃ (fn : String) (args : List Value), engine.call fn args = .error f

/-- Whether the fault is one that a form can stop at by itself.  A failed computation is among
them only if the failure was not expected; the engine returns one that is hard. -/
def Fault.IsOwn (engine : Engine) : Fault → Prop
  | complaint .. | children _ | missing | bindings _ => True
  | computing _ cause | failed cause =>
    cause.expected = false ∧ (cause.kind = .hard → engine.Returns cause)
  | conflict .. | leftover .. | tooDeep => False

theorem Fault.isOwn_outsideArray (engine : Engine) (size : Nat) :
    (Fault.failed (.outsideArray size)).IsOwn engine :=
  ⟨rfl, by rintro ⟨⟩⟩

/-- Whether a computation fails hard only as the engine does. -/
def Engine.Backs {α : Type} (engine : Engine) (r : Except Failure α) : Prop :=
  ∀ f, r = .error f → f.kind = .hard → engine.Returns f

namespace Engine

variable (engine : Engine)

theorem backs_compute (op : Op) (args : List Value) : engine.Backs (op.compute args) :=
  fun _ h _ => .inl ⟨op, args, h⟩

theorem backs_call (fn : String) (args : List Value) : engine.Backs (engine.call fn args) :=
  fun _ h _ => .inr ⟨fn, args, h⟩

/-- A computation that fails as expected does not fail hard. -/
theorem backs_of_expected (h : FailsAsExpected r) : engine.Backs r := by
  intro f hf hhard
  have hexpected := h f hf
  simp [Failure.expected, hhard] at hexpected

variable {engine}

theorem Backs.bind {β : Type} {k : α → Except Failure β}
    (hr : engine.Backs r) (hk : ∀ a, engine.Backs (k a)) : engine.Backs (r >>= k) := by
  intro f h
  cases r with
  | error g =>
    cases h
    exact hr f rfl
  | ok a => exact hk a f h

end Engine

/-! ## Congruences -/

/-- Count and record a fold done in part, where folds are done so. -/
def WalkState.foldInPart (c : Bool) (e : Event) (s : WalkState) : WalkState :=
  if c then
    { s with
      stats := { s.stats with partialFolds := s.stats.partialFolds + 1 }
      events := e :: s.events }
  else s

namespace Walk

/-- The changes of the state that all forms may make by themselves. -/
inductive Change : (WalkState → WalkState) → Prop
  | event (e : Event) : Change fun s => { s with events := e :: s.events }
  | folded : Change fun s => { s with stats := { s.stats with folded := s.stats.folded + 1 } }
  | refused : Change fun s => { s with stats := { s.stats with refused := s.stats.refused + 1 } }
  | bindings (b : Bindings) : Change (under b)

/-- A relation between actions that the ways of putting actions together respect; `c` and `c'` say
on which side folds are done in part. -/
structure Congruence (engine : Engine) (c c' : Bool) where
  Rel : {α α' : Type} → (α → α' → Prop) → Walk α → Walk α' → Prop
  pure : ∀ {α α' : Type} {R : α → α' → Prop} {a : α} {a' : α'}, R a a' →
    Rel R (pure a) (pure a')
  throw : ∀ {α α' : Type} {R : α → α' → Prop} {f : Fault}, f.IsOwn engine →
    Rel R (throw f) (throw f)
  bind : ∀ {α α' β β' : Type} {R : α → α' → Prop} {P : β → β' → Prop} {x : Walk α} {x' : Walk α'}
    {k : α → Walk β} {k' : α' → Walk β'}, Rel R x x' → (∀ a a', R a a' → Rel P (k a) (k' a')) →
    Rel P (x >>= k) (x' >>= k')
  change : ∀ {f : WalkState → WalkState}, Change f →
    Rel (fun _ _ => True) (modify f : Walk Unit) (modify f : Walk Unit)
  foldInPart : ∀ e, Rel (fun _ _ => True) (modify (WalkState.foldInPart c e) : Walk Unit)
    (modify (WalkState.foldInPart c' e) : Walk Unit)
  bindings : ∀ {α α' : Type} {R : α → α' → Prop} {k : Bindings → Walk α} {k' : Bindings → Walk α'},
    (∀ b, Rel R (k b) (k' b)) →
    Rel R (get >>= fun s => k s.bindings) (get >>= fun s => k' s.bindings)
  releasing : ∀ {α α' : Type} {R : α → α' → Prop} (scope : Scope) {x : Walk α} {x' : Walk α'},
    Rel R x x' → Rel R (releasing scope x) (releasing scope x')

end Walk

theorem indexOf?_like {Q : Expr → Expr → Prop} (h : o.Like Q o') : indexOf? o' = indexOf? o := by
  cases o with
  | known v t => rw [show o' = .known v t from h]
  | residual e =>
    obtain ⟨e', rfl, _⟩ := h
    rfl

/-- Merged arguments that are alike, of which the last run was joined in both or in neither. -/
def MergedLike (Q : Expr → Expr → Prop) (r r' : List Expr × Bool) : Prop :=
  Forall₂ (Expr.Like Q) r.1 r'.1 ∧ r'.2 = r.2

namespace Walk.Congruence

variable {α' β β' : Type} {R : α → α' → Prop} {c : Bool}

section Scopes

variable (C : Congruence engine c c')

theorem ite {p p' : Prop} [Decidable p] [Decidable p'] (hp : p' ↔ p) (hx : p → C.Rel R x x')
    (hy : ¬p → C.Rel R y y') : C.Rel R (if p then x else y) (if p' then x' else y') := by
  by_cases h : p
  · rw [if_pos h, if_pos (hp.mpr h)]
    exact hx h
  · rw [if_neg h, if_neg (mt hp.mp h)]
    exact hy h

theorem throw_bind (hf : f.IsOwn engine) (k : β → Walk α) (k' : β' → Walk α') :
    C.Rel R (MonadExcept.throw f >>= k) (MonadExcept.throw f >>= k') := C.throw hf

theorem naming (x : Naming α) : C.Rel (· = ·) (Walk.naming x) (Walk.naming x) := by
  let k (b : Bindings) : Walk α := fun s => Walk.naming x (under b s)
  have hread : Walk.naming x = get >>= fun s => k s.bindings := rfl
  rw [hread]
  refine C.bindings fun b => ?_
  cases hb : x b with
  | ok a next =>
    have hb (s : WalkState) : x (under b s).bindings = .ok a next := hb
    have hk : k b = modify (under next) >>= fun _ => Pure.pure a := by
      funext s
      simp only [k, naming_apply, hb]
      rfl
    rw [hk]
    exact C.bind (C.change (.bindings next)) fun _ _ _ => C.pure rfl
  | error e next =>
    have hb (s : WalkState) : x (under b s).bindings = .error e next := hb
    have hk : k b = modify (under next) >>= fun _ => MonadExcept.throw (.bindings e) := by
      funext s
      simp only [k, naming_apply, hb]
      rfl
    rw [hk]
    exact C.bind (C.change (.bindings next)) fun _ _ _ => C.throw trivial

/-- Running an action in a scope of its own. -/
theorem withScope (y : Naming Scope) (hx : C.Rel R x x') :
    C.Rel R (Walk.naming y >>= fun scope => Walk.releasing scope x)
      (Walk.naming y >>= fun scope => Walk.releasing scope x') := by
  refine C.bind (C.naming y) fun scope _ hscope => ?_
  subst hscope
  exact C.releasing scope hx

theorem binding (name : String) (o : Option Outcome) (hx : C.Rel R x x') :
    C.Rel R (Walk.binding name o x) (Walk.binding name o x') := C.withScope _ hx

theorem bindingAll (names : List String) (os : List Outcome) (hx : C.Rel R x x') :
    C.Rel R (Walk.bindingAll names os x) (Walk.bindingAll names os x') := C.withScope _ hx

end Scopes

/-! ## Computed nodes -/

section Forms

variable {site : Site} (C : Congruence site.engine c c') {node : Expr}

theorem written (e : Expr) : C.Rel (· = ·) (site.written e) (site.written e) := by
  unfold Site.written
  split
  · exact C.pure rfl
  · exact C.throw trivial

theorem accept (v : Value) : C.Rel (· = ·) (Site.tryConstant.accept site node v)
    (Site.tryConstant.accept site node v) := by
  refine C.bind (C.change .folded) fun _ _ _ => C.ite .rfl (fun _ => ?_) fun _ => C.pure rfl
  split
  · exact C.pure rfl
  · exact C.throw trivial

theorem tryConstant (hr : site.engine.Backs r) :
    C.Rel (· = ·) (site.tryConstant node r) (site.tryConstant node r) := by
  have hrefuse (event : String → Event) : C.Rel (· = ·) (do
      Walk.tally fun s => { s with refused := s.refused + 1 }
      Walk.record (event (← site.written node))
      return none : Walk (Option Outcome)) (do
      Walk.tally fun s => { s with refused := s.refused + 1 }
      Walk.record (event (← site.written node))
      return none : Walk (Option Outcome)) := by
    refine C.bind (C.change .refused) fun _ _ _ => C.bind (C.written node) fun text _ h => ?_
    subst h
    exact C.bind (C.change (.event _)) fun _ _ _ => C.pure rfl
  unfold Site.tryConstant
  cases r with
  | error f =>
    refine C.ite .rfl (fun _ => hrefuse _) fun hexpected => ?_
    exact C.throw ⟨eq_false_of_ne_true hexpected, hr f rfl⟩
  | ok v =>
    cases v
    case number x => exact C.ite .rfl (fun _ => C.accept _) fun _ => hrefuse _
    all_goals exact C.accept _

/-- A value that is no truth value fails as expected. -/
theorem throw_toBool {v : Value} {f : Failure} (h : v.toBool = .error f) (hf : ¬f.expected) :
    C.Rel R (MonadExcept.throw (.failed f)) (MonadExcept.throw (.failed f)) :=
  absurd (failsAsExpected_toBool v f h) hf

theorem backs_truth (fn : String) (o : Outcome) : site.engine.Backs (match o with
    | .known v _ => v.toBool
    | .residual e => do (← site.engine.call fn [e.materialize]).toBool) := by
  cases o with
  | known v t => exact site.engine.backs_of_expected (failsAsExpected_toBool v)
  | residual e =>
    exact (site.engine.backs_call _ _).bind fun v =>
      site.engine.backs_of_expected (failsAsExpected_toBool v)

theorem truth? (fn : String) (o : Outcome) :
    C.Rel (· = ·) (FormulaFold.truth? site fn o) (FormulaFold.truth? site fn o) := by
  unfold FormulaFold.truth?
  dsimp only
  split
  · exact C.pure rfl
  · rename_i f hf
    refine C.ite .rfl (fun _ => C.pure rfl) fun hexpected => ?_
    exact C.throw ⟨eq_false_of_ne_true hexpected, backs_truth fn o f hf⟩

variable {Q : Expr → Expr → Prop} (hQ : Agreeable site.book Q)

/-- Two actions are related and leave formulas that are alike. -/
abbrev Alike (Q : Expr → Expr → Prop) (x x' : Action) : Prop := C.Rel (Outcome.Like Q) x x'

/-- Two ways to walk the children are alike. -/
abbrev AllAlike (Q : Expr → Expr → Prop) (w w' : Expr → Action) (es : Children) : Prop :=
  ∀ e, some e ∈ es → C.Alike Q (w e) (w' e)

include hQ

theorem dynamic {e e' : Expr} (h : e.Like Q e') : C.Alike Q (site.dynamic e) (site.dynamic e') := by
  unfold Site.dynamic
  rw [hQ.typeOf?_eq h]
  exact C.ite .rfl (fun _ => C.throw trivial) fun _ => C.pure (hQ.like_ofExpr h)

theorem residual (h : Forall₂ (Outcome.Like Q) os os') :
    C.Alike Q (site.residual node os) (site.residual node os') := by
  unfold Site.residual
  rcases hQ.withChildren_like node (forall₂_keepMissing (h.imp fun _ _ h => h.expr)) with
    ⟨e, e', he, he', hlike⟩ | ⟨m, hm, hm'⟩
  · rw [he, he']
    exact C.dynamic hQ hlike
  · rw [hm, hm']
    exact C.throw trivial

/-- A computation that is tried, and another action where it is left to the run. -/
theorem tryConstant_or (hr : site.engine.Backs r) {x x' : Action} (hx : C.Alike Q x x') :
    C.Alike Q (site.tryConstant node r >>= fun
        | some o => Pure.pure o
        | none => x)
      (site.tryConstant node r >>= fun
        | some o => Pure.pure o
        | none => x') := by
  refine C.bind (C.tryConstant hr) fun r _ hr => ?_
  subst hr
  cases r with
  | some o => exact C.pure (hQ.outcome_refl o)
  | none => exact hx

theorem settle (hcompute : ∀ args, site.engine.Backs (compute args))
    (h : Forall₂ (Outcome.Like Q) os os') :
    C.Alike Q (site.settle node compute os) (site.settle node compute os') := by
  refine C.ite (by rw [hQ.all_isConstant_eq h]) (fun hconst => ?_) fun _ => C.residual hQ h
  obtain rfl := eq_of_forall₂_like_of_isConstant h hconst
  exact C.tryConstant_or hQ (hcompute _) (C.residual hQ h)

variable {w w' : Expr → Action} {es : Children}

theorem runAll (hw : C.AllAlike Q w w' es) :
    C.Rel (Forall₂ (Outcome.Like Q)) (FormulaFold.runAll (es.map (Option.map w)))
      (FormulaFold.runAll (es.map (Option.map w'))) := by
  induction es with
  | nil => exact C.pure .nil
  | cons e es ih =>
    have hrest := ih fun e he => hw e (mem_cons_of_mem _ he)
    cases e with
    | none => exact C.bind hrest fun _ _ h => C.pure (.cons (hQ.outcome_refl _) h)
    | some e =>
      exact C.bind (hw e mem_cons_self) fun _ _ ho => C.bind hrest fun _ _ h =>
        C.pure (.cons ho h)

theorem generic (hcompute : ∀ args, site.engine.Backs (compute args)) {done done' : List Outcome}
    (hdone : Forall₂ (Outcome.Like Q) done done') (hw : C.AllAlike Q w w' es) :
    C.Alike Q (site.generic node compute done (es.map (Option.map w)))
      (site.generic node compute done' (es.map (Option.map w'))) := by
  rw [generic_eq, generic_eq]
  exact C.bind (C.runAll hQ hw) fun _ _ h => C.settle hQ hcompute (rel_append hdone h)

/-! ## Forms with rules of their own -/

theorem runOr (hw : ∀ x, e = some x → C.Alike Q (w x) (w' x)) :
    C.Alike Q (FormulaFold.runOr missing (e.map w)) (FormulaFold.runOr missing (e.map w')) := by
  cases e with
  | none => exact C.pure (hQ.outcome_refl missing)
  | some e => exact hw e rfl

theorem ifRest (hw : C.AllAlike Q w w' es) (ho : o.Like Q o') :
    C.Alike Q (FormulaFold.ifRest site node (es.map (Option.map w)) o)
      (FormulaFold.ifRest site node (es.map (Option.map w')) o') := by
  have hrest : C.Alike Q
      (site.generic node (site.engine.call Builtin.ifElse.name) [o]
        (trimmed (es.map (Option.map w))))
      (site.generic node (site.engine.call Builtin.ifElse.name) [o']
        (trimmed (es.map (Option.map w')))) := by
    rw [trimmed_map, trimmed_map]
    exact C.generic hQ (site.engine.backs_call _) (.cons ho .nil) fun e he =>
      hw e (mem_of_mem_trimmed he)
  have hbranch (i : Nat) (missing : Outcome) : C.Alike Q
      (FormulaFold.runOr missing (es.map (Option.map w))[i]?.join)
      (FormulaFold.runOr missing (es.map (Option.map w'))[i]?.join) := by
    rw [join_getElem?_map, join_getElem?_map]
    exact C.runOr hQ fun e he => hw e (mem_of_getElem?_join he)
  cases o with
  | known v t =>
    cases ho
    unfold FormulaFold.ifRest
    dsimp only
    split
    · exact hbranch 0 _
    · exact hbranch 1 _
    · exact C.ite .rfl (fun _ => hrest) fun hf => C.throw_toBool ‹_› hf
  | residual e =>
    obtain ⟨e', rfl, _⟩ := ho
    exact hrest

theorem ifForm (hw : C.AllAlike Q w w' es) :
    C.Alike Q (FormulaFold.ifForm site node (es.map (Option.map w)))
      (FormulaFold.ifForm site node (es.map (Option.map w'))) := by
  have hgeneric : C.Alike Q
      (site.generic node (site.engine.call Builtin.ifElse.name) []
        (trimmed (es.map (Option.map w))))
      (site.generic node (site.engine.call Builtin.ifElse.name) []
        (trimmed (es.map (Option.map w')))) := by
    rw [trimmed_map, trimmed_map]
    exact C.generic hQ (site.engine.backs_call _) .nil fun e he => hw e (mem_of_mem_trimmed he)
  rcases es with _ | ⟨_ | condition, branches⟩
  · exact hgeneric
  · exact hgeneric
  · simp only [map_cons, map_some, ifForm_some_cons]
    exact C.bind (hw condition mem_cons_self) fun _ _ ho =>
      C.ifRest hQ (fun e he => hw e (mem_cons_of_mem _ he)) ho

theorem undecided? (hw : C.AllAlike Q w w' es) :
    C.Rel (Option.Rel (Forall₂ (Expr.Like Q)))
      (FormulaFold.undecided? site fn decisive (es.map (Option.map w)))
      (FormulaFold.undecided? site fn decisive (es.map (Option.map w'))) := by
  induction es with
  | nil => exact C.pure (.some .nil)
  | cons e es ih =>
    have hrest := ih fun e he => hw e (mem_cons_of_mem _ he)
    cases e with
    | none => exact hrest
    | some e =>
      simp only [map_cons, map_some, undecided?_some_cons]
      refine C.bind (hw e mem_cons_self) fun o o' ho => ?_
      have htruth : C.Rel (· = ·)
          (if o.isConstant then FormulaFold.truth? site fn o else Pure.pure none)
          (if o'.isConstant then FormulaFold.truth? site fn o' else Pure.pure none) := by
        refine C.ite (by rw [hQ.isConstant_eq ho]) (fun hconst => ?_) fun _ => C.pure rfl
        rw [ho.eq_of_isConstant hconst]
        exact C.truth? fn o
      refine C.bind htruth fun known _ hknown => ?_
      subst hknown
      refine C.ite .rfl (fun _ => C.pure .none) fun _ =>
        C.bind hrest fun left left' hleft => C.pure ?_
      split
      · cases hleft with
        | none => exact .none
        | some h => exact .some (.cons ho.expr h)
      · exact hleft

theorem boolForm (hw : C.AllAlike Q w w' es) :
    C.Alike Q (FormulaFold.boolForm site fn t decisive (es.map (Option.map w)))
      (FormulaFold.boolForm site fn t decisive (es.map (Option.map w'))) := by
  unfold FormulaFold.boolForm
  rw [trimmed_map, trimmed_map]
  refine C.bind (C.undecided? hQ fun e he => hw e (mem_of_mem_trimmed he))
    fun left left' hleft => ?_
  rcases hleft with @⟨_, _, hleft⟩ | _
  · rcases hleft with _ | ⟨hx, hrest⟩
    · exact C.pure (hQ.outcome_refl _)
    · exact C.dynamic hQ
        (hQ.node_like (.call fn [] t) (forall₂_map_some (.cons hx hrest)) rfl rfl)
  · exact C.pure (hQ.outcome_refl _)

theorem walkAt (hw : C.AllAlike Q w w' r.2.2) (place : Except Complaint Int) :
    C.Alike Q ((gridOf w r).walkAt site node place) ((gridOf w' r).walkAt site node place) := by
  cases place with
  | error c => exact C.throw trivial
  | ok k =>
    simp only [Grid.walkAt, gridOf, getElem?_map, length_map]
    by_cases hk : 0 ≤ k
    · simp only [if_pos hk]
      cases he : r.2.2[k.toNat]? with
      | none => exact C.throw (Fault.isOwn_outsideArray _ _)
      | some e => exact C.runOr hQ fun x hx => hw x (hx ▸ mem_of_getElem? he)
    · simp only [if_neg hk]
      exact C.throw (Fault.isOwn_outsideArray _ _)

theorem indexForm
    (hrange : ∀ r, indexRange? es = some r → C.AllAlike Q w w' r.2.2)
    (hw : C.AllAlike Q w w' es) :
    C.Alike Q
      (FormulaFold.indexForm site node ((indexRange? es).map (gridOf w)) (es.map (Option.map w)))
      (FormulaFold.indexForm site node ((indexRange? es).map (gridOf w'))
        (es.map (Option.map w'))) := by
  have htrim (e : Expr) (he : some e ∈ trimmed es) : C.Alike Q (w e) (w' e) :=
    hw e (mem_of_mem_trimmed he)
  have hgeneric {done done' : List Outcome} (hdone : Forall₂ (Outcome.Like Q) done done') :
      C.Alike Q
        (site.generic node (site.engine.call Builtin.index.name) done
          (((trimmed es).map (Option.map w)).drop done.length))
        (site.generic node (site.engine.call Builtin.index.name) done'
          (((trimmed es).map (Option.map w')).drop done'.length)) := by
    rw [← map_drop, ← map_drop, hdone.length_eq]
    exact C.generic hQ (site.engine.backs_call _) hdone fun e he =>
      htrim e (List.mem_of_mem_drop he)
  unfold FormulaFold.indexForm
  rw [trimmed_map, trimmed_map]
  cases hr : indexRange? es with
  | none => exact hgeneric .nil
  | some r =>
    have hat (place : Except Complaint Int) : C.Alike Q
        ((gridOf w r).walkAt site node place) ((gridOf w' r).walkAt site node place) :=
      C.walkAt hQ (hrange r hr) place
    have hplace : (gridOf w' r).place? = (gridOf w r).place? := by
      funext i
      simp [Grid.place?, gridOf]
    -- Only a range followed by one or two indices is looked into directly.
    rcases hes : trimmed es with _ | ⟨_ | range, rest⟩
    all_goals rw [hes] at hgeneric htrim
    · exact hgeneric .nil
    · exact hgeneric .nil
    rcases rest with _ | ⟨_ | first, rest⟩
    · exact hgeneric .nil
    · exact hgeneric .nil
    rcases rest with _ | ⟨_ | second, _ | ⟨third, rest⟩⟩
    · refine C.bind (htrim first (by simp)) fun i i' hi => ?_
      rw [indexOf?_like hi, hplace]
      split
      · exact hat _
      · exact C.bind (htrim range (by simp)) fun _ _ hr => hgeneric (.cons hr (.cons hi .nil))
    · exact hgeneric .nil
    · exact hgeneric .nil
    · refine C.bind (htrim first (by simp)) fun i i' hi => ?_
      rw [indexOf?_like hi]
      split
      · exact C.bind (htrim range (by simp)) fun _ _ hr => hgeneric (.cons hr (.cons hi .nil))
      · refine C.bind (htrim second (by simp)) fun j j' hj => ?_
        rw [indexOf?_like hj]
        split
        · exact hat _
        · exact C.bind (htrim range (by simp)) fun _ _ hr =>
            hgeneric (.cons hr (.cons hi (.cons hj .nil)))
    · exact hgeneric .nil

theorem positionForm {position : Address → Int} {args : Children}
    (hw : C.AllAlike Q w w' es) :
    C.Alike Q (FormulaFold.positionForm site node fn position args (es.map (Option.map w)))
      (FormulaFold.positionForm site node fn position args (es.map (Option.map w'))) := by
  have hresult : FailsAsExpected (do
      let a ← positionCell site fn args
      return Value.number (Float.ofInt (position a))) :=
    (failsAsExpected_positionCell site fn args).bind fun _ => failsAsExpected_pure _
  unfold FormulaFold.positionForm
  rw [trimmed_map, trimmed_map]
  exact C.tryConstant_or hQ (site.engine.backs_of_expected hresult)
    (C.bind (C.runAll hQ fun e he => hw e (mem_of_mem_trimmed he)) fun _ _ h => C.residual hQ h)

theorem flushRun (sole : Bool) (run : List Outcome) :
    C.Rel (MergedLike Q) (FormulaFold.flushRun site node sole run)
      (FormulaFold.flushRun site node sole run) := by
  have hrun : MergedLike Q (run.map (·.expr), false) (run.map (·.expr), false) :=
    ⟨forall₂_same.mpr fun e _ => hQ.like_refl e, rfl⟩
  refine C.ite .rfl (fun _ => ?_) fun _ => C.pure hrun
  refine C.bind (C.tryConstant (site.engine.backs_call _ _)) fun r _ hr => ?_
  subst hr
  cases r with
  | some o => exact C.pure ⟨.cons (hQ.like_refl _) .nil, rfl⟩
  | none => exact C.pure hrun

theorem mergeRuns (sole : Bool) (run : List Outcome) (h : Forall₂ (Outcome.Like Q) os os') :
    C.Rel (MergedLike Q) (FormulaFold.mergeRuns site node sole run os)
      (FormulaFold.mergeRuns site node sole run os') := by
  induction h generalizing run with
  | nil => exact C.flushRun hQ sole run
  | cons ho _ ih =>
    unfold FormulaFold.mergeRuns
    refine C.ite (by rw [hQ.isConstant_eq ho]) (fun hconst => ?_) fun _ => ?_
    · rw [ho.eq_of_isConstant hconst]
      exact ih _
    · exact C.bind (C.flushRun hQ sole run) fun _ _ hj => C.bind (ih []) fun _ _ hm =>
        C.pure ⟨rel_append hj.1 (.cons ho.expr hm.1), hm.2⟩

theorem concatForm (hw : C.AllAlike Q w w' es) :
    C.Alike Q (FormulaFold.concatForm site node fn t (es.map (Option.map w)))
      (FormulaFold.concatForm site node fn t (es.map (Option.map w'))) := by
  unfold FormulaFold.concatForm
  rw [trimmed_map, trimmed_map]
  refine C.bind (C.runAll hQ fun e he => hw e (mem_of_mem_trimmed he)) fun os os' h => ?_
  refine C.ite (by cases h <;> simp) (fun _ => ?_) fun _ => ?_
  · exact C.tryConstant_or hQ (site.engine.backs_call _ _) (C.dynamic hQ (hQ.like_refl node))
  · rw [← h.length_eq]
    refine C.bind (C.mergeRuns hQ _ [] h) ?_
    rintro ⟨merged, joined⟩ ⟨merged', joined'⟩ ⟨hmerged, rfl⟩
    dsimp only at hmerged ⊢
    rw [hQ.all_isConstant_eq h]
    have hdynamic : C.Alike Q (site.dynamic (.call fn (merged.map some) t))
        (site.dynamic (.call fn (merged'.map some) t)) :=
      C.dynamic hQ (hQ.node_like (.call fn [] t) (forall₂_map_some hmerged) rfl rfl)
    rcases hmerged with _ | ⟨he, _ | ⟨_, _⟩⟩
    · exact hdynamic
    · cases joined' && os.all (·.isConstant)
      · exact hdynamic
      · exact C.pure (hQ.like_ofExpr he)
    · exact hdynamic

theorem callForm (hw : C.AllAlike Q w w' es) :
    C.Alike Q (FormulaFold.callForm site node fn (es.map (Option.map w)))
      (FormulaFold.callForm site node fn (es.map (Option.map w'))) := by
  have hcompute (args : List Value) : site.engine.Backs
      (if site.engine.isVolatile fn then .error (.volatile fn) else site.engine.call fn args) := by
    split
    · exact site.engine.backs_of_expected fun f hf => by cases hf; rfl
    · exact site.engine.backs_call fn args
  unfold FormulaFold.callForm
  rw [trimmed_map, trimmed_map]
  exact C.generic hQ hcompute .nil fun e he => hw e (mem_of_mem_trimmed he)

theorem rebuildForm (hw : C.AllAlike Q w w' es) :
    C.Alike Q (FormulaFold.rebuildForm site node (es.map (Option.map w)))
      (FormulaFold.rebuildForm site node (es.map (Option.map w'))) := by
  unfold FormulaFold.rebuildForm
  rw [trimmed_map, trimmed_map]
  exact C.bind (C.runAll hQ fun e he => hw e (mem_of_mem_trimmed he)) fun _ _ h => C.residual hQ h

theorem letForm (hvalue : ∀ e, value = some e → C.Alike Q (w e) (w' e))
    (hbody : ∀ e, body = some e → C.Alike Q (w e) (w' e)) :
    C.Alike Q (FormulaFold.letForm site name (value.map w) (body.map w))
      (FormulaFold.letForm site name (value.map w') (body.map w')) := by
  have hrun : C.Alike Q (letForm.runMissing (body.map w)) (letForm.runMissing (body.map w')) := by
    cases body with
    | none => exact C.throw trivial
    | some body => exact hbody body rfl
  unfold FormulaFold.letForm
  cases value with
  | none => exact C.throw trivial
  | some value =>
    refine C.bind (hvalue value rfl) fun v v' hv => ?_
    have hbound : (if v'.isConstant then some v' else none) =
        if v.isConstant then some v else none := by
      by_cases hconst : v.isConstant
      · rw [hv.eq_of_isConstant hconst]
      · rw [hQ.isConstant_eq hv, if_neg hconst, if_neg hconst]
    rw [hbound]
    refine C.bind (C.binding name _ hrun) fun o o' ho => ?_
    cases o with
    | known v t =>
      cases ho
      exact C.pure rfl
    | residual e =>
      obtain ⟨e', rfl, he⟩ := ho
      exact C.dynamic hQ (hQ.node_like (.letIn name none none)
        (.cons (.some hv.expr) (.cons (.some he) .nil)) rfl rfl)

theorem nameForm (name : String) (t : DataType) :
    C.Alike Q (FormulaFold.nameForm site name t) (FormulaFold.nameForm site name t) := by
  refine C.bind (C.naming (.lookup name)) fun o _ ho => ?_
  subst ho
  cases o with
  | some o => exact C.pure (hQ.outcome_refl o)
  | none => exact C.dynamic hQ (hQ.like_refl _)

theorem switchForm {selector otherwise : Option Expr} {cases : List (Case Expr)}
    (hselector : ∀ e, selector = some e → C.Alike Q (w e) (w' e))
    (hcases : ∀ c ∈ cases, ∀ e, c.branch = some e → C.Alike Q (w e) (w' e))
    (hotherwise : ∀ e, otherwise = some e → C.Alike Q (w e) (w' e))
    (hw : C.AllAlike Q w w' es) :
    C.Alike Q
      (FormulaFold.switchForm site node (selector.map w) (cases.map (Case.map w))
        (otherwise.map w) (es.map (Option.map w)))
      (FormulaFold.switchForm site node (selector.map w') (cases.map (Case.map w'))
        (otherwise.map w') (es.map (Option.map w'))) := by
  unfold FormulaFold.switchForm
  cases selector with
  | none => exact C.throw trivial
  | some selector =>
    refine C.bind (hselector selector rfl) fun o o' ho => ?_
    cases o with
    | known v t =>
      cases ho
      simp only [find?_map_case]
      cases hc : cases.find? (·.matches (v.toInt leastWord)) with
      | none => exact C.runOr hQ hotherwise
      | some c => exact C.runOr hQ (hcases c (List.mem_of_find?_eq_some hc))
    | residual e =>
      obtain ⟨e', rfl, he⟩ := ho
      dsimp only
      rw [trimmed_map, trimmed_map, ← map_drop, ← map_drop]
      exact C.bind
        (C.runAll hQ fun e he => hw e (mem_of_mem_trimmed (List.mem_of_mem_drop he)))
        fun _ _ h => C.residual hQ (.cons ⟨e', rfl, he⟩ h)

theorem parentForm {inner : Option Expr} (hinner : ∀ e, inner = some e → C.Alike Q (w e) (w' e)) :
    C.Alike Q (FormulaFold.parentForm site node (inner.map w))
      (FormulaFold.parentForm site node (inner.map w')) := by
  unfold FormulaFold.parentForm
  cases inner with
  | none => exact C.throw trivial
  | some inner =>
    refine C.bind (hinner inner rfl) fun o o' ho => ?_
    cases o with
    | known v t =>
      cases ho
      exact C.pure rfl
    | residual e =>
      obtain ⟨e', rfl, he⟩ := ho
      exact C.residual hQ (.cons ⟨e', rfl, he⟩ .nil)

theorem countForm (static : Int) (args : Children) :
    C.Alike Q (FormulaFold.countForm site static args)
      (FormulaFold.countForm site static args) := by
  unfold FormulaFold.countForm
  split
  · exact C.throw trivial
  · exact C.pure (hQ.outcome_refl _)
  · exact C.dynamic hQ (hQ.like_refl _)

end Forms

end Walk.Congruence

end FormulaFold
