import FormulaFold.Proofs.WalkCongruence

/-! # Two walks abreast

Two runs are followed step by step.  `Walk.Abreast S R x x'` says that from states related by `S`
the actions `x` and `x'` go the same way: both give a result, and the results are related by `R`,
or both stop at the same fault; and the states stay related.

What a relation between states has to respect for this to be a congruence is little (`Couples`):
the same names are bound on both sides, and all that forms change may change.  A congruence may
also say what the walks stop at, as long as forms stop so by themselves.
-/
namespace FormulaFold

variable {F : Fault → Prop}

namespace Walk

variable {α α' β β' : Type} {S : WalkState → WalkState → Prop} {R : α → α' → Prop}

/-- Results of two runs that went the same way. -/
inductive Matches (S : WalkState → WalkState → Prop) (R : α → α' → Prop) :
    EStateM.Result Fault WalkState α → EStateM.Result Fault WalkState α' → Prop
  | ok {a : α} {a' : α'} {s t : WalkState} (ha : R a a') (hst : S s t) :
      Matches S R (.ok a s) (.ok a' t)
  | error {f : Fault} {s t : WalkState} (hst : S s t) : Matches S R (.error f s) (.error f t)

/-- From related states, two actions go the same way. -/
def Abreast (S : WalkState → WalkState → Prop) (R : α → α' → Prop) (x : Walk α) (x' : Walk α') :
    Prop :=
  ∀ s t, S s t → Matches S R (x s) (x' t)

/-- From states that are related to others, an action stops at faults of the given sort only. -/
def Heeds (S : WalkState → WalkState → Prop) (F : Fault → Prop) (x : Walk α) : Prop :=
  ∀ s t, S s t → ∀ f s', x s = .error f s' → F f

theorem abreast_pure (h : R a a') : Abreast S R (pure a) (pure a') :=
  fun _ _ hst => .ok h hst

theorem abreast_throw (f : Fault) : Abreast S R (throw f) (throw f) := fun _ _ hst => .error hst

theorem Abreast.bind {P : β → β' → Prop} {k : α → Walk β}
    {k' : α' → Walk β'} (hx : Abreast S R x x')
    (hk : ∀ a a', R a a' → Abreast S P (k a) (k' a')) : Abreast S P (x >>= k) (x' >>= k') := by
  intro s t hst
  rw [bind_apply, bind_apply]
  have hmatch := hx s t hst
  generalize x s = r at hmatch ⊢
  generalize x' t = r' at hmatch ⊢
  cases hmatch with
  | ok ha hst => exact hk _ _ ha _ _ hst
  | error hst => exact .error hst

theorem Heeds.bind {k : α → Walk β} (hheeds : Heeds S F x)
    (hx : Abreast S R x x') (hk : ∀ a a', R a a' → Heeds S F (k a)) : Heeds S F (x >>= k) := by
  intro s t hst f s' hf
  have hmatch := hx s t hst
  rw [bind_apply] at hf
  cases h : x s with
  | ok a s₁ =>
    rw [h] at hf hmatch
    generalize x' t = r' at hmatch
    cases hmatch with
    | ok ha hst => exact hk _ _ ha _ _ hst f s' hf
  | error g s₁ =>
    rw [h] at hf
    cases hf
    exact hheeds s t hst _ _ h

/-- What the relation between the states of two walks has to leave open; `c` and `c'` say on which
side folds are done in part. -/
structure Couples (c c' : Bool) (S : WalkState → WalkState → Prop) : Prop where
  bindings : ∀ s t, S s t → t.bindings = s.bindings
  change : ∀ {f : WalkState → WalkState}, Change f → ∀ s t, S s t → S (f s) (f t)
  foldInPart : ∀ e s t, S s t → S (s.foldInPart c e) (t.foldInPart c' e)

section Scopes

theorem abreast_isolated (hS : Couples c c' S) (hx : Abreast S R x x') :
    Abreast S R (isolated x) (isolated x') := by
  intro s t hst
  have hmatch := hx _ _ (hS.change (.bindings .empty) s t hst)
  rw [isolated_apply, isolated_apply]
  unfold within
  rw [hS.bindings s t hst]
  generalize x (under .empty s) = r at hmatch ⊢
  generalize x' (under .empty t) = r' at hmatch ⊢
  cases hmatch with
  | ok ha hst => exact .ok ha (hS.change (.bindings _) _ _ hst)
  | error hst => exact .error (hS.change (.bindings _) _ _ hst)

theorem heeds_pure (a : α) : Heeds S F (pure a) := by
  rintro _ _ _ _ _ ⟨⟩

theorem heeds_throw (hf : F f) : Heeds S F (throw f : Walk α) := by
  intro _ _ _ _ _ h
  cases h
  exact hf

/-- Releasing a scope goes the same way where the same names are bound. -/
theorem abreast_release (hS : Couples c c' S) (hF : ∀ e, F (.bindings e)) (scope : Scope) :
    Abreast S (fun _ _ => True) (naming (.release scope)) (naming (.release scope)) ∧
      Heeds S F (naming (.release scope)) := by
  refine ⟨fun s t hst => ?_, fun s t hst f s' hf => ?_⟩
  · have hb := hS.bindings s t hst
    simp only [naming_apply, hb]
    cases Naming.release scope s.bindings with
    | ok _ b => exact .ok trivial (hS.change (.bindings b) s t hst)
    | error e b => exact .error (hS.change (.bindings b) s t hst)
  · rw [naming_apply] at hf
    split at hf
    · cases hf
    · cases hf
      exact hF _

/-- Going the same way and stopping as forms do by themselves. -/
def Couples.congruence (hS : Couples c c' S) {engine : Engine} {F : Fault → Prop}
    (hF : ∀ {f : Fault}, f.IsOwn engine → F f) : Congruence engine c c' where
  Rel R x x' := Abreast S R x x' ∧ Heeds S F x
  pure h := ⟨abreast_pure h, heeds_pure _⟩
  throw hf := ⟨abreast_throw _, heeds_throw (hF hf)⟩
  bind hx hk := ⟨hx.1.bind fun a a' h => (hk a a' h).1, hx.2.bind hx.1 fun a a' h => (hk a a' h).2⟩
  change hf := ⟨fun s t hst => .ok trivial (hS.change hf s t hst), by rintro _ _ _ _ _ ⟨⟩⟩
  foldInPart e := ⟨fun s t hst => .ok trivial (hS.foldInPart e s t hst), by rintro _ _ _ _ _ ⟨⟩⟩
  bindings {_ _ _ k k'} hk := by
    refine ⟨fun s t hst => ?_, fun s t hst => (hk s.bindings).2 s t hst⟩
    have hright : (get >>= fun s => k' s.bindings) t = k' s.bindings t := by
      rw [← hS.bindings s t hst]
      rfl
    rw [hright]
    exact (hk s.bindings).1 s t hst
  releasing {_ _ _} scope {x x'} hx := by
    obtain ⟨hrelease, hheeds⟩ := abreast_release hS (fun _ => hF trivial) scope
    refine ⟨fun s t hst => ?_, fun s t hst f s' hf => ?_⟩
    · have hmatch := hx.1 s t hst
      unfold Walk.releasing
      generalize x s = r at hmatch ⊢
      generalize x' t = r' at hmatch ⊢
      cases hmatch with
      | ok ha hst => exact hrelease.bind (fun _ _ _ => abreast_pure ha) _ _ hst
      | error hst => exact hrelease.bind (fun _ _ _ => abreast_throw _) _ _ hst
    · have hmatch := hx.1 s t hst
      have hx := hx.2 s t hst
      unfold Walk.releasing at hf
      generalize x s = r at hmatch hx hf
      generalize x' t = r' at hmatch
      cases hmatch with
      | ok _ hst => exact hheeds.bind hrelease (fun _ _ _ => heeds_pure _) _ _ hst f s' hf
      | error hst =>
        exact hheeds.bind hrelease (fun _ _ _ => heeds_throw (hx _ _ rfl)) _ _ hst f s' hf

end Scopes

end Walk

open Walk

section Walks

variable {S : WalkState → WalkState → Prop} {Q : Expr → Expr → Prop} {site : Site}

/-- Going the same way, whatever the walks stop at. -/
def Walk.Couples.anyFault (hS : Couples c c' S) (engine : Engine) : Congruence engine c c' :=
  hS.congruence (F := fun _ => True) fun _ => trivial

theorem abreast_written (hS : Couples c c' S) (e : Expr) :
    Abreast S (· = ·) (site.written e) (site.written e) :=
  ((hS.anyFault site.engine).written e).1

theorem abreast_dynamic (hS : Couples c c' S) (hQ : Agreeable site.book Q) {e e' : Expr}
    (h : e.Like Q e') : Abreast S (Outcome.Like Q) (site.dynamic e) (site.dynamic e') :=
  ((hS.anyFault site.engine).dynamic hQ h).1

/-- **Two walks of one formula go the same way** if they do so at the cells it mentions. -/
theorem abreast_walk (hS : Couples site.partialFolds p S) (hQ : Agreeable site.book Q)
    (hblind : Blind site p Q) {enter enter' : Address → Expr → Action} (e : Expr)
    (hcell : ∀ a, e.Mentions a → Abreast S (Outcome.Like Q) (cellForm site enter a)
      (cellForm (site.withPartialFolds p) enter' a)) :
    Abreast S (Outcome.Like Q) (e.walk site enter) (e.walk (site.withPartialFolds p) enter') :=
  ((hS.anyFault site.engine).walk hQ hblind e (fun _ _ _ => ⟨rfl, rfl⟩) fun a ha =>
    ⟨hcell a ha, fun _ _ _ _ _ _ => trivial⟩).1

end Walks

end FormulaFold
