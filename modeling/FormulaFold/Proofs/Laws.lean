import FormulaFold.Proofs.Abreast
import FormulaFold.Proofs.Conflicts

/-! # Laws of all calls

A `Walk.Law` says what may become of the state of a walk and what the walk may stop at, by what each
single change of the state may do.  **It holds of every walk and of every call**
(`Walk.Law.walkDeep`, `Walk.Law.perform`).  A cell that is called by itself is the one place where a
constant may be remembered of an input, so there the law is asked for what is remembered.
-/
namespace FormulaFold

open Walk

theorem Walk.bind_ok {α β : Type} {x : Walk α} {k : α → Walk β} {s s' : WalkState} {b : β}
    (h : (x >>= k) s = .ok b s') : ∃ a t, x s = .ok a t ∧ k a t = .ok b s' := by
  rw [bind_apply] at h
  cases hx : x s with
  | ok a t =>
    rw [hx] at h
    exact ⟨a, t, rfl, h⟩
  | error f t =>
    rw [hx] at h
    cases h

/-- Whether the fault is a broken promise or one that a form stops at by itself. -/
def Fault.Fair (engine : Engine) (f : Fault) : Prop := f.isBroken = false → f.IsOwn engine

/-- What may become of the state of a walk, and what the walk may stop at. -/
structure Walk.Law (engine : Engine) (book : Workbook) where
  Leads : WalkState → WalkState → Prop
  Stops : Fault → Prop
  /-- Whether folds may be counted as done in part. -/
  folds : Prop
  refl : ∀ s, Leads s s
  trans : ∀ {s s' s''}, Leads s s' → Leads s' s'' → Leads s s''
  fair : ∀ {f}, f.Fair engine → Stops f
  bindings : ∀ (s : WalkState) (b : Bindings), Leads s { s with bindings := b }
  active : ∀ (s : WalkState) (marks : List Address), Leads s { s with active := marks }
  event : ∀ (s : WalkState) (e : Event), Leads s { s with events := e :: s.events }
  stats : ∀ (s : WalkState) (counts : Stats), s.stats.refused ≤ counts.refused →
    folds ∨ counts.partialFolds = s.stats.partialFolds → Leads s { s with stats := counts }
  memo : ∀ (s : WalkState) (a : Address) (c : Constant), (book.get a).input = false →
    Leads s { s with memo := s.memo.set a c }

namespace Walk.Law

variable {α β : Type} (L : Law engine book)

/-- Whether the law allows an action to end like this when it is run from `s`. -/
def Ends (s : WalkState) : EStateM.Result Fault WalkState α → Prop
  | .ok _ s' => L.Leads s s'
  | .error f s' => L.Leads s s' ∧ L.Stops f

/-- Whether the law holds of an action, from whatever state it is run. -/
def Holds (x : Walk α) : Prop := ∀ s, L.Ends s (x s)

/-! ## Actions -/

section Actions

variable {L}

theorem Ends.after (h : L.Ends s' r) (hs : L.Leads s s') : L.Ends s r := by
  cases r with
  | ok a s'' => exact L.trans hs h
  | error f s'' => exact ⟨L.trans hs h.1, h.2⟩

theorem Holds.leads (hx : L.Holds x) (s : WalkState) : L.Leads s (x.final s) := by
  have hxs := hx s
  unfold Walk.final
  cases h : x s with
  | ok a s' =>
    rw [h] at hxs
    exact hxs
  | error f s' =>
    rw [h] at hxs
    exact hxs.1

theorem Holds.stops (hx : L.Holds x) (h : x s = .error f s') :
    L.Stops f := by
  have hxs := hx s
  rw [h] at hxs
  exact hxs.2

theorem Holds.bind {k : α → Walk β} (hx : L.Holds x) (hk : ∀ a, L.Holds (k a)) :
    L.Holds (x >>= k) := by
  intro s
  have hxs := hx s
  rw [bind_apply]
  cases h : x s with
  | ok a s' =>
    rw [h] at hxs
    exact (hk a s').after hxs
  | error f s' =>
    rw [h] at hxs
    exact hxs

/-- A change of the state before an action and one after it, however it ends. -/
theorem Holds.ensuring (hx : L.Holds x) {before after : WalkState → WalkState}
    (hbefore : ∀ s, L.Leads s (before s)) (hafter : ∀ s, L.Leads s (after s)) (s : WalkState) :
    L.Ends s (Walk.ensuring x after (before s)) := by
  refine Ends.after ?_ (hbefore s)
  have hxs := hx (before s)
  unfold Walk.ensuring
  cases h : x (before s) with
  | ok a s' =>
    rw [h] at hxs
    exact L.trans hxs (hafter s')
  | error f s' =>
    rw [h] at hxs
    exact ⟨L.trans hxs.1 (hafter s'), hxs.2⟩

theorem Holds.isolated (hx : L.Holds x) : L.Holds (isolated x) :=
  fun s => hx.ensuring (fun s => L.bindings s .empty) (fun s' => L.bindings s' s.bindings) s

theorem Holds.marking (hx : L.Holds x) (a : Address) : L.Holds (marking a x) :=
  hx.ensuring (fun s => L.active s _) (fun s => L.active s _)

variable (L)

theorem pure (a : α) : L.Holds (Pure.pure a : Walk α) := fun s => L.refl s

theorem throw (hf : L.Stops f) : L.Holds (MonadExcept.throw f : Walk α) :=
  fun s => ⟨L.refl s, hf⟩

theorem get {k : WalkState → Walk α} (hk : ∀ s, L.Holds (k s)) : L.Holds (MonadState.get >>= k) :=
  fun s => hk s s

theorem record (e : Event) : L.Holds (Walk.record e) := fun s => L.event s e

theorem hit : L.Holds (Walk.tally fun s => { s with cacheHits := s.cacheHits + 1 }) :=
  fun s => L.stats s _ (Nat.le_refl _) (.inr rfl)

theorem remember (hmemo : ∀ s c, L.Leads s { s with memo := s.memo.set a c })
    (v : Value) (t : DataType) : L.Holds (FormulaFold.remember a v t) := by
  intro s
  have hlearn : L.Leads s (s.learn a ⟨v, t⟩) := L.trans (hmemo s ⟨v, t⟩) (L.event _ _)
  cases hc : s.memo.find? a with
  | none =>
    rw [remember_none v t hc]
    exact hlearn
  | some c =>
    rw [remember_some v t hc]
    by_cases hrender : c.value.render ≠ v.render
    · rw [if_pos hrender]
      exact ⟨L.refl s, L.fair (by rintro ⟨⟩)⟩
    · rw [if_neg hrender]
      exact hlearn

end Actions

/-! ## Walks and calls -/

/-- Being the same state, one that the law leads to from `s₀`. -/
def From (s₀ s t : WalkState) : Prop := t = s ∧ L.Leads s₀ s

theorem couples (hc : c = true → L.folds) (s₀ : WalkState) : Couples c c (L.From s₀) where
  bindings _ _ h := by rw [h.1]
  change {f} hf s _ h := by
    refine ⟨congrArg f h.1, L.trans h.2 ?_⟩
    cases hf with
    | event e => exact L.event s e
    | folded => exact L.stats s _ (Nat.le_refl _) (.inr rfl)
    | refused => exact L.stats s _ (Nat.le_succ _) (.inr rfl)
    | bindings b => exact L.bindings s b
  foldInPart e s _ h := by
    refine ⟨congrArg _ h.1, L.trans h.2 ?_⟩
    cases c
    · exact L.refl s
    · exact L.trans (L.stats s { s.stats with partialFolds := s.stats.partialFolds + 1 }
        (Nat.le_refl _) (.inl (hc rfl))) (L.event _ e)

/-- A law as a relation between actions. -/
def congruence (hc : c = true → L.folds) (s₀ : WalkState) : Congruence engine c c :=
  (L.couples hc s₀).congruence (F := L.Stops) fun hf => L.fair fun _ => hf

variable {L} {R : α → α → Prop}

theorem Holds.rel (hx : L.Holds x) (hR : ∀ a, R a a) (hc : c = true → L.folds) (s₀ : WalkState) :
    (L.congruence hc s₀).Rel R x x := by
  refine ⟨fun s t hst => ?_, fun s _ _ f s' h => hx.stops h⟩
  obtain ⟨rfl, hs⟩ := hst
  have hxs := (hx t).after hs
  cases h : x t with
  | ok a t' =>
    rw [h] at hxs
    exact .ok (hR a) ⟨rfl, hxs⟩
  | error f t' =>
    rw [h] at hxs
    exact .error ⟨rfl, hxs.1⟩

theorem holds_of_rel (hc : c = true → L.folds) (h : ∀ s, (L.congruence hc s).Rel R x x') :
    L.Holds x := by
  intro s
  obtain ⟨hx, hheeds⟩ := h s
  have hs : L.From s s s := ⟨rfl, L.refl s⟩
  have hmatch := hx s s hs
  have hstops := hheeds s s hs
  generalize x s = r at hmatch hstops ⊢
  generalize x' s = r' at hmatch
  cases hmatch with
  | ok _ hst => exact hst.2
  | error hst => exact ⟨hst.2, hstops _ _ rfl⟩

section Cells

variable {site : Site} (L : Law site.engine site.book)

theorem dynamic (e : Expr) : L.Holds (site.dynamic e) :=
  holds_of_rel (c := false) (by simp) fun s => (L.congruence _ s).dynamic (agreeable_same site.book)
    ((agreeable_same site.book).like_refl e)

theorem written (e : Expr) : L.Holds (site.written e) :=
  holds_of_rel (c := false) (by simp) fun s => (L.congruence _ s).written e

/-- A law holds of a reference to a cell if it holds of what is done to enter cells. -/
theorem cellForm {enter : Address → Expr → Action}
    (henter : ∀ f, (site.book.get a).formula = some f → L.Holds (enter a f)) :
    L.Holds (FormulaFold.cellForm site enter a) := by
  by_cases hinput : (site.book.get a).input = true
  · rw [cellForm_input hinput]
    exact L.dynamic _
  have hremember (v : Value) (t : DataType) (o : Outcome) :
      L.Holds (FormulaFold.remember a v t >>= fun _ => (Pure.pure o : Action)) :=
    (L.remember (fun s c => L.memo s a c (by simpa using hinput)) v t).bind fun _ => L.pure o
  unfold FormulaFold.cellForm
  simp only [hinput, false_eq_true, if_false]
  refine L.get fun s => ?_
  split
  · exact L.hit.bind fun _ => L.pure _
  · split
    · rename_i hformula
      refine L.get fun s => ?_
      split
      · exact L.dynamic _
      · refine ((henter _ hformula).isolated.marking a).bind fun o => ?_
        cases o with
        | known v t => exact hremember v t _
        | residual _ => exact L.dynamic _
    · exact hremember _ _ _

end Cells

section Calls

variable {opt : Optimizer} (L : Law opt.engine book)

/-- A law that allows no fold to be counted as done in part holds of formulas that lead to none. -/
theorem walkDeep (n : Nat) (origin : Option Address) (e : Expr)
    (hfolds : L.folds ∨ book.Foldless e) : L.Holds (opt.walkDeep book n origin e) := by
  have hwalk (n : Nat) (origin : Option Address) (e : Expr) (hfolds : L.folds ∨ book.Foldless e)
      (henter : ∀ a f, L.folds ∨ book.Foldless f → L.Holds (opt.enter book n a f)) :
      L.Holds (opt.walkDeep book n origin e) := by
    have hQ := agreeable_same book
    have hblind : Blind (opt.site book origin) opt.partialFolds Expr.Same := fun hp => absurd rfl hp
    obtain ⟨c, hc, hcounts⟩ : ∃ c, (c = true → L.folds) ∧
        ∀ x : Expr, x.OccursIn e → x.isFold = true → c = opt.partialFolds := by
      rcases hfolds with hfolds | hfolds
      · exact ⟨_, fun _ => hfolds, fun _ _ _ => rfl⟩
      · exact ⟨false, by simp, fun x hx h => by simp [hfolds.nodes x hx] at h⟩
    have hcell (a : Address) (ha : e.Mentions a) :=
      @cellForm (opt.site book origin) L a (opt.enter book n) fun f hf =>
        henter a f (hfolds.imp_right fun h => h.of_mentions ha hf)
    rw [Optimizer.walkDeep_eq]
    exact holds_of_rel hc fun s => (L.congruence hc s).walk hQ hblind e
      (fun x hx h => ⟨hcounts x hx h, hcounts x hx h⟩) fun a ha =>
        (hcell a ha).rel hQ.outcome_refl hc s
  induction n generalizing origin e with
  | zero => exact hwalk 0 origin e hfolds fun _ _ _ => L.throw (L.fair (by rintro ⟨⟩))
  | succ n ih => exact hwalk (n + 1) origin e hfolds fun a f => ih (some a) f

variable (hfolds : L.folds)
include hfolds

theorem optimize (e : Option Expr) (origin : Option Address) :
    L.Holds (opt.optimize book e origin) := by
  cases e with
  | none => exact L.throw (L.fair (by rintro ⟨⟩))
  | some e =>
    have hwritten (e : Expr) : L.Holds ((opt.site book origin).written e) :=
      @written (opt.site book origin) L e
    have hbalanced : L.Holds (opt.balanced book e origin) := by
      refine (L.walkDeep _ origin e (.inl hfolds)).bind fun o => L.get fun s => ?_
      split
      · exact L.throw (L.fair (by rintro ⟨⟩))
      · exact L.pure o
    rw [optimize_some]
    exact hbalanced.isolated.bind fun o => (hwritten e).bind fun _ =>
      (hwritten o.expr).bind fun _ =>
      (L.record _).bind fun _ => L.pure o

/-- **A law holds of every call**, of one to fold the formula of a cell if a constant of this cell
may be remembered. -/
theorem perform (call : Optimizer.Call) (hcell : ∀ a, call = .cell a →
    (book.get a).formula.isSome → ∀ s c, L.Leads s { s with memo := s.memo.set a c }) :
    L.Holds (opt.perform book call) := by
  cases call with
  | formula e origin => exact L.optimize hfolds e origin
  | cell a =>
    change L.Holds (opt.optimizeCell book a)
    unfold Optimizer.optimizeCell
    cases hformula : (book.get a).formula with
    | none => exact L.optimize hfolds _ _
    | some f =>
      have hmemo := hcell a rfl (by simp [hformula])
      refine L.get fun s => ?_
      split
      · exact @dynamic (opt.site book none) L _
      · refine Holds.marking ((L.optimize hfolds _ _).bind fun o => ?_) a
        cases o with
        | known v t => exact (L.remember hmemo v t).bind fun _ => L.pure _
        | residual e => exact L.pure _

end Calls

end Walk.Law

/-- No fold is counted as done in part. -/
def Walk.countsNoFold (engine : Engine) (book : Workbook) : Law engine book where
  Leads s s' := s'.stats.partialFolds = s.stats.partialFolds
  Stops _ := True
  folds := False
  refl _ := rfl
  trans h h' := h'.trans h
  fair _ := trivial
  bindings _ _ := rfl
  active _ _ := rfl
  event _ _ := rfl
  stats _ _ _ h := h.resolve_left id
  memo _ _ _ _ := rfl

/-- **Where there are no folds, none is counted as done in part.** -/
theorem partialFolds_of_walkDeep {opt : Optimizer} {book : Workbook} (h : book.Foldless e)
    (hok : opt.walkDeep book n origin e s = .ok o s') :
    s'.stats.partialFolds = s.stats.partialFolds := by
  have hends := (countsNoFold opt.engine book).walkDeep n origin e (.inr h) s
  rwa [hok] at hends

end FormulaFold
