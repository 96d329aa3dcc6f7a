import FormulaFold.Proofs.Earned

/-! # Complaints

Where complaints about a formula come from.  `Walk.Spares k` says of an action that it never stops
at a complaint of the kind `k`; it is kept by all that actions are made of.
-/
namespace FormulaFold

open Walk

/-- Whether a fault is a complaint of the given kind. -/
def Fault.isOf (k : ComplaintKind) : Fault → Bool
  | complaint c .. => c.kind == k
  | _ => false

namespace Walk

variable {α β : Type} {k : ComplaintKind} {x : Walk α}

/-- `x` never stops at a complaint of the given kind. -/
def Spares (k : ComplaintKind) (x : Walk α) : Prop :=
  ∀ s f s', x s = .error f s' → f.isOf k = false

theorem spares_of_ok (h : ∀ s, ∃ a s', x s = .ok a s') : Spares k x := by
  intro s f s' herror
  obtain ⟨a, t, hok⟩ := h s
  cases hok.symm.trans herror

theorem spares_pure (a : α) : Spares k (pure a) := spares_of_ok fun s => ⟨a, s, rfl⟩

theorem spares_throw (hf : f.isOf k = false) : Spares k (throw f : Walk α) := by
  intro s g s' h
  cases h
  exact hf

theorem Spares.bind {y : α → Walk β} (hx : Spares k x)
    (hy : ∀ a s s', x s = .ok a s' → Spares k (y a)) : Spares k (x >>= y) := by
  intro s f s' h
  rw [bind_apply] at h
  cases hxs : x s with
  | error g t =>
    rw [hxs] at h
    cases h
    exact hx s f s' hxs
  | ok a t =>
    rw [hxs] at h
    exact hy a s t hxs t f s' h

theorem Spares.then {y : α → Walk β} (hx : Spares k x) (hy : ∀ a, Spares k (y a)) :
    Spares k (x >>= y) := hx.bind fun a _ _ _ => hy a

theorem spares_ite {c : Prop} [Decidable c] (hx : c → Spares k x)
    (hy : ¬c → Spares k y) : Spares k (if c then x else y) := by
  split
  · exact hx ‹_›
  · exact hy ‹_›

theorem spares_get : Spares k (get : Walk WalkState) := spares_of_ok fun s => ⟨s, s, rfl⟩

theorem spares_naming (x : Naming α) : Spares k (naming x) := by
  intro s f s' h
  rw [naming_apply] at h
  split at h
  · cases h
  · cases h
    rfl

theorem Spares.releasing (hx : Spares k x) (scope : Scope) : Spares k (releasing scope x) := by
  have hrelease : Spares k (naming (.release scope)) := spares_naming _
  intro s f s' h
  unfold Walk.releasing at h
  cases hxs : x s with
  | ok a t =>
    rw [hxs] at h
    exact (hrelease.then fun _ => spares_pure a) t f s' h
  | error g t =>
    rw [hxs] at h
    exact (hrelease.then fun _ => spares_throw (hx s g t hxs)) t f s' h

theorem Spares.bindingAll (hx : Spares k x) (names : List String) (os : List Outcome) :
    Spares k (bindingAll names os x) :=
  (spares_naming _).then fun scope => hx.releasing scope

theorem spares_runAll (h : ∀ act, some act ∈ acts → Spares k act) :
    Spares k (runAll acts) := by
  induction acts with
  | nil => exact spares_pure _
  | cons act acts ih =>
    have ih := ih fun act hact => h act (mem_cons_of_mem _ hact)
    cases act with
    | none => exact ih.then fun _ => spares_pure _
    | some act =>
      exact (h act mem_cons_self).then fun _ => ih.then fun _ => spares_pure _

theorem spares_runConstants
    (h : ∀ act, some act ∈ acts → Spares k act) : Spares k (runConstants acts) := by
  induction acts with
  | nil => exact spares_pure _
  | cons act acts ih =>
    have ih := ih fun act hact => h act (mem_cons_of_mem _ hact)
    cases act with
    | none => exact spares_pure _
    | some act =>
      refine (h act mem_cons_self).then fun o => spares_ite (fun _ => spares_pure _) fun _ => ?_
      exact ih.then fun _ => spares_pure _

end Walk

section Nodes

variable {k : ComplaintKind} {site : Site}

theorem spares_written (e : Expr) : Spares k (site.written e) := by
  unfold Site.written
  split
  · exact spares_pure _
  · exact spares_throw rfl

theorem spares_dynamic (e : Expr) : Spares k (site.dynamic e) :=
  spares_ite (fun _ => spares_throw rfl) fun _ => spares_pure _

theorem spares_residual (node : Expr) (os : List Outcome) : Spares k (site.residual node os) := by
  unfold Site.residual
  split
  · exact spares_dynamic _
  · exact spares_throw rfl

end Nodes

/-- A formula that is rejected with a complaint is so by its walk. -/
theorem exists_walkDeep_of_optimize_error {opt : Optimizer} {book : Workbook} {e : Expr}
    {origin : Option Address} {k : ComplaintKind} {s s' : WalkState} {f : Fault}
    (h : opt.optimize book (some e) origin s = .error f s') (hf : f.isOf k = true) :
    ∃ t, opt.walkDeep book book.cells.length origin e (under .empty s) = .error f t := by
  have hsilent {α : Type} {x : Walk α} (hx : Spares k x) {s s' : WalkState} : x s ≠ .error f s' :=
    fun herror => Bool.false_ne_true ((hx s f s' herror).symm.trans hf)
  rw [optimize_some, bind_apply, isolated_apply] at h
  unfold within at h
  cases hb : opt.balanced book e origin (under .empty s) with
  | ok o t =>
    rw [hb] at h
    refine absurd h (hsilent ((spares_written e).then fun _ => (spares_written o.expr).then
      fun _ => Spares.then (spares_of_ok fun s => ⟨(), _, rfl⟩) fun _ => spares_pure o))
  | error g t =>
    rw [hb] at h
    cases h
    rw [Optimizer.balanced, bind_apply] at hb
    cases hw : opt.walkDeep book book.cells.length origin e (under .empty s) with
    | error f' t' =>
      rw [hw] at hb
      cases hb
      exact ⟨t, rfl⟩
    | ok o t' =>
      rw [hw] at hb
      exact absurd hb (hsilent (spares_get.then fun _ =>
        spares_ite (fun _ => spares_throw rfl) fun _ => spares_pure o))

theorem exists_optimize_error {opt : Optimizer} {book : Workbook} {e : Expr} {s t : WalkState}
    (h : opt.walkDeep book book.cells.length origin e (under .empty s) = .error f t) :
    ∃ s', opt.optimize book (some e) origin s = .error f s' := by
  rw [optimize_some, bind_apply, isolated_apply, within, Optimizer.balanced, bind_apply, h]
  exact ⟨_, rfl⟩

end FormulaFold
