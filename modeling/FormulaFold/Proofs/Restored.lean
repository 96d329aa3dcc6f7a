import FormulaFold.Proofs.Histories
import FormulaFold.Proofs.RunFrames

/-! # What is left as it was found

Walks bind names, mark cells and remember constants; runs mark the cells that they enter.  All of
it happens inside branches that stop early, at a fault or at a step that is not constant.
**Whichever way a walk or a run ends, the names and the marks are those of before, and what is
remembered of a cell still reads the same** (`restores_state`).  In particular no scope is ever
released out of turn.

The workbook is not part of any state, so no cell can be changed.
-/
namespace FormulaFold

open Walk

variable {E : Memo → Prop} {bound : Prop} {α β : Type}

/-! ## States -/

/-- Whether the names and the marks of `s` are found again in `s'`, and every constant that is
remembered reads the same. -/
structure WalkState.Restored (s s' : WalkState) : Prop where
  bindings : s'.bindings = s.bindings
  active : s'.active = s.active
  memo : ∀ a c, s.memo.find? a = some c →
    ∃ c', s'.memo.find? a = some c' ∧ c'.value.render = c.value.render

namespace WalkState

variable {s : WalkState}

theorem Restored.refl (s : WalkState) : s.Restored s := ⟨rfl, rfl, fun _ c hc => ⟨c, hc, rfl⟩⟩

theorem Restored.trans (h : s.Restored s') (h' : s'.Restored s'') : s.Restored s'' where
  bindings := h'.bindings.trans h.bindings
  active := h'.active.trans h.active
  memo a c hc := by
    obtain ⟨c', hc', htext⟩ := h.memo a c hc
    obtain ⟨c'', hc'', htext'⟩ := h'.memo a c' hc'
    exact ⟨c'', hc'', htext'.trans htext⟩

theorem Grows.restored (h : s.Grows book E s') : s.Restored s' :=
  ⟨h.bindings, h.active, fun a c hc => ⟨c, h.memo a c hc, rfl⟩⟩

end WalkState

/-- Whether names were released out of turn or left bound. -/
def Fault.isUnbalanced : Fault → Bool
  | bindings (.unbalanced ..) | leftover .. => true
  | _ => false

theorem Fault.Allowed.balanced {f : Fault} (h : f.Allowed bound) : f.isUnbalanced = false := by
  rcases h with hraised | ⟨⟨name, rfl⟩, _⟩
  · unfold isUnbalanced
    split
    · cases hraised
    · cases hraised
    · rfl
  · rfl

/-! ## Actions -/

/-- Whether `x` leaves things as it found them when it is run from `s`, whichever way it ends, and
does not release names out of turn. -/
def Walk.RestoresAt (s : WalkState) (x : Walk α) : Prop :=
  s.Restored (x.final s) ∧ ∀ f s', x s = .error f s' → f.isUnbalanced = false

namespace Walk

theorem FramesAt.restoresAt (h : FramesAt book E bound s x) : RestoresAt s x := by
  refine ⟨h.final.restored, fun f s' herror => ?_⟩
  unfold FramesAt at h
  rw [herror] at h
  exact h.2.balanced

theorem RestoresAt.congr (hy : RestoresAt s y) (h : x s = y s) :
    RestoresAt s x := by
  unfold RestoresAt Walk.final at *
  rwa [h]

theorem RestoresAt.bind {f : α → Walk β} (hx : RestoresAt s x)
    (hf : ∀ a s', x s = .ok a s' → RestoresAt s' (f a)) : RestoresAt s (x >>= f) := by
  unfold RestoresAt Walk.final at *
  rw [bind_apply]
  cases h : x s with
  | error e s' => simpa [h] using hx
  | ok a s' =>
    rw [h] at hx
    exact ⟨hx.1.trans (hf a s' h).1, (hf a s' h).2⟩

end Walk

/-- Remembering a constant overwrites one that reads the same, or none. -/
theorem restoresAt_remember (a : Address) (v : Value) (t : DataType) (s : WalkState) :
    RestoresAt s (remember a v t) := by
  have hlearn (hsame : ∀ c, s.memo.find? a = some c → v.render = c.value.render) :
      s.Restored (s.learn a ⟨v, t⟩) := by
    refine ⟨rfl, rfl, fun a' c hc => ?_⟩
    by_cases ha : a' = a
    · subst ha
      exact ⟨⟨v, t⟩, Memo.find?_set_self _ _ _, hsame c hc⟩
    · exact ⟨c, (Memo.find?_set_of_ne _ _ ha).trans hc, rfl⟩
  unfold RestoresAt Walk.final
  cases hc : s.memo.find? a with
  | none =>
    rw [remember_none v t hc]
    exact ⟨hlearn (by simp [hc]), by simp⟩
  | some c =>
    rw [remember_some v t hc]
    by_cases hrender : c.value.render ≠ v.render
    · rw [if_pos hrender]
      refine ⟨.refl s, ?_⟩
      rintro f s' ⟨⟩
      rfl
    · rw [if_neg hrender]
      refine ⟨hlearn fun c' hc' => ?_, by simp⟩
      obtain rfl : c = c' := Option.some.inj (hc.symm.trans hc')
      exact (not_not.mp hrender).symm

theorem restoresAt_rememberKnown (a : Address) (o : Outcome) (s : WalkState) :
    RestoresAt s (rememberKnown a o) := by
  cases o with
  | residual e => exact ⟨.refl s, by rintro _ _ ⟨⟩⟩
  | known v t =>
    exact (restoresAt_remember a v t s).bind fun _ s' _ => ⟨.refl s', by rintro _ _ ⟨⟩⟩

/-- A call leaves things as it found them, whatever is remembered when it is made. -/
theorem restoresAt_perform (opt : Optimizer) (book : Workbook) (call : Optimizer.Call)
    (s : WalkState) : RestoresAt s (opt.perform book call) := by
  have hoptimize (e : Option Expr) (origin : Option Address) (s : WalkState) :
      FramesAt book (Earned (fun _ => True) book) False s (opt.optimize book e origin) :=
    frames_optimize trivial False.elim e False.elim origin s.bindings s rfl
  cases call with
  | formula e origin => exact (hoptimize e origin s).restoresAt
  | cell a =>
    change RestoresAt s (opt.optimizeCell book a)
    cases hformula : (book.get a).formula with
    | none =>
      refine (hoptimize (some (.cell a)) none s).restoresAt.congr ?_
      simp only [Optimizer.optimizeCell, hformula]
    | some f =>
      by_cases ha : a ∈ s.active
      · have hcontains : s.active.contains a = true := by simpa using ha
        refine RestoresAt.congr (y := (opt.site book none).dynamic (.cell a)) ?_ ?_
        · exact (frames_dynamic (.cell a) s rfl :
            FramesAt book (fun _ => True) False s _).restoresAt
        · simp only [Optimizer.optimizeCell, hformula, bind_apply, get_apply, hcontains, if_true]
      · have hmarking := framesAt_marking ha (hoptimize (some f) (some a) (s.mark a))
        refine (hmarking.restoresAt.bind fun o s' _ => ?_).congr (optimizeCell_formula hformula ha)
        exact restoresAt_rememberKnown a o s'

/-- Between calls no cell is marked. -/
theorem active_after (book : Workbook) (history : List (Optimizer × Optimizer.Call)) :
    (WalkState.after book history).active = [] := by
  have hrun (s : WalkState) (hs : s.active = []) :
      (history.foldl (fun s call => (call.1.perform book call.2).final s) s).active = [] := by
    induction history generalizing s with
    | nil => exact hs
    | cons call rest ih => exact ih _ ((restoresAt_perform call.1 book call.2 s).1.active.trans hs)
  exact hrun .initial rfl

/-- The cells being run after `x`, whether it succeeds or not. -/
def Run.final (x : Run α) (visited : List Address) : List Address :=
  match x visited with
  | .ok _ visited' => visited'
  | .error _ visited' => visited'

theorem Run.Keeps.final_eq (h : Run.Keeps bound x) (visited : List Address) :
    x.final visited = visited := by
  have hvisited := h visited
  unfold Run.final
  cases hx : x visited with
  | ok a visited' =>
    rw [hx] at hvisited
    exact hvisited
  | error f visited' =>
    rw [hx] at hvisited
    exact hvisited.1

/-- **Scopes, marks and constants are left as found.**  From any state, with any names bound and
anything remembered, a walk of any formula at any depth and a call of the optimizer leave the bound
names and the marked cells exactly as they were, let every remembered constant read as before, and
never release names out of turn or leave some bound; a run, in any environment, leaves the cells
being run as they were.  All this holds whether they succeed or fail. -/
theorem restores_state (opt : Optimizer) (book : Workbook) (n : Nat) (origin : Option Address)
    (e : Expr) (call : Optimizer.Call) (s : WalkState) (ev : Evaluator) (env : Env)
    (visited : List Address) :
    RestoresAt s (opt.walkDeep book n origin e) ∧ RestoresAt s (opt.perform book call) ∧
      (ev.runDeep n e env).final visited = visited ∧
      (ev.evaluate (some e) origin).final visited = visited := by
  have hframes : Frames book (Earned (fun _ => True) book) False s.bindings
      (opt.walkDeep book n origin e) := frames_walkDeep_open trivial n origin e s.bindings
  have hruns (n : Nat) (env : Env) : Run.Keeps False (ev.runDeep n e env) :=
    keeps_runDeep False.elim n e env (fun _ => true) False.elim False.elim
  exact ⟨(hframes s rfl).restoresAt, restoresAt_perform opt book call s,
    (hruns n env).final_eq visited, ((hruns _ _).map Yield.single).final_eq visited⟩

end FormulaFold
