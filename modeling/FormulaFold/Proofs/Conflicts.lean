import FormulaFold.Proofs.Monotone

/-! # No cell gets two values

Formulas and cells are folded one after the other, and what was remembered of cells stays
remembered between the calls, also after a call that failed.  The formula of a cell may then be
folded again when more is known than before: its own value, or that of a cell that was still
being folded when it was first met on a cycle.  Since knowing more keeps every constant,
**the value found again is the one remembered** (`remember_never_conflicts`).
-/
namespace FormulaFold

open Walk

variable {a : Address} {c : Constant} {f : Expr} {m : Memo} {opt : Optimizer} {O : Optimizer → Prop}
  {s : WalkState} {book : Workbook}

/-! ## Where a remembered constant was found -/

theorem Walk.Gives.mono {α : Type} {L U U' : Memo} {b : Bindings} {x : Walk α} {a : α}
    (h : Gives L U b x a) (hU : U.Within U') : Gives L U' b x a := by
  obtain ⟨s, s', hs, hA, hL, hok, hsU⟩ := h
  exact ⟨s, s', hs, hA, hL, hok, hsU.trans hU⟩

/-- Remembering again what is remembered changes nothing that can be recalled. -/
theorem Memo.find?_set_again (h : m.find? a = some c) (a' : Address) :
    (m.set a c).find? a' = m.find? a' := by
  by_cases ha : a' = a
  · rw [ha, Memo.find?_set_self, h]
  · exact Memo.find?_set_of_ne m c ha

/-- What is remembered of a cell with a formula was given by a walk of the formula that
remembered no more in the end than is remembered now. -/
theorem exists_gives_of_earned (h : Earned O book m) (hformula : (book.get a).formula = some f)
    (hc : m.find? a = some c) : ∃ opt n L, O opt ∧
      Gives L m .empty (opt.walkDeep book n (some a) f) (.known c.value c.type) := by
  induction h with
  | empty => cases hc
  | @literal opt a' m _ _ hliteral hnone _ ih =>
    by_cases ha : a = a'
    · rw [ha, hliteral] at hformula
      cases hformula
    · rw [Memo.find?_set_of_ne m _ ha] at hc
      obtain ⟨opt, n, L, hopt, hgives⟩ := ih hc
      exact ⟨opt, n, L, hopt, hgives.mono (Memo.within_set _ hnone)⟩
  | @formula opt a' f' n s s' v t m hopt hformula' hempty hwalk hwithin hnone _ ih =>
    by_cases ha : a = a'
    · subst ha
      cases hformula.symm.trans hformula'
      rw [Memo.find?_set_self] at hc
      cases hc
      exact ⟨opt, n, s.memo, hopt, s, s', hempty, trivial, .refl _, hwalk,
        hwithin.trans (Memo.within_set _ hnone)⟩
    · rw [Memo.find?_set_of_ne m _ ha] at hc
      obtain ⟨opt, n, L, hopt, hgives⟩ := ih hc
      exact ⟨opt, n, L, hopt, hgives.mono (Memo.within_set _ hnone)⟩
  | @again a' c' m hsome _ ih =>
    rw [Memo.find?_set_again hsome] at hc
    obtain ⟨opt, n, L, hopt, hgives⟩ := ih hc
    refine ⟨opt, n, L, hopt, hgives.mono fun x y hy => ?_⟩
    rwa [Memo.find?_set_again hsome]

/-! ## Folding the formula of a cell -/

/-- Remember the value of a cell when it is known. -/
def rememberKnown (a : Address) : Outcome → Action
  | .known v t => remember a v t >>= fun _ => pure (.known v t)
  | .residual e => pure (.residual e)

theorem rememberKnown_unmark (a : Address) (o : Outcome) (s : WalkState) :
    rememberKnown a o (s.unmark a) = match rememberKnown a o s with
      | .ok r s' => .ok r (s'.unmark a)
      | .error f s' => .error f (s'.unmark a) := by
  cases o with
  | residual e => rfl
  | known v t =>
    simp only [rememberKnown, bind_apply]
    cases hc : s.memo.find? a with
    | none =>
      have hc' : (s.unmark a).memo.find? a = none := hc
      rw [remember_none v t hc, remember_none v t hc']
      rfl
    | some c =>
      have hc' : (s.unmark a).memo.find? a = some c := hc
      rw [remember_some v t hc, remember_some v t hc']
      by_cases hrender : c.value.render ≠ v.render
      · simp only [if_pos hrender]
      · simp only [if_neg hrender]
        rfl

/-- The value of a cell may as well be remembered after its mark was taken off. -/
theorem marking_bind_rememberKnown (a : Address) (x : Action) :
    marking a (x >>= rememberKnown a) = marking a x >>= rememberKnown a := by
  funext s
  rw [marking_apply, bind_apply, bind_apply, marking_apply]
  cases x (s.mark a) with
  | error f s' => rfl
  | ok o s' =>
    dsimp only
    rw [rememberKnown_unmark]
    cases rememberKnown a o s' <;> rfl

theorem optimizeCell_formula (hformula : (book.get a).formula = some f) (ha : a ∉ s.active) :
    opt.optimizeCell book a s =
      (marking a (opt.optimize book (some f) (some a)) >>= rememberKnown a) s := by
  have hcontains : s.active.contains a = false := by simpa using ha
  rw [← marking_bind_rememberKnown]
  unfold Optimizer.optimizeCell
  simp only [hformula, bind_apply, get_apply, hcontains,
    false_eq_true, if_false]
  congr 1
  congr 1
  funext o
  cases o <;> rfl

/-- Remembering again what is remembered. -/
theorem framesAt_remember_again {bound : Prop} (hc : s.memo.find? a = some c) :
    FramesAt book (Earned O book) bound s (remember a c.value c.type) := by
  unfold FramesAt
  rw [remember_some _ _ hc, if_neg (not_not.mpr rfl)]
  refine ⟨rfl, rfl, fun x y hy => ?_, fun x _ _ => Memo.find?_set_again hc x, .again hc,
    Nat.le_refl _⟩
  exact (Memo.find?_set_again hc x).trans hy

/-- **The frame of folding the formula of a cell.**  A cell of which a constant is remembered is
found to have that constant again. -/
theorem framesAt_optimizeCell (hearned : Earned (· = opt) book s.memo) (a : Address) :
    FramesAt book (Earned (· = opt) book) False s (opt.optimizeCell book a) := by
  have hoptimize (e : Expr) (origin : Option Address) (b : Bindings) :
      Frames book (Earned (· = opt) book) False b (opt.optimize book (some e) origin) :=
    frames_optimize (O := (· = opt)) rfl False.elim (some e) False.elim origin b
  cases hformula : (book.get a).formula with
  | none =>
    refine (hoptimize (.cell a) none s.bindings s rfl).congr ?_
    simp only [Optimizer.optimizeCell, hformula]
  | some f =>
    by_cases ha : a ∈ s.active
    · refine (frames_dynamic (.cell a) s rfl : FramesAt book _ False s
        ((opt.site book none).dynamic (.cell a))).congr ?_
      have hcontains : s.active.contains a = true := by simpa using ha
      simp only [Optimizer.optimizeCell, hformula, bind_apply, get_apply, hcontains, if_true]
    · have hinner := hoptimize f (some a) s.bindings (s.mark a) rfl
      have houter := framesAt_marking ha hinner
      refine (houter.bind fun o s' h => ?_).congr (optimizeCell_formula hformula ha)
      cases o with
      | residual e => exact .refl s'
      | known v t =>
        have hgrow := houter.growth h
        have hsame := find?_marking (by simp [hformula]) hinner h
        -- The walk of the formula, from what was remembered before the call.
        have hgives : Gives s.memo s'.memo .empty
            (opt.walkDeep book book.cells.length (some a) f) (.known v t) := by
          obtain ⟨t', ht', rfl⟩ := marking_ok h
          have hrun := gives_of_ok ht'
          exact gives_optimize hrun
        refine FramesAt.bind (x := remember a v t) ?_ fun _ s'' _ => .refl s''
        cases hc : s.memo.find? a with
        | some c =>
          obtain ⟨opt', n, L, rfl, hfound⟩ := exists_gives_of_earned hearned hformula hc
          cases below_of_gives f Bindings.below_empty hfound hgives
          exact framesAt_remember_again (hsame.trans hc)
        | none =>
          refine framesAt_remember (hsame.trans hc) (fun h => absurd (hgrow.active ▸ h) ha) ?_
          obtain ⟨t₁, t₂, hempty, _, _, hwalk, hwithin⟩ := hgives
          exact .formula rfl hformula hempty hwalk hwithin (hsame.trans hc)

/-! ## Calls one after the other -/

/-- One call: to fold a formula as that of a cell, or the formula of a cell. -/
inductive Optimizer.Call where
  | formula (e : Option Expr) (origin : Option Address)
  | cell (a : Address)

/-- Make one call. -/
def Optimizer.perform (opt : Optimizer) (book : Workbook) : Optimizer.Call → Action
  | .formula e origin => opt.optimize book e origin
  | .cell a => opt.optimizeCell book a

/-- The state after calls made one after the other, those that failed included. -/
def Optimizer.session (opt : Optimizer) (book : Workbook) (calls : List Optimizer.Call) :
    WalkState :=
  calls.foldl (fun s call => (opt.perform book call).final s) .initial

theorem framesAt_perform (hearned : Earned (· = opt) book s.memo) (call : Optimizer.Call) :
    FramesAt book (Earned (· = opt) book) False s (opt.perform book call) := by
  cases call with
  | formula e origin =>
    exact frames_optimize (O := (· = opt)) rfl False.elim e False.elim origin s.bindings s rfl
  | cell a => exact framesAt_optimizeCell hearned a

/-- Whatever calls were made, what is remembered was found by walks. -/
theorem earned_session (opt : Optimizer) (book : Workbook) (calls : List Optimizer.Call) :
    Earned (· = opt) book (opt.session book calls).memo := by
  have hrun (s : WalkState) (hs : Earned (· = opt) book s.memo) : Earned (· = opt) book
      (calls.foldl (fun s call => (opt.perform book call).final s) s).memo := by
    induction calls generalizing s with
    | nil => exact hs
    | cons call rest ih => exact ih _ ((framesAt_perform hs call).final.earned hs)
  exact hrun .initial .empty

/-- **No call finds another value of a cell than the one remembered**, on circular workbooks and
after calls that failed.  Nor does a misuse of the bound names take the place of such a conflict,
and what was remembered stays as it was. -/
theorem remember_never_conflicts (opt : Optimizer) (book : Workbook) (calls : List Optimizer.Call)
    (call : Optimizer.Call) :
    (∀ a old new s', opt.perform book call (opt.session book calls) ≠
      .error (.conflict a old new) s') ∧
    (∀ count depth bound s', opt.perform book call (opt.session book calls) ≠
      .error (.bindings (.unbalanced count depth bound)) s') ∧
    (opt.session book calls).memo.Within (opt.session book (calls ++ [call])).memo := by
  have hframe := framesAt_perform (earned_session opt book calls) call
  have hallowed (f : Fault) (s' : WalkState)
      (h : opt.perform book call (opt.session book calls) = .error f s') : f.Allowed False := by
    unfold FramesAt at hframe
    rw [h] at hframe
    exact hframe.2
  refine ⟨fun a old new s' h => ?_, fun count depth bound s' h => ?_, ?_⟩
  · rcases hallowed _ s' h with hraised | ⟨⟨name, hname⟩, _⟩
    · cases hraised
    · cases hname
  · rcases hallowed _ s' h with hraised | ⟨⟨name, hname⟩, _⟩
    · cases hraised
    · cases hname
  · rw [Optimizer.session, Optimizer.session, List.foldl_append]
    exact hframe.final.memo

end FormulaFold
