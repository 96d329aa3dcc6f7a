import FormulaFold.Proofs.Laws

/-! # What folding stops at

A computation that fails as expected is left to the run, wherever it is tried: as the value of a
node, as a condition, as an argument of `AND`, as the filter of a row.  **So a call that stops does
so at a complaint about the formula or at a computation that failed hard**
(`perform_stops_hard`), unless a promise is broken.
-/
namespace FormulaFold

open Walk

/-- How an attempt to compute something ahead of the run counts. -/
inductive Foldability where
  | computed
  /-- The computation is left to the run. -/
  | notFoldable
  | failed
deriving DecidableEq

/-- How a failed computation counts: an expected failure is left to the run. -/
def Failure.foldability (f : Failure) : Foldability :=
  if f.expected then .notFoldable else .failed

/-- How a call counts that stopped at a fault, or at none. -/
def Foldability.of : Option Fault → Foldability
  | none => .computed
  | some f => (f.cause?.map Failure.foldability).getD .failed

theorem Failure.kind_eq_hard {f : Failure} (hexpected : f.expected = false)
    (hcrash : f.kind ≠ .crash) : f.kind = .hard := by
  unfold Failure.expected at hexpected
  cases h : f.kind <;> simp_all

/-- The failed computation that a fair fault passes on was not expected. -/
theorem Fault.Fair.expected {engine : Engine} {f : Fault} {cause : Failure} (h : f.Fair engine)
    (hcause : f.cause? = some cause) : cause.expected = false := by
  by_cases hbroken : f.isBroken = false
  · have hown := h hbroken
    cases f with
    | computing | failed =>
      cases hcause
      exact hown.1
    | _ => cases hcause
  · cases f with
    | computing | failed =>
      cases hcause
      have hcrash : cause.kind = .crash := by simpa [Fault.isBroken] using hbroken
      simp [Failure.expected, hcrash]
    | _ => cases hcause

/-- Stopping fairly is a law. -/
def Walk.stopsFairly (engine : Engine) (book : Workbook) : Law engine book where
  Leads _ _ := True
  Stops := Fault.Fair engine
  folds := True
  refl _ := trivial
  trans _ _ := trivial
  fair := id
  bindings _ _ := trivial
  active _ _ := trivial
  event _ _ := trivial
  stats _ _ _ _ := trivial
  memo _ _ _ _ := trivial

/-- **A call that stops without a broken promise was stopped by a complaint about the formula or by
a computation of the engine that failed hard**, whatever was remembered, marked or bound before.
An expected failure never stops a call, be it met in the formula or in that of a cell. -/
theorem perform_stops_hard {opt : Optimizer} {book : Workbook} {call : Optimizer.Call}
    {s s' : WalkState} {f : Fault} (hstop : opt.perform book call s = .error f s') :
    Foldability.of (some f) = .failed ∧
      (∀ cause, f.cause? = some cause → cause.expected = false) ∧
      (f.isBroken = false → (∃ c shown origin, f = .complaint c shown origin) ∨
        ∃ cause, f.cause? = some cause ∧ cause.kind = .hard ∧ opt.engine.Returns cause) := by
  have hfair : f.Fair opt.engine :=
    ((stopsFairly opt.engine book).perform trivial call fun _ _ _ _ _ => trivial).stops hstop
  cases f with
  | complaint c shown origin =>
    exact ⟨rfl, by simp [Fault.cause?], fun _ => .inl ⟨c, shown, origin, rfl⟩⟩
  | computing shown cause | failed cause =>
    have hexpected : cause.expected = false := hfair.expected rfl
    refine ⟨?_, ?_, fun hbroken => ?_⟩
    · simp [Foldability.of, Fault.cause?, Failure.foldability, hexpected]
    · rintro _ ⟨⟩
      exact hexpected
    · have hhard := Failure.kind_eq_hard hexpected (by simpa [Fault.isBroken] using hbroken)
      exact .inr ⟨cause, rfl, hhard, (hfair hbroken).2 hhard⟩
  | bindings | children | conflict | leftover | missing | tooDeep =>
    exact ⟨rfl, by simp [Fault.cause?], by simp [Fault.isBroken]⟩

namespace StoppedExample

open Sample

/-- A cell that calls a function that there is none of. -/
def book : Workbook := ⟨[formulaAt 1 (.call "NONE" [] .unknown)], []⟩

/-- A condition that fails as expected, and then the cell. -/
def condition : Expr :=
  .call "AND" [some (.call "NOT" [some (text "a")] .unknown), some (.cell (cellAt 1))] .unknown

end StoppedExample

open Sample StoppedExample in
/-- The expected failure is left to the run and counted; the missing function stops the call. -/
theorem perform_stops_hard_condition : ∃ shown s',
    (optimizer true).perform book (.formula (some condition) none) .initial =
      .error (.computing shown (.unsupportedFunction "NONE")) s' ∧ s'.stats.refused = 1 ∧
    Foldability.of (some (.computing shown (.unsupportedFunction "NONE"))) = .failed ∧
    engine.Returns (.unsupportedFunction "NONE") := by
  obtain ⟨shown, s', hstop, hrefused⟩ : ∃ shown s',
      (optimizer true).perform book (.formula (some condition) none) .initial =
        .error (.computing shown (.unsupportedFunction "NONE")) s' ∧ s'.stats.refused = 1 :=
    ⟨_, _, rfl, rfl⟩
  obtain ⟨hfailed, _, hcause⟩ := perform_stops_hard hstop
  obtain ⟨_, _, _, ⟨⟩⟩ | ⟨cause, ⟨⟩, _, hreturns⟩ := hcause rfl
  exact ⟨shown, s', hstop, hrefused, hfailed, hreturns⟩

end FormulaFold
