import FormulaFold.Proofs.Laws
import FormulaFold.Proofs.Preservation
import FormulaFold.Proofs.Restored

/-! # Inputs

What an input is worth is known only in the run, so a reference to one is left as it is and nothing
is remembered of it.  Folding a cell by itself does not ask whether the cell is an input: the
formula of an input is folded and remembered, though no run enters it
(`optimizeCell_input_formula`).  **Of all other inputs nothing is ever remembered, and what is left
of any other cell has the value of the cell** (`optimizeCell_spares_inputs`).
-/
namespace FormulaFold

open Walk

variable {book : Workbook}

/-! ## What is remembered of an input -/

/-- Remembering and forgetting nothing of an input is a law. -/
def Walk.sparesInput (engine : Engine) (book : Workbook) (a : Address)
    (hinput : (book.get a).input = true) : Law engine book where
  Leads s s' := s'.memo.find? a = s.memo.find? a
  Stops _ := True
  folds := True
  refl _ := rfl
  trans h h' := h'.trans h
  fair _ := trivial
  bindings _ _ := rfl
  active _ _ := rfl
  event _ _ := rfl
  stats _ _ _ _ := rfl
  memo s a' c hinput' := by
    refine Memo.find?_set_of_ne _ _ ?_
    rintro rfl
    simp [hinput] at hinput'

/-- Whether the cell is an input that has a formula too, which no run enters. -/
def Workbook.isShadowed (book : Workbook) (a : Address) : Bool :=
  (book.get a).input && (book.get a).formula.isSome

/-- **Nothing is remembered of an input** unless it has a formula and is folded by itself. -/
theorem find?_after_input (hinput : (book.get a).input = true)
    (hcalls : book.isShadowed a = true → ∀ call ∈ history, call.2 ≠ .cell a) :
    (WalkState.after book history).memo.find? a = none := by
  have hrun (s : WalkState) (hs : s.memo.find? a = none) :
      (history.foldl (fun s call => (call.1.perform book call.2).final s) s).memo.find? a =
        none := by
    induction history generalizing s with
    | nil => exact hs
    | cons call rest ih =>
      refine ih (fun hshadowed => (forall_mem_cons.mp (hcalls hshadowed)).2) _ (Eq.trans ?_ hs)
      refine ((sparesInput call.1.engine book a hinput).perform trivial call.2
        fun a' ha' hf => ?_).leads s
      intro s c
      refine Memo.find?_set_of_ne _ _ ?_
      rintro rfl
      have hshadowed : book.isShadowed a = true := by simp [Workbook.isShadowed, hinput, hf]
      exact hcalls hshadowed call mem_cons_self ha'
  exact hrun .initial rfl

/-! ## What is left of a cell -/

variable {ev : Evaluator} {opt : Optimizer} {r : Outcome} {s : WalkState}

/-- The conditions under which folding a formula keeps its value. -/
structure Evaluator.KeepsValue (ev : Evaluator) (plain : Bool) (e : Expr) : Prop where
  precision : ev.engine.precision ≤ 0
  sorted : ev.book.Sorted plain
  inputs : ev.inputs.Fits plain ev.book
  ranges : plain = false → ev.book.Throughout (fun x => x.indexesRange = false) e

theorem Evaluator.KeepsValue.serves {e : Expr} (h : ev.KeepsValue plain e)
    (hengine : opt.engine = ev.engine) (origin : Option Address) :
    ev.Serves False plain (opt.site ev.book origin) :=
  ⟨hengine, rfl, .inr h.precision, False.elim, h.sorted, h.inputs⟩

theorem cellGives_of_optimize {origin : Option Address}
    (hr : opt.optimize book (some (.cell a)) origin s = .ok r s') :
    ∃ R, CellGives (opt.site book origin) s.memo s'.memo R a r := by
  cases gives_walkDeep (fun _ _ _ _ h => h) (gives_optimize (gives_of_ok hr)) with
  | cell h => exact ⟨_, h⟩

/-- An input without a formula is left as it is. -/
theorem expr_optimizeCell_input (hinput : (book.get a).input = true)
    (hformula : (book.get a).formula = none) (hr : opt.optimizeCell book a s = .ok r s') :
    r.expr = .cell a := by
  simp only [Optimizer.optimizeCell, hformula] at hr
  obtain ⟨R, hcell⟩ := cellGives_of_optimize hr
  cases hcell with
  | input => rfl
  | remembered h | literal h | entered h | left h => simp [Optimizer.site, hinput] at h

/-- What is left of a cell that is neither an input nor a formula is its literal value. -/
theorem evaluate_optimizeCell_value (hengine : opt.engine = ev.engine)
    (hformula : (ev.book.get a).formula = none) (hkeeps : ev.KeepsValue plain (.cell a))
    (hs : Earned (· = opt) ev.book s.memo) (hr : opt.optimizeCell ev.book a s = .ok r s')
    (hv : ev.evaluateCell a [] = .ok v []) : ev.evaluate (some r.expr) (some a) [] = .ok v [] := by
  simp only [Optimizer.optimizeCell, hformula] at hr
  obtain ⟨R, hcell⟩ := cellGives_of_optimize hr
  have hserves := hkeeps.serves hengine none
  have henv : (Env.start (some a)).Fits plain ev.book := Env.fits_of_rows (by simp) (some a)
  have hupheld := upholds_cellGives hserves henv (recalls_of_optimize hserves hs hr)
    (.start False.elim (.of_indexesRange hkeeps.ranges)) hcell
  exact (evaluate_of_upheld hupheld hv).1

/-- What is left of a cell is what is left of its formula while the cell is marked. -/
theorem exists_optimize_of_optimizeCell (hformula : (book.get a).formula = some f)
    (ha : a ∉ s.active) (hr : opt.optimizeCell book a s = .ok r s') :
    ∃ t, opt.optimize book (some f) (some a) (s.mark a) = .ok r t := by
  rw [optimizeCell_formula hformula ha] at hr
  obtain ⟨o, t, ho, hr⟩ := bind_ok hr
  obtain ⟨t', ht', -⟩ := marking_ok ho
  have hro : r = o := by
    cases o with
    | residual e =>
      cases hr
      rfl
    | known v t =>
      obtain ⟨_, _, _, hr⟩ := bind_ok hr
      cases hr
      rfl
  exact ⟨t', hro ▸ ht'⟩

/-- What is left of a cell with a formula has the value of the formula, be the cell an input or
not. -/
theorem evaluate_optimizeCell_formula (hengine : opt.engine = ev.engine)
    (hformula : (ev.book.get a).formula = some f) (hkeeps : ev.KeepsValue plain (.cell a))
    (ha : a ∉ s.active) (hs : Earned (· = opt) ev.book s.memo)
    (hr : opt.optimizeCell ev.book a s = .ok r s')
    (hv : ev.evaluate (some f) (some a) [] = .ok v []) :
    ev.evaluate (some r.expr) (some a) [] = .ok v [] := by
  obtain ⟨t, ht⟩ := exists_optimize_of_optimizeCell hformula ha hr
  have hsuited : ev.book.Throughout (Expr.Suits False plain) (.cell a) :=
    .of_indexesRange hkeeps.ranges
  have hupheld := upholds_of_optimize (hkeeps.serves hengine (some a))
    (hkeeps.sorted.formulas a f hformula) (hsuited.formula hformula) (s := s.mark a) hs ht
  exact (evaluate_of_upheld hupheld.1 hv).1

/-- A cell that is not an input has the value of its formula. -/
theorem evaluate_formula_of_evaluateCell (hinput : (ev.book.get a).input = false)
    (hformula : (ev.book.get a).formula = some f) (hv : ev.evaluateCell a [] = .ok v []) :
    ev.evaluate (some f) (some a) [] = .ok v [] := by
  obtain ⟨-, y, hy, rfl⟩ := evaluate_eq_ok_iff.mp hv
  refine evaluate_eq_ok_iff.mpr ⟨rfl, y, ?_, rfl⟩
  cases runs_cell.mp hy with
  | row hrow => cases hrow
  | input _ hinput' => simp [hinput] at hinput'
  | literal _ _ hnone => simp [hformula] at hnone
  | formula _ _ hf hy =>
    cases hformula.symm.trans hf
    unfold Evaluator.atStart at hy ⊢
    cases hlength : ev.book.cells.length with
    | zero =>
      rw [hlength] at hy
      exact absurd hy.2 Run.not_yields_throw
    | succ n =>
      rw [hlength] at hy
      have hrun : ev.Runs n [a] (.start (some a)) f y := hy.2
      exact hrun.mono (Nat.le_succ n) (List.nil_subset _)

/-- **Inputs are never folded, and what is left of a cell has its value**, but for inputs that have
a formula too.  Whatever calls were made, nothing is remembered of an input, unless it has a formula
and was folded by itself.  What is left of a cell evaluates to the value of the cell; this asks
nothing of the workbook if the cell is an input.  An input with a formula is folded as if it were
none: what is left of it evaluates to the value of the formula. -/
theorem optimizeCell_spares_inputs (ev : Evaluator) (history : List (Optimizer × Optimizer.Call))
    (a : Address) :
    ((ev.book.get a).input = true →
      (ev.book.isShadowed a = true → ∀ call ∈ history, call.2 ≠ .cell a) →
        (WalkState.after ev.book history).memo.find? a = none) ∧
    ∀ (opt : Optimizer) (r : Outcome) (s' : WalkState) (v : Value),
      (∀ call ∈ history, call.1.engine = ev.engine) → opt.engine = ev.engine →
      opt.optimizeCell ev.book a (.after ev.book history) = .ok r s' →
      (ev.book.isShadowed a = false →
        ((ev.book.get a).input = false → ∃ plain, ev.KeepsValue plain (.cell a)) →
        ev.evaluateCell a [] = .ok v [] → ev.evaluate (some r.expr) (some a) [] = .ok v []) ∧
      ∀ f plain, (ev.book.get a).formula = some f → ev.KeepsValue plain (.cell a) →
        ev.evaluate (some f) (some a) [] = .ok v [] →
          ev.evaluate (some r.expr) (some a) [] = .ok v [] := by
  refine ⟨fun hinput hcalls => find?_after_input hinput hcalls,
    fun opt r s' v hhistory hengine hr => ?_⟩
  have hearned := earned_after ev.book hengine hhistory
  have hactive : a ∉ (WalkState.after ev.book history).active := by simp [active_after]
  refine ⟨fun hplain hkeeps hv => ?_, fun f plain hformula hkeeps hv =>
    evaluate_optimizeCell_formula hengine hformula hkeeps hactive hearned hr hv⟩
  cases hinput : (ev.book.get a).input with
  | true =>
    have hformula : (ev.book.get a).formula = none := by
      simpa [Workbook.isShadowed, hinput] using hplain
    rw [expr_optimizeCell_input hinput hformula hr]
    exact hv
  | false =>
    obtain ⟨plain, hkeeps⟩ := hkeeps hinput
    cases hformula : (ev.book.get a).formula with
    | none => exact evaluate_optimizeCell_value hengine hformula hkeeps hearned hr hv
    | some f =>
      exact evaluate_optimizeCell_formula hengine hformula hkeeps hactive hearned hr
        (evaluate_formula_of_evaluateCell hinput hformula hv)

namespace InputExample

open Sample KeptExample

/-- The known formula with the input behind it. -/
def mixed : Cell :=
  formulaAt 3 (join (.cell (cellAt 2)) (.cell (cellAt 1)))

/-- An input with a formula. -/
def shadowed : Cell :=
  { input with formula := some (.operator .add [some (number 1.0), some (number 1.0)] .numeric) }

/-- The state after the input and the known formula were folded by themselves. -/
def before : WalkState :=
  .after (evaluator [input, known, mixed]).book
    [(optimizer true, .cell (cellAt 1)), (optimizer false, .cell (cellAt 2))]

theorem keepsValue : (evaluator [input, known, mixed]).KeepsValue true (.cell (cellAt 3)) :=
  ⟨Int.le_refl 0, Workbook.sorted_of_cells (by decide), KeptExample.fits_inputs true _, by simp⟩

end InputExample

open Sample KeptExample InputExample in
/-- After the input was folded by itself nothing is remembered of it, and a formula that refers to
it keeps its value. -/
theorem optimizeCell_spares_inputs_mixed :
    before.memo.find? (cellAt 1) = none ∧
    ∃ s', (optimizer true).optimizeCell (evaluator [input, known, mixed]).book (cellAt 3) before =
        .ok (.residual (join (text "bc") (.cell (cellAt 1)))) s' ∧
      (evaluator [input, known, mixed]).evaluate (some (join (text "bc") (.cell (cellAt 1))))
        (some (cellAt 3)) [] = .ok (.text "bcd") [] := by
  refine ⟨(optimizeCell_spares_inputs (evaluator [input, known, mixed]) _ (cellAt 1)).1 rfl
    (by rintro ⟨⟩), ?_⟩
  obtain ⟨s', hr⟩ : ∃ s', (optimizer true).optimizeCell (evaluator [input, known, mixed]).book
      (cellAt 3) before = .ok (.residual (join (text "bc") (.cell (cellAt 1)))) s' := ⟨_, rfl⟩
  have hkept := (optimizeCell_spares_inputs (evaluator [input, known, mixed]) _ (cellAt 3)).2
    (optimizer true) _ s' (.text "bcd") (by simp [optimizer, evaluator]) rfl hr
  exact ⟨s', hr, hkept.1 rfl (fun _ => ⟨true, keepsValue⟩) rfl⟩

open Sample KeptExample InputExample in
/-- **An input with a formula is folded by itself.**  It has the value of the input, but folding it
gives and remembers the value of its formula. -/
theorem optimizeCell_input_formula :
    (evaluator [shadowed]).evaluateCell (cellAt 1) [] = .ok (.text "d") [] ∧
    ∃ s', (optimizer true).optimizeCell (evaluator [shadowed]).book (cellAt 1) .initial =
        .ok (.known (.number 2.0) .numeric) s' ∧
      s'.memo.find? (cellAt 1) = some ⟨.number 2.0, .numeric⟩ ∧
      (evaluator [shadowed]).evaluate (some (number 2.0))
        (some (cellAt 1)) [] = .ok (.number 2.0) [] :=
  ⟨rfl, _, rfl, rfl, rfl⟩

end FormulaFold
