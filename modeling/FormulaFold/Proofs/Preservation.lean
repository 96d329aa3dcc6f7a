import FormulaFold.Proofs.Histories
import FormulaFold.Proofs.Soundness

/-! # Folded formulas evaluate as they did

What is left of a sorted formula evaluates to the value of the formula (`evaluate_optimize`), and on
a workbook without cycles it fails where the formula fails (`evaluate_optimize_fails`), whatever was
folded before.

`INDEX` is in the way of both.  Where it selects from a written range, folding it gives the element
as it stands, but a run adjusts the value: negative zero becomes zero.  So a folded formula can
evaluate to another text (`evaluate_optimize_negative_zero`), and values are kept only where no
formula selects from a written range or all values are settled.
-/
namespace FormulaFold

open Walk

variable {ev : Evaluator} {strict : Prop} {opt : Optimizer} {e : Expr}

/-! ## Evaluation -/

theorem evaluate_eq_ok_iff {v : Value} {visited : List Address} :
    ev.evaluate (some e) origin [] = .ok v visited ↔
      visited = [] ∧ ∃ y, ev.atStart.Runs (.start origin) e y ∧ v = y.single := by
  have heval : ev.evaluate (some e) origin =
      Yield.single <$> ev.runDeep ev.book.cells.length e (.start origin) := rfl
  have hkeeps := ev.keeps_run ev.book.cells.length e (.start origin)
  constructor
  · intro h
    have hvisited : visited = [] := by
      have hframe := hkeeps.map Yield.single []
      rw [← heval, h] at hframe
      exact hframe
    subst hvisited
    exact ⟨rfl, (Run.yields_map hkeeps).mp (heval ▸ h)⟩
  · rintro ⟨rfl, hy⟩
    rw [heval]
    exact (Run.yields_map hkeeps).mpr hy

theorem evaluate_fails_iff :
    (∃ f visited, ev.evaluate (some e) origin [] = .error f visited) ↔
      ∀ y, ¬ev.atStart.Runs (.start origin) e y := by
  cases h : ev.evaluate (some e) origin [] with
  | ok v visited =>
    obtain ⟨_, y, hy, _⟩ := evaluate_eq_ok_iff.mp h
    simp only [reduceCtorEq, exists_false, false_iff, not_forall, not_not]
    exact ⟨y, hy⟩
  | error f visited =>
    refine iff_of_true ⟨f, visited, rfl⟩ fun y hy => ?_
    cases h.symm.trans (evaluate_eq_ok_iff.mpr ⟨rfl, y, hy, rfl⟩)

/-! ## Folding -/

/-- **What is remembered after a formula was folded is right** if walks had found what was
remembered before. -/
theorem recalls_of_optimize (hserves : ev.Serves strict plain (opt.site ev.book origin))
    {s s' : WalkState} (hs : Earned (· = opt) ev.book s.memo)
    (hr : opt.optimize ev.book (some e) origin s = .ok r s') : ev.Recalls strict plain s'.memo := by
  have hframe := framesAt_perform hs (.formula (some e) origin)
  refine Evaluator.recalls_of_earned (fun opt' hopt origin' => ?_) ((hframe.growth hr).earned hs)
  subst hopt
  exact ⟨hserves.engine, rfl, hserves.precision, hserves.acyclic, hserves.sorted, hserves.inputs⟩

theorem gives_of_optimize {s s' : WalkState}
    (hr : opt.optimize ev.book (some e) origin s = .ok r s') :
    Gives s.memo s'.memo .empty (opt.walkDeep ev.book ev.book.cells.length origin e) r :=
  gives_optimize (b := s.bindings) (gives_of_ok hr)

/-- What is left of a formula yields what the formula yields, if walks had found what was
remembered before. -/
theorem upholds_of_optimize (hserves : ev.Serves strict plain (opt.site ev.book origin))
    (he : e.isSorted plain .scalar = true)
    (hsuited : ev.book.Throughout (Expr.Suits strict plain) e)
    {s s' : WalkState} (hs : Earned (· = opt) ev.book s.memo)
    (hr : opt.optimize ev.book (some e) origin s = .ok r s') :
    ev.atStart.UpheldAs strict plain .scalar (.start origin) e r := by
  have hmeets : ev.Meets strict plain origin .empty (.start origin) :=
    Evaluator.meets_empty (by simp) origin
  exact (Runner.sound_of_gives hserves (recalls_of_optimize hserves hs hr) e
    (gives_of_optimize hr)).upheldAs hmeets (.start hserves.acyclic hsuited) he (by simp)

namespace KeptExample

open Sample

/-- A formula that is known. -/
def known : Cell := formulaAt 2 (join (text "b") (text "c"))

/-- A cell that refers to itself. -/
def circular : Cell := formulaAt 3 (.cell (cellAt 3))

/-- The texts of elements one after the other, of which some were joined to the given seeds. -/
def joined (seeds : List Expr) (folded : Nat) (elements : List Expr) : Expr :=
  .fold .single ⟨[⟨"acc", some (text ""), join (.letVar "acc" .unknown) (.letVar "x" .unknown)⟩],
    some ["x"], "", "", none, none, false⟩ seeds folded (elements.map some) .string

def evaluator (cells : List Cell) : Evaluator :=
  ⟨engine, ⟨cells, []⟩, ⟨[(cellAt 1, .text "d")], []⟩⟩

/-- An earlier call under the other setting that remembers the known formula. -/
def history : List (Optimizer × Optimizer.Call) := [(optimizer false, .cell (cellAt 2))]

theorem fits_inputs (plain : Bool) (cells : List Cell) :
    (evaluator cells).inputs.Fits plain (evaluator cells).book where
  cells _ a v hv := by
    have hv : v = .text "d" := by
      simp only [evaluator, Inputs.cell?, lookup_cons, List.lookup_nil] at hv
      split at hv <;> cases hv
      rfl
    rw [hv]
    rfl
  rows s row hrow := by
    cases s <;> simp [evaluator, Inputs.rows] at hrow

end KeptExample

/-! ## Failures -/

theorem Expr.suits_of_keepsFailures {x : Expr} (h : x.keepsFailures = true) :
    x.Suits True false := by
  refine ⟨fun _ => ?_, fun _ => h⟩
  unfold indexesRange
  split
  · simp only [keepsFailures] at h
    simp_all
  · rfl

/-- **A failing formula is never folded into a value.**  On a workbook without cycles, what is left
of a sorted formula without `letIn`, `AND`, `OR`, `INDEX`, `ROW` and `COLUMN` and without folds over
tables that have no rows fails where the formula fails, at every precision. -/
theorem evaluate_optimize_fails (ev : Evaluator) (opt : Optimizer)
    (hengine : opt.engine = ev.engine) (hacyclic : ev.book.Acyclic) (hbook : ev.book.Sorted false)
    (hinputs : ev.inputs.Fits false ev.book) {e : Expr} (he : e.isSorted false .scalar = true)
    (hkeeps : ev.book.Throughout (fun x => x.keepsFailures = true) e)
    {history : List (Optimizer × Optimizer.Call)}
    (hhistory : ∀ call ∈ history, call.1.engine = ev.engine) {origin : Option Address} {r : Outcome}
    {s' : WalkState}
    (hr : opt.optimize ev.book (some e) origin (.after ev.book history) = .ok r s')
    {f : RunFault} {visited : List Address}
    (hfails : ev.evaluate (some e) origin [] = .error f visited) :
    ∃ f' visited', ev.evaluate (some r.expr) origin [] = .error f' visited' := by
  have hserves : ev.Serves True false (opt.site ev.book origin) :=
    ⟨hengine, rfl, .inl ⟨trivial, rfl⟩, fun _ => hacyclic, hbook, hinputs⟩
  have hupheld := (upholds_of_optimize hserves he
    (hkeeps.imp fun _ => Expr.suits_of_keepsFailures) (earned_after ev.book hengine hhistory) hr).1
  have hnone := evaluate_fails_iff.mp ⟨f, visited, hfails⟩
  exact evaluate_fails_iff.mpr fun y hy => hnone y (hupheld.back trivial y hy)

namespace KeptExample

open Sample

/-- An element that fails. -/
def failing : Expr := .call "NOT" [some (.cell (cellAt 1))] .unknown

/-- Joined texts of which the last one fails, and what is left of them. -/
def failed : Expr := joined [] 0 [text "a", .cell (cellAt 2), failing]

def failedLeft : Expr := joined [text "abc"] 2 [failing]

theorem acyclic_known : (evaluator [input, known]).book.Acyclic := by
  refine Workbook.acyclic_of_lt _ (fun _ => 0) ?_
  rintro a c ⟨f, hf, hc⟩
  obtain ⟨cell, hcell, _, hformula⟩ := Workbook.exists_cell_of_formula hf
  obtain rfl | rfl : cell = input ∨ cell = known := by simpa [evaluator] using hcell
  · cases hformula
  · cases hformula
    rw [join, Expr.mentions_iff_of_ne (by simp)] at hc
    simp [parts, present, text] at hc

theorem keepsFailures_join (hx : ∀ z : Expr, z.OccursIn x → z.keepsFailures = true)
    (hy : ∀ z : Expr, z.OccursIn y → z.keepsFailures = true) :
    ∀ z : Expr, z.OccursIn (join x y) → z.keepsFailures = true :=
  Expr.forall_occursIn rfl (by simpa [join, parts, present] using ⟨hx, hy⟩)

theorem keepsFailures_leaf (hx : x.keepsFailures = true) (hparts : x.parts = []) :
    ∀ z : Expr, z.OccursIn x → z.keepsFailures = true :=
  Expr.forall_occursIn hx (by simp [hparts])

theorem keepsFailures_failed : (evaluator [input, known]).book.Throughout
    (fun x => x.keepsFailures = true) failed := by
  refine .of_cells (Expr.forall_occursIn rfl fun p hp => ?_) fun cell hcell f hf => ?_
  · have hp : p = text "" ∨ p = join (.letVar "acc" .unknown) (.letVar "x" .unknown) ∨
        p = text "a" ∨ p = .cell (cellAt 2) ∨ p = failing := by
      simpa [failed, joined, parts, FoldDef.parts, FoldDef.inits, FoldDef.steps, present] using hp
    obtain rfl | rfl | rfl | rfl | rfl := hp
    · exact keepsFailures_leaf rfl rfl
    · exact keepsFailures_join (keepsFailures_leaf rfl rfl) (keepsFailures_leaf rfl rfl)
    · exact keepsFailures_leaf rfl rfl
    · exact keepsFailures_leaf rfl rfl
    · refine Expr.forall_occursIn (by decide) ?_
      simpa [failing, parts, present] using keepsFailures_leaf rfl rfl
  · obtain rfl | rfl : cell = input ∨ cell = known := by simpa [evaluator] using hcell
    · cases hf
    · cases hf
      exact keepsFailures_join (keepsFailures_leaf rfl rfl) (keepsFailures_leaf rfl rfl)

end KeptExample

open Sample KeptExample in
/-- A fold that is done in part fails as the whole fold does. -/
theorem evaluate_optimize_fails_joined :
    (∃ f, (evaluator [input, known]).evaluate (some failed) none [] = .error f []) ∧
    (∃ s', (optimizer true).optimize (evaluator [input, known]).book (some failed) none
      (.after (evaluator [input, known]).book history) = .ok (.residual failedLeft) s') ∧
    ∃ f' visited', (evaluator [input, known]).evaluate (some failedLeft) none [] =
      .error f' visited' := by
  obtain ⟨f, hf⟩ : ∃ f, (evaluator [input, known]).evaluate (some failed) none [] = .error f [] :=
    ⟨_, rfl⟩
  obtain ⟨s', hs'⟩ : ∃ s', (optimizer true).optimize (evaluator [input, known]).book (some failed)
    none (.after (evaluator [input, known]).book history) =
      .ok (.residual failedLeft) s' := ⟨_, rfl⟩
  exact ⟨⟨f, hf⟩, ⟨s', hs'⟩, evaluate_optimize_fails _ (optimizer true) rfl acyclic_known
    (Workbook.sorted_of_cells (by decide)) (fits_inputs false _) (by decide) keepsFailures_failed
    (by simp [history, optimizer, evaluator]) hs' hf⟩

namespace KeptExample

open Sample

/-- A fold over a table with two elements, the number of rows times two being two only as a word. -/
def wrapped : Expr :=
  .foldTable ⟨[⟨"acc", some (text ""), .call "NOT" [some (text "a")] .unknown⟩], some ["x"], "", "",
    none, none, false⟩ [] 0 (some ["p", "q"]) none 0
    (some (.range (-9223372036854775807) 2 [some (text "b"), some (text "c")])) .string

end KeptExample

open Sample KeptExample in
/-- **A table with a number of rows below zero has no rows ahead of the run, but one in it.**  The
fold over it fails, and is folded into its first value. -/
theorem evaluate_optimize_fails_wrapped :
    (∃ f, (evaluator []).evaluate (some wrapped) none [] = .error f []) ∧
      (∃ s', (optimizer true).optimize (evaluator []).book (some wrapped) none .initial =
        .ok (.known (.text "") .string) s') ∧
      (evaluator []).evaluate (some (text "")) none [] = .ok (.text "") [] :=
  ⟨⟨_, rfl⟩, ⟨_, rfl⟩, rfl⟩

/-! ## Values -/

theorem Workbook.Throughout.of_indexesRange {book : Workbook}
    (h : plain = false → book.Throughout (fun x => x.indexesRange = false) e) :
    book.Throughout (Expr.Suits False plain) e := by
  cases plain with
  | true => exact ⟨fun x _ => ⟨by simp, False.elim⟩, fun _ _ _ _ x _ => ⟨by simp, False.elim⟩⟩
  | false => exact (h rfl).imp fun x hx => ⟨fun _ => hx, False.elim⟩

/-- What is left of a formula has its value if it yields what the formula yields. -/
theorem evaluate_of_upheld
    (h : ev.atStart.Upheld strict (.start origin) e r) {v : Value}
    (hv : ev.evaluate (some e) origin [] = .ok v []) :
    ev.evaluate (some r.expr) origin [] = .ok v [] ∧ ∀ u t, r = .known u t → u = v := by
  obtain ⟨_, y, hy, rfl⟩ := evaluate_eq_ok_iff.mp hv
  have hy := h.forth y hy
  refine ⟨evaluate_eq_ok_iff.mpr ⟨rfl, y, hy, rfl⟩, ?_⟩
  rintro u t rfl
  rw [runs_constant.mp hy]
  rfl

/-- **A folded formula has the value of the formula.**  What is left of a sorted formula evaluates
to the value of the formula, and so does a value that is known, where nothing is rounded and no
formula selects from a written range; or where all values are settled. -/
theorem evaluate_optimize (ev : Evaluator) (opt : Optimizer) (hengine : opt.engine = ev.engine)
    (hprecision : ev.engine.precision ≤ 0) {plain : Bool} (hbook : ev.book.Sorted plain)
    (hinputs : ev.inputs.Fits plain ev.book) {e : Expr} (he : e.isSorted plain .scalar = true)
    (hranges : plain = false → ev.book.Throughout (fun x => x.indexesRange = false) e)
    {history : List (Optimizer × Optimizer.Call)}
    (hhistory : ∀ call ∈ history, call.1.engine = ev.engine) {origin : Option Address} {r : Outcome}
    {s' : WalkState}
    (hr : opt.optimize ev.book (some e) origin (.after ev.book history) = .ok r s') {v : Value}
    (hv : ev.evaluate (some e) origin [] = .ok v []) :
    ev.evaluate (some r.expr) origin [] = .ok v [] ∧ ∀ u t, r = .known u t → u = v := by
  have hserves : ev.Serves False plain (opt.site ev.book origin) :=
    ⟨hengine, rfl, .inr hprecision, False.elim, hbook, hinputs⟩
  exact evaluate_of_upheld (upholds_of_optimize hserves he (.of_indexesRange hranges)
    (earned_after ev.book hengine hhistory) hr).1 hv

namespace KeptExample

open Sample

def cyclic : Evaluator := evaluator [input, known, circular]

/-- Joined texts, and what is left of them. -/
def texts : Expr := joined [] 0 [text "a", .cell (cellAt 2), .cell (cellAt 1)]

def textsLeft : Expr := joined [text "abc"] 2 [.cell (cellAt 1)]

end KeptExample

open Sample KeptExample in
/-- A fold that is done in part has the value of the whole fold, on a workbook with a cycle. -/
theorem evaluate_optimize_joined :
    cyclic.evaluate (some texts) none [] = .ok (.text "abcd") [] ∧
    (∃ s', (optimizer true).optimize cyclic.book (some texts) none (.after cyclic.book history) =
      .ok (.residual textsLeft) s') ∧
    cyclic.evaluate (some textsLeft) none [] = .ok (.text "abcd") [] := by
  have hv : cyclic.evaluate (some texts) none [] = .ok (.text "abcd") [] := rfl
  obtain ⟨s', hs'⟩ : ∃ s', (optimizer true).optimize cyclic.book (some texts) none
    (.after cyclic.book history) = .ok (.residual textsLeft) s' := ⟨_, rfl⟩
  have hbook : cyclic.book.Sorted true := Workbook.sorted_of_cells (by decide)
  have hkept := evaluate_optimize _ (optimizer true) rfl (Int.le_refl 0) hbook
    (fits_inputs true _) (by decide) (by simp)
    (by simp [history, optimizer, evaluator, cyclic]) hs' hv
  exact ⟨hv, ⟨s', hs'⟩, hkept.1⟩

namespace KeptExample

open Sample

/-- The text of the negative zero that is selected from a written range. -/
def negative : Expr :=
  .call "CONCATENATE" [some (.call "INDEX" [some (.range 1 1 [some (number (-0.0))]),
    some (number 1.0)] .unknown)] .unknown

end KeptExample

open Sample KeptExample in
/-- **Selecting from a written range does not adjust what is selected.**  The formula is sorted and
evaluates to the text of zero, but folding it gives that of negative zero. -/
theorem evaluate_optimize_negative_zero :
    negative.isSorted false .scalar = true ∧
      (evaluator []).evaluate (some negative) none [] = .ok (.text "0") [] ∧
      (∃ s', (optimizer true).optimize (evaluator []).book (some negative) none .initial =
        .ok (.known (.text "-0") .string) s') ∧
      (evaluator []).evaluate (some (text "-0")) none [] = .ok (.text "-0") [] :=
  ⟨by decide, rfl, ⟨_, rfl⟩, rfl⟩

end FormulaFold
