import FormulaFold.Proofs.Preservation

/-! # Folds whose steps commute

A fold that is marked as commutative takes known elements before the ones that it holds, so it goes
through them in another order than a run.  Where two steps of the run can be swapped
(`Evaluator.Commutes`), every order accumulates the same (`StepsCommute.orderFree`), and what is
left of the fold evaluates to the value of the fold (`evaluate_optimize_commuting`).
-/
namespace FormulaFold

variable {M : Env → Yielding} {init : Expr} {st : RunFold} {ξ : Type} {ev : Evaluator}

/-! ## Steps that can be swapped -/

/-- There are as many accumulators as first values, and none if the first element is the first
value. -/
structure RunFold.Sized (inits : Children) (st : RunFold) : Prop where
  missing : st.accs = none → inits = [none]
  present : ∀ accs, st.accs = some accs → accs.length = inits.length

theorem FoldState.Sized.run {st : FoldState} (h : st.Sized inits) : st.run.Sized inits where
  missing haccs := h.missing (map_eq_none_iff.mp haccs)
  present accs haccs := by
    obtain ⟨accs', haccs', rfl⟩ := map_eq_some_iff.mp haccs
    rw [length_map]
    exact h.present accs' haccs'

theorem sized_of_stepYields
    (hst : st.Sized inits) (h : StepYields M env d st elements extra st') : st'.Sized inits := by
  cases h with
  | first haccs =>
    refine ⟨by simp, fun accs heq => ?_⟩
    cases heq
    rw [hst.missing haccs]
    rfl
  | next haccs _ hnames hys =>
    refine ⟨by simp, fun accs heq => ?_⟩
    cases heq
    rw [length_map, ← hys.length_eq, ← hst.present _ haccs, ← hnames]
    simp [FoldDef.steps, FoldDef.accumulatorNames]

/-- Whether two steps over elements of a kind come to the same in either order, from all
accumulators that a fold with the given first values can have.  If one order fails, so does the
other one. -/
def StepsCommute {ξ : Type} (step : RunFold → ξ → RunFold → Prop) (kind : ξ → Prop)
    (inits : Children) : Prop :=
  ∀ st : RunFold, st.Sized inits → ∀ x y, kind x → kind y → ∀ st',
    (∃ st₁, step st x st₁ ∧ step st₁ y st') ↔ ∃ st₁, step st y st₁ ∧ step st₁ x st'

/-- **Every order accumulates the same** if two steps can be swapped. -/
theorem StepsCommute.folds {step : RunFold → ξ → RunFold → Prop} {kind : ξ → Prop}
    (h : StepsCommute step kind inits)
    (hsized : ∀ st x st', RunFold.Sized inits st → step st x st' → st'.Sized inits)
    (hperm : us.Perm ws) (hkind : ∀ u ∈ us, kind u) (hst : st.Sized inits)
    (hfolds : Folds step st us st') : Folds step st ws st' := by
  induction hperm generalizing st with
  | nil => exact hfolds
  | cons x _ ih =>
    cases hfolds with
    | cons hx hrest =>
      exact .cons hx (ih (forall_mem_cons.mp hkind).2 (hsized _ _ _ hst hx) hrest)
  | swap x y _ =>
    have hkinds := forall_mem_cons.mp hkind
    cases hfolds with
    | cons hy hrest =>
      cases hrest with
      | cons hx hrest =>
        obtain ⟨st₁, hx, hy⟩ := (h _ hst y x hkinds.1 (hkinds.2 x mem_cons_self) _).mp ⟨_, hy, hx⟩
        exact .cons hx (.cons hy hrest)
  | trans hperm _ ih₁ ih₂ =>
    exact ih₂ (fun u hu => hkind u (hperm.mem_iff.mpr hu)) hst (ih₁ hkind hst hfolds)

theorem StepsCommute.orderFree {step : RunFold → ξ → RunFold → Prop} {kind : ξ → Prop}
    (h : StepsCommute step kind inits)
    (hsized : ∀ st x st', RunFold.Sized inits st → step st x st' → st'.Sized inits) :
    OrderFree step kind inits :=
  fun _ hst _ _ _ hkind hperm hfolds => h.folds hsized hperm hkind hst.run hfolds

section Rows

/-- Whether a row of the columns of a table passes its filter. -/
def Runner.Passes (ev : Runner) (env : Env) (columns : List String) (filter : Option Expr)
    (row : List Value) : Prop :=
  row.length = columns.length ∧ PassYields ev.Runs env columns filter row true

/-- The state of a run after a row that passes. -/
abbrev Runner.TakenYields (ev : Runner) (env : Env) (d : FoldDef Expr) (columns : List String)
    (column : Int) (st : RunFold) (row : List Value) : RunFold → Prop :=
  StepYields ev.Runs env d st (d.rowElements column row) (columns.zip row)

/-- Rows can be swapped if those that pass can: whether a row passes does not depend on the
accumulators. -/
theorem StepsCommute.rows {ev : Runner}
    (h : StepsCommute (ev.TakenYields env d columns column)
      (ev.Passes env columns filter) inits) :
    StepsCommute (RowYields ev.Runs env d columns filter column)
      (·.length = columns.length) inits := by
  have hswap (st : RunFold) (hst : st.Sized inits) (x y : List Value)
      (hx : x.length = columns.length) (hy : y.length = columns.length) (st' : RunFold) :
      (∃ st₁, RowYields ev.Runs env d columns filter column st x st₁ ∧
          RowYields ev.Runs env d columns filter column st₁ y st') →
        ∃ st₁, RowYields ev.Runs env d columns filter column st y st₁ ∧
          RowYields ev.Runs env d columns filter column st₁ x st' := by
    rintro ⟨st₁, hstep, hstep'⟩
    cases hstep with
    | dropped hpass => exact ⟨st', hstep', .dropped hpass⟩
    | taken hpass hstep =>
      cases hstep' with
      | dropped hpass' => exact ⟨st, .dropped hpass', .taken hpass hstep⟩
      | taken hpass' hstep' =>
        obtain ⟨st₂, hy, hx⟩ := (h st hst x y ⟨hx, hpass⟩ ⟨hy, hpass'⟩ st').mp ⟨st₁, hstep, hstep'⟩
        exact ⟨st₂, .taken hpass' hy, .taken hpass hx⟩
  exact fun st hst x y hx hy st' => ⟨hswap st hst x y hx hy st', hswap st hst y x hy hx st'⟩

theorem sized_of_rowYields (hst : st.Sized inits)
    (h : RowYields M env d columns filter column st row st') : st'.Sized inits := by
  cases h with
  | dropped => exact hst
  | taken _ hstep => exact sized_of_stepYields hst hstep

end Rows

/-! ## Folds -/

/-- Whether the steps of a fold can be swapped when a run evaluates it: those over two single
values, or over two rows that pass the filter. -/
def Evaluator.Commutes (ev : Evaluator) (origin : Option Address) : Expr → Prop
  | .fold _ d seeds _ _ _ =>
    StepsCommute (ev.atStart.LeafYields (.start origin) d) (·.isArray = false) (d.start seeds)
  | .reduce d seed _ _ _ =>
    StepsCommute (ev.atStart.LeafYields (.start origin) d) (·.isArray = false) [seed]
  | .foldTable d seeds _ columns filter column _ _ =>
    StepsCommute (ev.atStart.TakenYields (.start origin) d (columns.getD []) column)
      (ev.atStart.Passes (.start origin) (columns.getD []) filter) (d.start seeds)
  | _ => True

/-- **What is left of a fold whose steps commute yields what the fold yields.** -/
theorem upholds_commuting {plain : Bool} {site : Site} {L U : Memo} {b : Bindings}
    {entered : Address → Giving} {e : Expr} {r : Outcome}
    (hmeets : ev.Meets False plain site.origin b (.start site.origin))
    (hadmits : ev.atStart.Admits False plain e) (he : e.isSortedFold plain = true)
    (hcommutes : ev.Commutes site.origin e)
    (h : NodeGives False site (CellGives site L U entered)
      (ev.atStart.Sound False plain site.origin) b e r) :
    ev.atStart.Upheld False (.start site.origin) e r := by
  cases e with
  | fold form d seeds folded elements t =>
    cases h with
    | fold hos ho =>
      exact upholds_listFold hmeets .fold hadmits he (.inr ⟨not_false,
        hcommutes.orderFree fun _ _ _ => sized_of_stepYields⟩) (fun _ => .of_sized) hos ho
  | reduce d seed folded elements t =>
    cases h with
    | reduce hos ho =>
      exact upholds_listFold hmeets .reduce hadmits he (.inr ⟨not_false,
        hcommutes.orderFree fun _ _ _ => sized_of_stepYields⟩) (fun _ => .of_sized_seed) hos ho
  | foldTable d seeds folded columns filter column table t =>
    cases h with
    | foldTable ha ho =>
      exact upholds_foldTable hmeets hadmits he (.inr ⟨not_false,
        hcommutes.rows.orderFree fun _ _ _ => sized_of_rowYields⟩) ha ho
  | _ => cases he

/-- **A fold whose steps commute has its value in every order.**  What is left of a fold over a list
or a table evaluates to the value of the fold, and so does a value that is known, where two steps
can be swapped; nothing is rounded, and no formula selects from a written range or all values are
settled. -/
theorem evaluate_optimize_commuting (ev : Evaluator) (opt : Optimizer)
    (hengine : opt.engine = ev.engine) (hprecision : ev.engine.precision ≤ 0) {plain : Bool}
    (hbook : ev.book.Sorted plain) (hinputs : ev.inputs.Fits plain ev.book) {e : Expr}
    (he : e.isSortedFold plain = true) {origin : Option Address}
    (hcommutes : ev.Commutes origin e)
    (hranges : plain = false → ev.book.Throughout (fun x => x.indexesRange = false) e)
    {history : List (Optimizer × Optimizer.Call)}
    (hhistory : ∀ call ∈ history, call.1.engine = ev.engine) {r : Outcome} {s' : WalkState}
    (hr : opt.optimize ev.book (some e) origin (.after ev.book history) = .ok r s') {v : Value}
    (hv : ev.evaluate (some e) origin [] = .ok v []) :
    ev.evaluate (some r.expr) origin [] = .ok v [] ∧ ∀ u t, r = .known u t → u = v := by
  have hserves : ev.Serves False plain (opt.site ev.book origin) :=
    ⟨hengine, rfl, .inr hprecision, False.elim, hbook, hinputs⟩
  have hrecalls := recalls_of_optimize hserves (earned_after ev.book hengine hhistory) hr
  have hmeets : ev.Meets False plain origin .empty (.start origin) :=
    Evaluator.meets_empty (by simp) origin
  have hnode := gives_walkDeep (P := ev.atStart.Sound False plain origin)
    (fun _ p _ _ h => Runner.sound_of_gives hserves hrecalls p h) (gives_of_optimize hr)
  exact evaluate_of_upheld (upholds_commuting hmeets
    (.start False.elim (.of_indexesRange hranges)) he hcommutes hnode) hv

namespace KeptExample

open Sample

/-- A mark for every element. -/
def marks (init : Expr) : FoldDef Expr :=
  ⟨[⟨"acc", some init, join (.letVar "acc" .unknown) (text "i")⟩], some ["x"], "", "", none, none,
    true⟩

/-- Elements that are marked, of which some were marked in the given seeds. -/
def tally (init : Expr) (seeds : List Expr) (folded : Nat) (elements : List Expr) : Expr :=
  .fold .single (marks init) seeds folded (elements.map some) .string

/-- A mark does not depend on the element. -/
theorem leafYields_marks {ev : Runner} {x : Value} (y : Value) (hst : st.accs ≠ none)
    (h : ev.LeafYields env (marks init) st x st') :
    ev.LeafYields env (marks init) st y st' := by
  cases h with
  | first hnone => exact absurd hnone hst
  | @next accs ys haccs _ hnames hys =>
    refine .next haccs rfl hnames (forall₂_imp_of_mem (fun e he z hz => ?_) hys)
    obtain rfl : e = join (.letVar "acc" .unknown) (text "i") := mem_singleton.mp he
    refine Evaluator.runs_of_agrees _ (· == "acc") _ _ z rfl ⟨?_, ?_, fun name hname => ?_⟩ hz
    · simp [FoldDef.stepEnv]
    · simp [FoldDef.stepEnv]
    · obtain rfl : name = "acc" := by simpa using hname
      have hfind (v : Value) : ((marks init).stepEnv env st.folded accs [v] []).find? "acc" =
          (env.setPairs ((marks init).accumulatorNames.zip accs)).find? "acc" := by
        simp [FoldDef.stepEnv, Env.setPairs, Env.find?_set, marks, FoldDef.elementNames]
      rw [hfind, hfind]

theorem commutes_tally (origin : Option Address) (elements : List Expr) :
    ev.Commutes origin (tally init [] 0 elements) := by
  have hswap (st : RunFold) (hst : st.Sized [some init]) (x y : Value) (st' : RunFold) :
      (∃ st₁, ev.atStart.LeafYields (.start origin) (marks init) st x st₁ ∧
        ev.atStart.LeafYields (.start origin) (marks init) st₁ y st') →
      ∃ st₁, ev.atStart.LeafYields (.start origin) (marks init) st y st₁ ∧
        ev.atStart.LeafYields (.start origin) (marks init) st₁ x st' := by
    rintro ⟨st₁, hx, hy⟩
    have hst₁ := sized_of_stepYields hst hx
    exact ⟨st₁, leafYields_marks y (fun h => by cases hst.missing h) hx,
      leafYields_marks x (fun h => by cases hst₁.missing h) hy⟩
  exact fun st hst x y _ _ st' => ⟨hswap st hst x y st', hswap st hst y x st'⟩

/-- Marks for the input and a known element, and what is left of them. -/
def marked : Expr := tally (text "") [] 0 [.cell (cellAt 1), .cell (cellAt 2)]

def markedLeft : Expr := tally (text "") [text "i"] 1 [.cell (cellAt 1)]

end KeptExample

open Sample KeptExample in
/-- A fold that marks a known element before the input in front of it has the value of the fold in
order. -/
theorem evaluate_optimize_commuting_tally :
    (evaluator [input, known]).evaluate (some marked) none [] = .ok (.text "ii") [] ∧
    (∃ s', (optimizer true).optimize (evaluator [input, known]).book (some marked) none
      (.after (evaluator [input, known]).book history) = .ok (.residual markedLeft) s') ∧
    (evaluator [input, known]).evaluate (some markedLeft) none [] = .ok (.text "ii") [] := by
  have hv : (evaluator [input, known]).evaluate (some marked) none [] = .ok (.text "ii") [] := rfl
  obtain ⟨s', hs'⟩ : ∃ s', (optimizer true).optimize (evaluator [input, known]).book (some marked)
    none (.after (evaluator [input, known]).book history) =
      .ok (.residual markedLeft) s' := ⟨_, rfl⟩
  have hbook : (evaluator [input, known]).book.Sorted true := Workbook.sorted_of_cells (by decide)
  have hkept := evaluate_optimize_commuting _ (optimizer true) rfl (Int.le_refl 0) hbook
    (fits_inputs true _) (by decide) (commutes_tally none _) (by simp)
    (by simp [history, optimizer, evaluator]) hs' hv
  exact ⟨hv, ⟨s', hs'⟩, hkept.1⟩

open Sample KeptExample in
/-- **A first value that selects from a written range is not adjusted.**  The steps of the fold
commute, and it evaluates to a mark after the text of zero, but folding it gives one after that of
negative zero. -/
theorem evaluate_optimize_commuting_negative_zero :
    (tally negative [] 0 [text "a"]).isSortedFold false = true ∧
      (evaluator []).Commutes none (tally negative [] 0 [text "a"]) ∧
      (evaluator []).evaluate (some (tally negative [] 0 [text "a"])) none [] =
        .ok (.text "0i") [] ∧
      (∃ s', (optimizer true).optimize (evaluator []).book (some (tally negative [] 0 [text "a"]))
        none .initial = .ok (.known (.text "-0i") .string) s') ∧
      (evaluator []).evaluate (some (text "-0i")) none [] = .ok (.text "-0i") [] :=
  ⟨by decide, commutes_tally none _, rfl, ⟨_, rfl⟩, rfl⟩

end FormulaFold
