import FormulaFold.Proofs.RunCongruence

/-! # What a run leaves as it was

A run marks the cells that it enters and unmarks them when it leaves them, whether it succeeds
or not.  `Run.Keeps` says this of an action, together with a promise about its faults: **a run
stops at an unbound name only if the formula refers to one** (`keeps_runDeep`).
-/
namespace FormulaFold

variable {enter : Address → Expr → Evaluation} {ev : Evaluator} {filter : Option Expr}
  {bound : Prop} {st : RunFold} {α β : Type}

namespace Run

/-- The cells being run are the same after `x`; under the promise that all names are bound, it
does not stop at an unbound one. -/
def Keeps (bound : Prop) (x : Run α) : Prop :=
  ∀ visited, match x visited with
    | .ok _ visited' => visited' = visited
    | .error f visited' => visited' = visited ∧ (bound → ∀ name, f ≠ .unbound name)

theorem keeps_pure (a : α) : Keeps bound (pure a : Run α) := fun _ => rfl

theorem keeps_throw (hf : bound → ∀ name, f ≠ .unbound name) :
    Keeps bound (throw f : Run α) := fun _ => ⟨rfl, hf⟩

theorem Keeps.bind {f : α → Run β} (hx : Keeps bound x)
    (hf : ∀ a, Keeps bound (f a)) : Keeps bound (x >>= f) := by
  intro visited
  have hxv := hx visited
  rw [bind_apply]
  cases h : x visited with
  | ok a visited' =>
    rw [h] at hxv
    cases hxv
    exact hf a _
  | error e visited' =>
    rw [h] at hxv
    exact hxv

theorem Keeps.map (hx : Keeps bound x) (f : α → β) : Keeps bound (f <$> x) :=
  hx.bind fun _ => keeps_pure _

theorem keeps_ite {p : Prop} [Decidable p] (hx : Keeps bound x)
    (hy : Keeps bound y) : Keeps bound (if p then x else y) := by
  split
  · exact hx
  · exact hy

/-- Keeping respects the ways of putting runs together; it regards the first of two runs only. -/
def keeping (bound : Prop) : Congruence bound where
  Rel x _ := Keeps bound x
  pure := keeps_pure
  throw {_ f} hf := keeps_throw fun hb name h => by
    subst h
    exact hf hb
  bind := Keeps.bind

theorem Keeps.rel (h : Keeps bound x) : (keeping bound).Rel x x := h

end Run

open Run

section Cells

variable {env : Env}

theorem keeps_visiting {a : Address} {x : Run α} (hx : Keeps bound x) {visited : List Address}
    (ha : a ∉ visited) :
    match visiting a x visited with
    | .ok _ visited' => visited' = visited
    | .error f visited' => visited' = visited ∧ (bound → ∀ name, f ≠ .unbound name) := by
  have hfilter : (a :: visited).filter (· ≠ a) = visited := by
    rw [List.filter_cons_of_neg (by simp)]
    refine filter_eq_self.mpr fun b hb => decide_eq_true ?_
    rintro rfl
    exact ha hb
  have hxv := hx (a :: visited)
  unfold visiting
  cases h : x (a :: visited) with
  | ok r visited' =>
    rw [h] at hxv
    cases hxv
    exact hfilter
  | error f visited' =>
    rw [h] at hxv
    obtain ⟨rfl, hf⟩ := hxv
    exact ⟨hfilter, hf⟩

theorem keeps_cellForm {enter : Address → Expr → Evaluation} {a : Address}
    (henter : ∀ f, (ev.book.get a).formula = some f →
      Keeps bound (enter a f ⟨[], some a, env.rows⟩)) : Keeps bound (ev.cellForm enter a env) := by
  intro visited
  rw [cellForm_apply]
  cases env.cell? a with
  | some v => rfl
  | none =>
    cases (ev.book.get a).input with
    | true =>
      cases ev.inputs.cell? a with
      | some v => rfl
      | none => exact ⟨rfl, fun _ _ => (by simp)⟩
    | false =>
      cases hf : (ev.book.get a).formula with
      | none => rfl
      | some f =>
        cases ha : visited.contains a with
        | true => simp
        | false =>
          have ha : a ∉ visited := by simpa using ha
          simpa using keeps_visiting (henter f hf) ha

end Cells

/-- A run of a formula that refers to bound names only keeps the cells being run if the formulas
of the cells do. -/
theorem keeps_evaluation
    (henter : ∀ a f, (ev.book.get a).formula = some f → ∀ rows,
      Keeps bound (enter a f ⟨[], some a, rows⟩))
    (e : Expr) (env : Env) (p : String → Bool) (he : bound → e.isScoped false p = true)
    (hp : bound → env.Binds p) : Keeps bound (e.evaluation ev enter env) :=
  (keeping bound).evaluation e (fun a _ _ => (keeps_cellForm fun f hf => henter a f hf _).rel) env
    p he hp

/-- **A run whose formula refers to bound names only, in a workbook of closed formulas, leaves
the cells being run as they were and does not stop at an unbound name.** -/
theorem keeps_runDeep
    (hbook : bound → ∀ a f, (ev.book.get a).formula = some f →
      f.isScoped false (fun _ => false) = true)
    (n : Nat) : ∀ (e : Expr) (env : Env) (p : String → Bool), (bound → e.isScoped false p = true) →
      (bound → env.Binds p) → Keeps bound (ev.runDeep n e env) := by
  induction n with
  | zero =>
    intro e
    refine keeps_evaluation (fun _ _ _ _ => keeps_throw ?_) e
    exact fun _ _ => by simp
  | succ n ih =>
    intro e
    refine keeps_evaluation (fun a f hf rows => ?_) e
    exact ih f _ _ (fun hb => hbook hb a f hf) fun _ _ h => by cases h

/-! ## Forms whose children keep the cells being run -/

section Forms

variable {f : Expr → Evaluation} {es : Children} {d : FoldDef Expr}

theorem keeps_attempt {result : Except Failure α} : Keeps False (ev.attempt node result) :=
  ((keeping False).attempt result : (keeping False).Rel _ (ev.attempt node result))

theorem keeps_truth {fn : String} {y : Yield} : Keeps False (ev.truth node fn y) :=
  ((keeping False).truth fn y : (keeping False).Rel _ (ev.truth node fn y))

variable (hf : ∀ e env, Keeps False (f e env))
include hf

theorem keeps_runChild {e : Option Expr} : Keeps False (runChild env (e.map f)) :=
  (keeping False).runChild fun x _ => (hf x env).rel

theorem keeps_runItems : Keeps False (runItems env (es.map (Option.map f))) :=
  (keeping False).runItems fun x _ => (hf x env).rel

theorem keeps_runSingles : Keeps False (runSingles env (es.map (Option.map f))) :=
  (keeping False).runSingles fun x _ => (hf x env).rel

theorem keeps_rowsForm {rows : List Row} :
    Keeps False (Evaluator.rowsForm (es.map (Option.map f)) env rows) :=
  (keeping False).rowsForm (forall₂_same.mpr fun _ _ x _ => (hf x _).rel)

theorem related_of_keeps : d.Related (keeping False) f f env env columns :=
  ⟨fun x _ _ _ _ _ _ _ _ => hf x _, fun x _ _ _ _ => hf x _, fun x _ => hf x _⟩

theorem keeps_start {folded : Nat} :
    Keeps False (RunFold.start (es.map (Option.map f)) folded env) :=
  (keeping False).start fun x _ => (hf x env).rel

theorem keeps_step {elements : List Value} {extra : List (String × Value)} :
    Keeps False (st.step (d.map f) env elements extra) :=
  (keeping False).step (related_of_keeps hf) st elements rfl

theorem keeps_steps {tuples : List (List Value)} : Keeps False (st.steps (d.map f) env tuples) :=
  (keeping False).steps (related_of_keeps hf) st tuples

theorem keeps_runElements : Keeps False (runElements (d.map f) env st (es.map (Option.map f))) :=
  (keeping False).runElements (related_of_keeps hf) (fun x _ => (hf x env).rel) st

theorem keeps_runVectors {first : Option Nat} :
    Keeps False (runVectors env first position (es.map (Option.map f))) :=
  (keeping False).runVectors (fun x _ => (hf x env).rel) first position

theorem keeps_passes {row : List Value} :
    Keeps False (TableRun.passes ⟨columns, filter.map f, column⟩ env position row) :=
  (keeping False).passes (fun x _ _ _ => (hf x _).rel) position row

theorem keeps_runRows {columns : List String} {filter : Option Expr} {column : Int}
    {st : RunFold} {position : Nat} {rows : List (List Value)}
    (hrows : ∀ row ∈ rows, columns.length = row.length) :
    Keeps False (runRows (d.map f) ⟨columns, filter.map f, column⟩ env st position rows) :=
  (keeping False).runRows (fun x _ _ _ => (hf x _).rel) (related_of_keeps hf) st position hrows

end Forms

end FormulaFold
