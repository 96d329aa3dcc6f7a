import FormulaFold.Proofs.Meaning

/-! # Environments that agree

What a formula yields depends on the names it refers to and on nothing else that is bound.  Two
environments with the same origin and rows that agree on those names **yield the same**
(`Evaluator.runs_of_agrees`).
-/
namespace FormulaFold

variable {env env' : Env}

/-- The environments differ at most in names that do not satisfy `p`. -/
structure Env.Agrees (p : String → Bool) (env env' : Env) : Prop where
  origin : env'.origin = env.origin
  rows : env'.rows = env.rows
  names : ∀ x, p x = true → env'.find? x = env.find? x

namespace Env

variable {p q : String → Bool}

@[simp] theorem set_origin (env : Env) (name : String) (y : Yield) :
    (env.set name y).origin = env.origin := by
  unfold set
  split <;> rfl

@[simp] theorem set_rows (env : Env) (name : String) (y : Yield) :
    (env.set name y).rows = env.rows := by
  unfold set
  split <;> rfl

theorem Agrees.imp (h : env.Agrees p env') (hpq : ∀ x, q x = true → p x = true) :
    env.Agrees q env' :=
  ⟨h.origin, h.rows, fun x hx => h.names x (hpq x hx)⟩

theorem Agrees.set (h : env.Agrees p env') (name : String) (y : Yield) :
    (env.set name y).Agrees (binds [name] p) (env'.set name y) := by
  refine ⟨by simp [h.origin], by simp [h.rows], fun x hx => ?_⟩
  rw [find?_set, find?_set]
  by_cases hname : name ≠ "" ∧ x = name
  · rw [if_pos hname, if_pos hname]
  · rw [if_neg hname, if_neg hname]
    rcases binds_iff.mp hx with ⟨hne, hmem⟩ | hx
    · rw [mem_singleton.mp hmem] at hne
      exact absurd ⟨hne, mem_singleton.mp hmem⟩ hname
    · exact h.names x hx

theorem Agrees.enterRow (h : env.Agrees p env') (row : Row) :
    (env.enterRow row).Agrees p (env'.enterRow row) :=
  ⟨h.origin, congrArg (row :: ·) h.rows, h.names⟩

theorem Agrees.outerRow (h : env.Agrees p env') : env.outerRow.Agrees p env'.outerRow :=
  ⟨h.origin, congrArg List.tail h.rows, h.names⟩

end Env

theorem exchanges_agrees (visited : List Address) (inputs : Inputs) :
    (Run.yieldsAgain visited visited).Exchanges True inputs inputs Env.Agrees where
  imp := Env.Agrees.imp
  set := Env.Agrees.set
  outerRow := Env.Agrees.outerRow
  origin := Env.Agrees.origin
  find? h hx := ⟨h.names _ (hx trivial), False.elim⟩
  rows _ := forall₂_same.mpr fun row _ _ _ _ h => h.enterRow row

/-- **What a formula yields depends only on the names it refers to.** -/
theorem Evaluator.runs_of_agrees {ev : Evaluator} (e : Expr) (p : String → Bool) (env env' : Env)
    (y : Yield) (hs : e.isScoped false p = true) (hagrees : env.Agrees p env')
    (h : ev.Runs n visited env e y) : ev.Runs n visited env' e y := by
  refine Runs.of_exchanged (exchanges_agrees visited ev.inputs)
    (fun a _ p env env' y henv hy => ?_) (Expr.confined_of_mentions fun _ => id) (fun _ => hs)
    hagrees h
  have hcell : env'.cell? a = env.cell? a := by
    unfold Env.cell?
    rw [henv.rows]
  cases hy with
  | row hrow => exact .row (hcell.trans hrow)
  | input hrow hinput hv => exact .input (hcell.trans hrow) hinput hv
  | formula hrow hinput hformula hy =>
    exact .formula (hcell.trans hrow) hinput hformula (henv.rows ▸ hy)
  | literal hrow hinput hformula => exact .literal (hcell.trans hrow) hinput hformula

end FormulaFold
