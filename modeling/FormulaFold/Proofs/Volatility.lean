import FormulaFold.Proofs.Earned

/-! # Volatile functions

A volatile function reflects the moment of running and is left to the run.  Volatility is looked at
where a function is computed from its arguments and nowhere else.  **A call of a volatile function
is left as a call of the same function, unless the function has a rule of its own**
(`optimize_volatile`).  The seven functions that have one ignore that they are volatile: each of
them has a call that becomes a constant (`optimize_volatile_rule`).
-/
namespace FormulaFold

open Walk

/-- Whether calls of a function are folded by a rule of their own. -/
def Builtin.hasRule : Builtin → Bool
  | ifElse | and | or | index | concatenate | row | column => true
  | _ => false

/-- A function without a rule of its own is computed from its arguments. -/
theorem CallGives.settles {R : Giving} (hrule : ∀ f, ofName? fn = some f → f.hasRule = false)
    (h : CallGives False site R fn args t o (ofName? fn)) :
    ∃ os, Forall₂ (Child R) (trimmed args) os ∧
      Settles False site (.call fn args t) (fun args => if site.engine.isVolatile fn then
        .error (.volatile fn) else site.engine.call fn args) os o := by
  generalize ofName? fn = f at hrule h
  rcases f with _ | f
  · exact h
  · have hf := hrule f rfl
    cases f
    case ifElse | and | or | index | concatenate | row | column => cases hf
    all_goals exact h

/-- What is never computed is left. -/
theorem Settles.residual_of_volatile (hvolatile : site.engine.isVolatile fn = true)
    (h : Settles False site (.call fn args t) (fun args => if site.engine.isVolatile fn then
      .error (.volatile fn) else site.engine.call fn args) os o) :
    ∃ args', o = .residual (.call fn args' t) := by
  cases h with
  | kept _ hkept =>
    rw [if_pos hvolatile] at hkept
    cases hkept
  | left _ he =>
    cases he
    exact ⟨_, rfl⟩

theorem gives_volatile {opt : Optimizer} {book : Workbook} {n : Nat} {origin : Option Address}
    {L U : Memo} {b : Bindings} (hvolatile : opt.engine.isVolatile fn = true)
    (hrule : ∀ f, ofName? fn = some f → f.hasRule = false)
    (h : Gives L U b (opt.walkDeep book n origin (.call fn args t)) o) :
    ∃ args', o = .residual (.call fn args' t) := by
  cases gives_walkDeep (fun _ _ _ _ h => h) h with
  | call hcall =>
    obtain ⟨os, _, hsettles⟩ := hcall.settles hrule
    exact hsettles.residual_of_volatile hvolatile

/-- **A call of a volatile function without a rule of its own never becomes a constant**, whatever
its arguments are, under any names and from any state: walked on its way or folded alone, it is left
as a call of the same function. -/
theorem optimize_volatile (opt : Optimizer) (book : Workbook) {fn : String}
    (hvolatile : opt.engine.isVolatile fn = true)
    (hrule : ∀ f, Builtin.ofName? fn = some f → f.hasRule = false) (args : List (Option Expr))
    (t : DataType) (origin : Option Address) (s s' : WalkState) (o : Outcome)
    (h : opt.optimize book (some (.call fn args t)) origin s = .ok o s' ∨
      ∃ n, opt.walkDeep book n origin (.call fn args t) s = .ok o s') :
    o.isConstant = false ∧ ∃ args', o = .residual (.call fn args' t) := by
  obtain ⟨args', rfl⟩ : ∃ args', o = .residual (.call fn args' t) := by
    rcases h with h | ⟨n, h⟩
    · exact gives_volatile hvolatile hrule
        (gives_optimize (b := s.bindings) (gives_of_ok h))
    · exact gives_volatile hvolatile hrule (gives_of_ok h)
  exact ⟨rfl, args', rfl⟩

namespace VolatileExample

open Sample

/-- An optimizer to which one more function is volatile. -/
def optimizer (fn : String) : Optimizer :=
  ⟨.ofSettings 0 [fn] ⟨0.0, 0.0⟩, true⟩

/-- Arguments with which a function that has a rule is folded. -/
def arguments : Builtin → List (Option Expr)
  | .ifElse => [some (number 1.0), some (number 1.0)]
  | .index => [some (.range 1 1 [some (number 1.0)]), some (number 1.0)]
  | .row | .column => [some (.cell (cellAt 1))]
  | _ => [some (number 1.0)]

end VolatileExample

open Sample VolatileExample in
/-- A sum that is made volatile is left, although its arguments are known. -/
theorem optimize_volatile_sum :
    (optimizer "sum").engine.isVolatile "SUM" = true ∧
    (∀ f, Builtin.ofName? "SUM" = some f → f.hasRule = false) ∧
    ∃ o s', (optimizer "sum").optimize .empty (some (.call "SUM" [some (number 1.0)] .unknown))
      none .initial = .ok o s' ∧ o.isConstant = false := by
  have hvolatile : (optimizer "sum").engine.isVolatile "SUM" = true := by decide +kernel
  have hrule (f : Builtin) (hf : Builtin.ofName? "SUM" = some f) : f.hasRule = false := by
    cases hf
    rfl
  obtain ⟨o, s', h⟩ : ∃ o s', (optimizer "sum").optimize .empty
    (some (.call "SUM" [some (number 1.0)] .unknown)) none .initial = .ok o s' := ⟨_, _, rfl⟩
  exact ⟨hvolatile, hrule, o, s', h, (optimize_volatile _ .empty hvolatile hrule _ .unknown none
    .initial s' o (.inl h)).1⟩

open Sample VolatileExample in
/-- A rule does not ask whether the function is volatile. -/
theorem optimize_volatile_rule (f : Builtin) (hf : f.hasRule = true) :
    ∃ v t s', (optimizer f.name).optimize .empty (some (.call f.name (arguments f) .unknown)) none
      .initial = .ok (.known v t) s' := by
  cases f
  case ifElse | and | or | index | concatenate | row | column => exact ⟨_, _, _, rfl⟩
  all_goals cases hf

open Sample VolatileExample in
/-- **A volatile conjunction is folded.** -/
theorem optimize_volatile_and :
    (optimizer "AND").engine.isVolatile "AND" = true ∧
    ∃ s', (optimizer "AND").optimize .empty (some (.call "AND" [some (number 1.0)] .unknown))
      none .initial = .ok (.known (.bool true) .numeric) s' :=
  ⟨by decide +kernel, _, rfl⟩

end FormulaFold
