import FormulaFold.Proofs.Preservation

/-! # Rounding and selected values

Computed numbers are rounded.  The position that `ROW` and `COLUMN` give is rounded ahead of the run
and not in it; the element that `INDEX` selects from a written range is rounded in a run and not
ahead of it.  **Where rounding leaves these numbers as they are, a call over literals and inputs
keeps its value** (`evaluate_optimize_given`), whatever the precision is.
-/
namespace FormulaFold

open Walk

/-- Whether the formula is a single literal or an input cell. -/
def Expr.isGiven (book : Workbook) : Expr → Bool
  | constant v _ => v.fits false
  | cell a => (book.get a).input && a.isWord
  | _ => false

/-- Whether the formula is a literal, an input cell or a written range of these. -/
def Expr.isGivenArgument (book : Workbook) : Expr → Bool
  | range rows cols es => fitsShape rows cols es.length && es.all (·.all (isGiven book))
  | e => e.isGiven book

theorem Expr.isGivenArgument_of_isGiven {book : Workbook} {e : Expr} (h : e.isGiven book = true) :
    e.isGivenArgument book = true := by
  cases e <;> simp_all [isGiven, isGivenArgument]

/-- The number of a position that a function gives. -/
def Builtin.position? : Builtin → Option (Address → Int)
  | row => some (·.row)
  | column => some (·.col)
  | _ => none

section Given

variable {ev : Runner} {opt : Optimizer} {A : List Address → Prop} {e : Expr}

theorem upheldAs_of_isGiven (he : e.isGiven ev.book = true)
    (h : GivesAmid A L U b (opt.walkDeep ev.book n origin e) o) :
    ev.UpheldAs False false place env e o := by
  have h := gives_walkDeep (P := fun _ _ _ => True) (fun _ _ _ _ _ => trivial) h
  cases e with
  | constant v t =>
    cases h
    refine ⟨.of_iff fun y => runs_constant.trans runs_constant.symm, ?_⟩
    exact Expr.isSorted_constant.trans he
  | cell a =>
    obtain ⟨hinput, hword⟩ := and_eq_true_iff.mp he
    cases h with
    | cell ho =>
      cases ho with
      | input =>
        have hsorted : (Expr.cell a).isSorted false place = true := by rw [isSorted, hword]
        exact ⟨.refl _, hsorted⟩
      | _ => simp_all [Optimizer.site]
  | _ => cases he

theorem upheldAs_of_isGivenArgument (he : e.isGivenArgument ev.book = true)
    (h : GivesAmid A L U b (opt.walkDeep ev.book n origin e) o) :
    ev.UpheldAs False false .argument env e o := by
  cases e with
  | range rows cols es =>
    obtain ⟨hshape, hes⟩ := and_eq_true_iff.mp he
    have hgiven (x : Expr) (hx : some x ∈ es) : x.isGiven ev.book = true :=
      all_eq_true.mp hes _ hx
    have h := gives_walkDeep (P := fun _ x o => x.isGiven ev.book = true →
      ev.UpheldAs False false .scalar env x o)
      (fun _ _ _ _ hx hp => upheldAs_of_isGiven hp hx) h
    cases h with
    | range hos ho =>
      have hos := forall₂_child_imp (fun x _ hx h => h (hgiven x (mem_of_mem_trimmed hx))) hos
      have hes := upholds_keepMissing_trimmed (upheld_of_upheldAs hos)
      rw [rebuilt_range ho, length_keepMissing, rangeShape_of_fitsShape hshape]
      refine ⟨(Upholds.of_iff fun y => runs_range).trans ((hes.exists_and fun _ _ =>
        .refl _).trans (.of_iff fun y => runs_range.symm)), ?_⟩
      rw [Outcome.expr, isSorted, length_keepMissing, and_eq_true]
      exact ⟨hshape, allSorted_keepMissing (isSorted_of_upheldAs hos)⟩
  | _ => exact upheldAs_of_isGiven he h

end Given

/-- **`ROW`, `COLUMN` and `INDEX` over literals and inputs keep their value at every precision** if
rounding leaves the position, or the elements of the written range, as they are. -/
theorem evaluate_optimize_given (ev : Evaluator) (opt : Optimizer)
    (hengine : opt.engine = ev.engine)
    {fn : String} {f : Builtin} (hf : Builtin.ofName? fn = some f)
    (hmem : f = .row ∨ f = .column ∨ f = .index) {args : List (Option Expr)} {t : DataType}
    (hargs : ∀ x, some x ∈ args → x.isGivenArgument ev.book = true) {origin : Option Address}
    (hposition : ∀ position a, f.position? = some position →
      Evaluator.positionCell? args (.start origin) = some a →
        ev.engine.Leaves (.number (Float.ofInt (position a))))
    (helements : ∀ rows cols elements, f = .index →
      some (.range rows cols elements) ∈ args.head? →
        ev.SettledElements ev.book.cells.length [] (.start origin) elements)
    {r : Outcome} {s s' : WalkState}
    (hr : opt.optimize ev.book (some (.call fn args t)) origin s = .ok r s') {v : Value}
    (hv : ev.evaluate (some (.call fn args t)) origin [] = .ok v []) :
    ev.evaluate (some r.expr) origin [] = .ok v [] := by
  have hgives := gives_walkDeep (P := fun _ x o => x.isGivenArgument ev.book = true →
    ev.atStart.UpheldAs False false .argument (.start origin) x o)
    (fun _ _ _ _ hx hp => upheldAs_of_isGivenArgument hp hx) (gives_of_optimize hr)
  cases hgives with
  | call ho =>
  replace ho := ho.imp (fun x _ hx h => h (hargs x hx)) fun rows cols elements hrange x _ hx h => by
    have hes := List.all_eq_true.mp (Bool.and_eq_true_iff.mp (hargs _ hrange)).2 _ hx
    exact h (Expr.isGivenArgument_of_isGiven hes)
  have hnode (args : List (Option Expr)) (y : Yield) :
      ev.atStart.Runs (.start origin) (.call fn args t) y ↔
        CallYields ev.engine (ev.atStart.Runs (.start origin)) (.start origin) fn
          args y (some f) := by
    rw [runs_call_iff, hf]
  have hword (a : Address) (ha : some (.cell a) ∈ args) : a.isWord = true :=
    (Bool.and_eq_true_iff.mp (show (ev.book.get a).input && a.isWord from hargs (.cell a) ha)).2
  rw [hf] at ho
  suffices hupheld : ev.atStart.Upheld False (.start origin) (.call fn args t) r from
    (evaluate_of_upheld hupheld hv).1
  rcases hmem with rfl | rfl | rfl
  · refine upholds_position id hengine rfl (fun a => hposition _ a rfl) hnode
      (call_position_fails hf (.inl rfl)) (fun a ha => ?_) ho
    exact isFinite_ofInt (Bool.and_eq_true_iff.mp (hword a ha)).1
  · refine upholds_position id hengine rfl (fun a => hposition _ a rfl) hnode
      (call_position_fails hf (.inr rfl)) (fun a ha => ?_) ho
    exact isFinite_ofInt (Bool.and_eq_true_iff.mp (hword a ha)).2
  · exact upholds_index id hengine hf
      (fun rows cols elements => helements rows cols elements rfl) ho

namespace RoundingExample

open Sample KeptExample

/-- An engine that rounds to the given number of digits. -/
def rounding (precision : Int) : Engine := ⟨precision, [], ⟨0.0, 0.0⟩⟩

/-- One input with the value 12. -/
def given (precision : Int) : Evaluator :=
  ⟨rounding precision, ⟨[input], []⟩, ⟨[(cellAt 1, .number 12.0)], []⟩⟩

/-- The element of a number and an input that is selected. -/
def selection (x : Float) (i : Float) : Expr :=
  .call "INDEX" [some (.range 1 2 [some (number x), some (.cell (cellAt 1))]),
    some (number i)] .unknown

def rowHere : Expr := .call "ROW" [] .unknown

end RoundingExample

open Sample KeptExample RoundingExample in
/-- With two digits, an input that is selected keeps its value. -/
theorem evaluate_optimize_given_selection :
    (∃ s', (Optimizer.mk (rounding 2) true).optimize (given 2).book (some (selection 1.5 2.0))
      none .initial = .ok (.residual (.cell (cellAt 1))) s') ∧
    (given 2).evaluate (some (selection 1.5 2.0)) none [] = .ok (.number 12.0) [] ∧
    (given 2).evaluate (some (.cell (cellAt 1))) none [] = .ok (.number 12.0) [] := by
  obtain ⟨s', hr⟩ : ∃ s', (Optimizer.mk (rounding 2) true).optimize (given 2).book
    (some (selection 1.5 2.0)) none .initial = .ok (.residual (.cell (cellAt 1))) s' := ⟨_, rfl⟩
  have hv : (given 2).evaluate (some (selection 1.5 2.0)) none [] = .ok (.number 12.0) [] := rfl
  refine ⟨⟨s', hr⟩, hv, evaluate_optimize_given (given 2) (.mk (rounding 2) true) rfl
    (f := .index) rfl (.inr (.inr rfl)) ?_ ?_ ?_ hr hv⟩
  · intro x hx
    simp only [List.mem_cons, List.not_mem_nil, or_false, Option.some.injEq] at hx
    rcases hx with rfl | rfl <;> decide
  · rintro position a ⟨⟩
  · rintro rows cols elements - ⟨⟩ x hx y hy
    simp only [List.mem_cons, List.not_mem_nil, or_false, Option.some.injEq] at hx
    rcases hx with rfl | rfl
    · exact ⟨_, runs_constant.mp hy, rfl⟩
    · refine ⟨.number 12.0, ?_, rfl⟩
      cases runs_iff.mp hy with
      | cell hy =>
        cases hy with
        | input _ _ hv =>
          cases hv
          rfl
        | row hrow => cases hrow
        | formula _ hinput | literal _ hinput => cases hinput

open Sample KeptExample RoundingExample in
/-- **Rounding separates positions and selections from their values.**  With one digit the twelfth
row becomes 10, and without rounding a selected negative zero stays negative. -/
theorem evaluate_optimize_given_rounded :
    ((∃ s', (Optimizer.mk (rounding 1) true).optimize (given 1).book (some rowHere)
        (some (cellAt 12)) .initial = .ok (.known (.number 10.0) .numeric) s') ∧
      (given 1).evaluate (some rowHere) (some (cellAt 12)) [] = .ok (.number 12.0) []) ∧
    (∃ s', (Optimizer.mk (rounding 0) true).optimize (given 0).book
        (some (selection (-0.0) 1.0)) none .initial = .ok (.known (.number (-0.0)) .numeric) s') ∧
      (given 0).evaluate (some (selection (-0.0) 1.0)) none [] = .ok (.number 0.0) [] :=
  ⟨⟨⟨_, rfl⟩, rfl⟩, ⟨_, rfl⟩, rfl⟩

end FormulaFold
