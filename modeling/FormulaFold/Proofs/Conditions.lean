import FormulaFold.Proofs.Preservation

/-! # Constant conditions

`IF` with a single value as its condition selects a branch.  A condition that is a written range is
taken to the engine together with the branches, and the engine has a rule of its own for a blank
branch.  **Where all arguments are constant and `IF` is known ahead of the run, it is known as its
value** (`evaluate_of_optimize_if`), unless the condition is a range and the branch is blank or
changed by rounding.
-/
namespace FormulaFold

open Walk

/-- Whether the formula is a constant or a cell with a constant value. -/
def Expr.isFixed (book : Workbook) : Expr → Bool
  | constant .. => true
  | cell a => !(book.get a).input && (book.get a).formula.isNone
  | _ => false

/-- Whether the formula is a constant, a cell with a constant value or a written range of these. -/
def Expr.isFixedArgument (book : Workbook) : Expr → Bool
  | range rows cols es => fitsShape rows cols es.length && es.all (·.any (isFixed book))
  | e => e.isFixed book

/-- What is remembered of a cell without a formula is its value. -/
theorem Earned.value_eq (h : Earned (· = opt) book m) (hformula : (book.get a).formula = none)
    (hc : m.find? a = some c) : c.value = ((opt.site book none).literalOf a).value := by
  induction h with
  | empty => cases hc
  | @literal _ a' m hopt _ _ _ _ ih =>
    by_cases ha : a = a'
    · subst ha hopt
      rw [Memo.find?_set_self] at hc
      cases hc
      rfl
    · exact ih (by rwa [Memo.find?_set_of_ne m _ ha] at hc)
  | @formula _ a' _ _ _ _ _ _ m _ hformula' _ _ _ _ _ ih =>
    by_cases ha : a = a'
    · subst ha
      cases hformula.symm.trans hformula'
    · exact ih (by rwa [Memo.find?_set_of_ne m _ ha] at hc)
  | again hsome _ ih => exact ih (by rwa [Memo.find?_set_again hsome] at hc)

theorem value_literalOf (site : Site) (a : Address) :
    (site.literalOf a).value = site.engine.literal (site.book.get a).value := by
  unfold Site.literalOf
  cases (site.book.get a).value <;> rfl

section Fixed

variable {ev : Runner}

/-- The outcome is a single value, the one that the formula yields; it is known unless the formula
is a range. -/
structure Runner.Fixes (ev : Runner) (origin : Option Address) (e : Expr) (o : Outcome) :
    Prop where
  constant : o.isConstant = true
  known : e.isVector = false → o.isKnown = true
  arguments : o.arguments = [o.value]
  yields : ∀ y, ev.Runs (.start origin) e y → y = .one o.value

theorem fixes_known {v : Value} (t : DataType) (h : ∀ y, ev.Runs (.start origin) e y → y = .one v) :
    ev.Fixes origin e (.known v t) := ⟨rfl, fun _ => rfl, rfl, h⟩

variable (hengine : opt.engine = ev.engine) (hU : Earned (· = opt) ev.book U)
include hengine hU

theorem exists_known_of_isFixed (he : e.isFixed ev.book = true)
    (h : Gives L U b (opt.walkDeep ev.book k origin e) o) :
    o.isKnown = true ∧ ev.Fixes origin e o := by
  have h := gives_walkDeep (P := fun _ _ _ => True) (fun _ _ _ _ _ => trivial) h
  cases e with
  | constant v t =>
    cases h
    exact ⟨rfl, fixes_known _ fun y => runs_constant.mp⟩
  | cell a =>
    simp only [Expr.isFixed, and_eq_true, Bool.not_eq_true', Option.isNone_iff_eq_none] at he
    obtain ⟨hinput, hformula⟩ := he
    have hyields (y : Yield) (hy : ev.Runs (.start origin) (.cell a) y) :
        y = .one (ev.engine.literal (ev.book.get a).value) := by
      cases runs_iff.mp hy with
      | cell hy =>
        cases hy with
        | literal => rfl
        | row hrow => cases hrow
        | _ => simp_all
    have hliteral (origin : Option Address) : ((opt.site ev.book origin).literalOf a).value =
        ev.engine.literal (ev.book.get a).value := by
      rw [value_literalOf, ← hengine]
      rfl
    cases h with
    | cell ho =>
      cases ho with
      | remembered _ hc =>
        refine ⟨rfl, fixes_known _ fun y hy => ?_⟩
        rw [hyields y hy, hU.value_eq hformula hc, hliteral]
      | literal =>
        obtain ⟨v, t, heq⟩ : ∃ v t, (opt.site ev.book origin).literalOf a = .known v t := by
          unfold Site.literalOf
          split <;> exact ⟨_, _, rfl⟩
        have hliteral := hliteral origin
        rw [heq] at hliteral ⊢
        exact ⟨rfl, fixes_known _ fun y hy => by rw [hyields y hy, ← hliteral]; rfl⟩
      | input hinput' | entered _ hformula' | left _ _ hformula' => simp_all [Optimizer.site]
  | _ => cases he

omit hengine hU in
/-- A written range of known values is the array of its values. -/
theorem materializeAll_of_becomes {R : Giving} {es es' : Children}
    (hes : ∀ c ∈ es, ∃ x, c = some x ∧ ∀ o, R x o →
      o.isKnown = true ∧ ev.Fixes origin x o)
    (h : Forall₂ (Becomes R) es es') : Expr.allAggregate es' = true ∧
      ∀ ys, Forall₂ (ChildYields (ev.Runs (.start origin))) es ys →
        ys.map Yield.single = materializeAll es' := by
  induction h with
  | nil => exact ⟨rfl, fun ys hys => by cases hys; rfl⟩
  | cons hc _ ih =>
    have hes := forall_mem_cons.mp hes
    obtain ⟨x, rfl, hx⟩ := hes.1
    obtain ⟨o, ho, rfl⟩ := hc
    obtain ⟨hagg, hvalues⟩ := ih hes.2
    obtain ⟨hknown, hfixes⟩ := hx o ho
    cases o with
    | residual => cases hknown
    | known v t =>
      refine ⟨hagg, fun ys hys => ?_⟩
      obtain _ | ⟨hy, hys⟩ := hys
      rw [map_cons, hfixes.yields _ hy, hvalues _ hys]
      rfl

theorem fixes_of_isFixedArgument (he : e.isFixedArgument ev.book = true)
    (h : Gives L U b (opt.walkDeep ev.book k origin e) o) : ev.Fixes origin e o := by
  cases e with
  | range rows cols es =>
    obtain ⟨hshape, hes⟩ := and_eq_true_iff.mp he
    have h := gives_walkDeep (P := fun _ x o => x.isFixed ev.book = true →
      o.isKnown = true ∧ ev.Fixes origin x o)
      (fun _ _ _ _ hx hp => exists_known_of_isFixed hengine hU hp hx) h
    cases h with
    | range hos ho =>
      have hfixed (c : Option Expr) (hc : c ∈ es) : ∃ x, c = some x ∧
          ∀ o, (x.isFixed ev.book = true → o.isKnown = true ∧ ev.Fixes origin x o) →
            o.isKnown = true ∧ ev.Fixes origin x o := by
        have hany := all_eq_true.mp hes c hc
        cases c with
        | none => cases hany
        | some x => exact ⟨x, rfl, fun o ho => ho hany⟩
      obtain ⟨hagg, hvalues⟩ := materializeAll_of_becomes hfixed (becomes_keepMissing_trimmed hos)
      rw [rebuilt_range ho, length_keepMissing, rangeShape_of_fitsShape hshape]
      refine ⟨hagg, by simp [Expr.isVector], by
        simp [Outcome.arguments, Expr.spliceValues, Outcome.value], fun y hy => ?_⟩
      obtain ⟨ys, hys, rfl⟩ := runs_range.mp hy
      rw [hvalues ys hys, Outcome.value, Expr.materialize]
  | _ =>
    refine (exists_known_of_isFixed hengine hU ?_ h).2
    exact he

end Fixed

/-- The engine selects a branch that is not blank. -/
theorem call_ifElse {engine : Engine} {c x y z : Value} {b : Bool} (hb : c.toBool = .ok b)
    (hnull : (if b then x else y).isNull = false)
    (hz : engine.call Builtin.ifElse.name [c, x, y] = .ok z) : z = if b then x else y := by
  have hz : (c.toBool >>= fun b => if b then pure ((Builtin.arg? [c, x, y] 1).getD (.number 0.0))
      else pure ((Builtin.arg? [c, x, y] 2).getD (.bool false)) : Except Failure Value) = .ok z :=
        hz
  rw [hb] at hz
  cases b <;> simp_all [Builtin.arg?, bind, Except.bind, pure, Except.pure, Option.filter]

/-- **Constant conditions.**  `IF` over constants, cells with constant values and written ranges of
these is known only as its value.  Where the condition is a range, its value is neither blank nor
changed by rounding. -/
theorem evaluate_of_optimize_if (ev : Evaluator) (opt : Optimizer)
    (hengine : opt.engine = ev.engine) {fn : String} (hf : Builtin.ofName? fn = some .ifElse)
    {condition x y : Expr} {t : DataType} (hcondition : condition.isFixedArgument ev.book = true)
    (hx : x.isFixedArgument ev.book = true) (hy : y.isFixedArgument ev.book = true)
    {history : List (Optimizer × Optimizer.Call)}
    (hhistory : ∀ call ∈ history, call.1.engine = ev.engine) {origin : Option Address}
    {r : Outcome} {s' : WalkState}
    (hr : opt.optimize ev.book (some (.call fn [some condition, some x, some y] t)) origin
      (.after ev.book history) = .ok r s') (hconst : r.isConstant = true) {v : Value}
    (hv : ev.evaluate (some (.call fn [some condition, some x, some y] t)) origin [] = .ok v [])
    (hsteady : condition.isVector = true → v.isNull = false ∧ ev.engine.Leaves v) :
    r.value = v := by
  let R := ev.atStart.Fixes origin
  have hmemo : Earned (· = opt) ev.book s'.memo := by
    have hs := earned_after ev.book hengine hhistory
    have hframe := framesAt_perform hs
      (.formula (some (.call fn [some condition, some x, some y] t)) origin)
    exact (hframe.growth hr).earned hs
  have hgives := gives_walkDeep (P := fun _ z o => z.isFixedArgument ev.book = true → R z o)
    (fun _ _ _ _ hz hp => fixes_of_isFixedArgument hengine hmemo hp hz) (gives_of_optimize hr)
  obtain ⟨_, u, hu, rfl⟩ := evaluate_eq_ok_iff.mp hv
  obtain ⟨w, hw, b, hb, hbranch⟩ := (runs_if_iff hf).mp hu
  have hfixed (b : Bool) (o : Outcome) {z : Expr} (hz : z.isFixedArgument ev.book = true → R z o)
      (hz' : z = if b then x else y)
      (hbranch : BranchYields (ev.atStart.Runs (.start origin)) [some x, some y] b u) :
      u = .one o.value := by
    cases b <;> subst hz'
    · exact (hz hy).yields u hbranch
    · exact (hz hx).yields u hbranch
  cases hgives with
  | call ho =>
  rw [hf] at ho
  obtain ⟨_, _, c, ⟨⟩, hc, ho⟩ | ⟨hnone, _⟩ := ho
  · have hc := hc hcondition
    obtain rfl := hc.yields w hw
    cases ho with
    | chosen hc' hdecided ho | other hc' hdecided ho =>
      subst hc'
      cases hdecided.symm.trans hb
      rw [hfixed _ r ho rfl hbranch]
      rfl
    | settled hundecided hos ho =>
      -- A known condition was decided, so the condition is a range.
      have hvector : condition.isVector = true := by
        by_contra hvector
        have hknown := hc.known (by simpa using hvector)
        cases c with
        | residual => cases hknown
        | known v t' =>
          obtain ⟨f, hf⟩ := hundecided v t' rfl
          cases hf.symm.trans hb
      obtain ⟨hnull, hleaves⟩ := hsteady hvector
      obtain _ | ⟨hox, _ | ⟨hoy, ⟨⟩⟩⟩ := hos
      rename_i ox oy
      have hvalues : Outcome.values [c, ox, oy] = [c.value, ox.value, oy.value] := by
        simp [Outcome.values, hc.arguments, (hox hx).arguments, (hoy hy).arguments]
      cases ho with
      | kept _ hkept =>
        obtain ⟨z, hz, rfl⟩ := exists_of_kept? hkept
        rw [hvalues] at hz
        have hu : u = .one (if b then ox.value else oy.value) := by
          cases b with
          | true => exact hfixed true ox hox rfl hbranch
          | false => exact hfixed false oy hoy rfl hbranch
        subst hu
        have hz := call_ifElse hb hnull hz
        subst hz
        change opt.engine.adjust _ = _
        rw [hengine]
        exact hleaves
      | left _ he =>
        cases he
        cases hconst
  · exact absurd rfl (hnone _ _)

namespace ConditionExample

open Sample KeptExample

/-- An empty cell, and one with a text. -/
def cells : List Cell := [⟨cellAt 2, none, .null, none, false, .unknown⟩,
  ⟨cellAt 3, none, .text "c", none, false, .unknown⟩]

/-- A choice between a cell and another, by a condition that is written as a range. -/
def choice (x y : Expr) : Expr :=
  .call "IF" [some (.range 1 1 [some (truth true)]), some x, some y] .unknown

def earlier : List (Optimizer × Optimizer.Call) := [(optimizer false, .cell (cellAt 3))]

end ConditionExample

open Sample KeptExample ConditionExample in
/-- A cell with a text is chosen, which is remembered from an earlier call. -/
theorem evaluate_of_optimize_if_text :
    (∃ s', (optimizer true).optimize (evaluator cells).book
      (some (choice (.cell (cellAt 3)) (.cell (cellAt 2)))) none
      (.after (evaluator cells).book earlier) = .ok (.known (.text "c") .string) s') ∧
    (evaluator cells).evaluate (some (choice (.cell (cellAt 3)) (.cell (cellAt 2)))) none [] =
      .ok (.text "c") [] ∧ (Outcome.known (.text "c") .string).value = .text "c" := by
  obtain ⟨s', hr⟩ : ∃ s', (optimizer true).optimize (evaluator cells).book
    (some (choice (.cell (cellAt 3)) (.cell (cellAt 2)))) none
    (.after (evaluator cells).book earlier) = .ok (.known (.text "c") .string) s' := ⟨_, rfl⟩
  have hv :
      (evaluator cells).evaluate (some (choice (.cell (cellAt 3)) (.cell (cellAt 2)))) none [] =
    .ok (.text "c") [] := rfl
  exact ⟨⟨s', hr⟩, hv, evaluate_of_optimize_if (evaluator cells) (optimizer true) rfl
    rfl rfl rfl rfl (by simp [earlier, optimizer, evaluator]) hr rfl hv fun _ => ⟨rfl, rfl⟩⟩

open Sample KeptExample ConditionExample in
/-- **A blank branch.**  If an empty cell is chosen by a condition that is a range, it is zero ahead
of the run and blank in it. -/
theorem evaluate_of_optimize_if_blank :
    (∃ s', (optimizer true).optimize (evaluator cells).book
      (some (choice (.cell (cellAt 2)) (.cell (cellAt 3)))) none .initial =
        .ok (.known (.number 0.0) .numeric) s') ∧
    (evaluator cells).evaluate (some (choice (.cell (cellAt 2)) (.cell (cellAt 3)))) none [] =
      .ok .null [] :=
  ⟨⟨_, rfl⟩, rfl⟩

end FormulaFold
