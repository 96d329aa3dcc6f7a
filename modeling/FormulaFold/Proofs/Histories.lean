import FormulaFold.Proofs.Conflicts
import FormulaFold.Proofs.PartialFolds

/-! # Calls under different settings

What is known of a formula does not depend on whether folds are done in part, so calls under both
settings may be made one after the other: **what they remember, calls under either setting could
have remembered** (`earned_after`).
-/
namespace FormulaFold

open Walk

variable {opt opt' : Optimizer} {book : Workbook} {n : Nat} {origin : Option Address} {e : Expr}
  {s s' : WalkState} {v : Value} {t : DataType}

theorem walkDeep_known_withoutPartialFolds {m : Memo} :
    (∃ s', opt.walkDeep book n origin e s = .ok (.known v t) s' ∧ s'.memo = m) ↔
      ∃ s', opt.withoutPartialFolds.walkDeep book n origin e s = .ok (.known v t) s' ∧
        s'.memo = m := by
  have hself : WalkState.Abreast s.stats.partialFolds s s := ⟨rfl, rfl, rfl, rfl, rfl, rfl, rfl⟩
  have hmatch : Matches (WalkState.Abreast s.stats.partialFolds) (Outcome.Like (Expr.Peers book))
      (opt.walkDeep book n origin e s) (opt.withoutPartialFolds.walkDeep book n origin e s) :=
    opt.abreast_withoutPartialFolds _ n origin e s s hself
  generalize opt.walkDeep book n origin e s = r at hmatch ⊢
  generalize opt.withoutPartialFolds.walkDeep book n origin e s = r' at hmatch ⊢
  cases hmatch with
  | error => simp
  | @ok o o' t₁ t₂ ho hst =>
    have hagree := ho.agree
    constructor
    · rintro ⟨_, ⟨⟩, hm⟩
      rw [hagree.eq rfl]
      exact ⟨_, rfl, hst.memo.trans hm⟩
    · rintro ⟨_, ⟨⟩, hm⟩
      have hconst : o.isConstant = true := hagree.isConstant.symm.trans rfl
      rw [← hagree.eq hconst]
      exact ⟨_, rfl, hst.memo.symm.trans hm⟩

/-- What a walk knows and remembers does not depend on whether folds are done in part. -/
theorem exists_walkDeep_known (hengine : opt'.engine = opt.engine)
    (h : opt.walkDeep book n origin e s = .ok (.known v t) s') :
    ∃ s'', opt'.walkDeep book n origin e s = .ok (.known v t) s'' ∧ s''.memo = s'.memo := by
  have hsame : opt'.withoutPartialFolds = opt.withoutPartialFolds := by
    simp [Optimizer.withoutPartialFolds, hengine]
  refine walkDeep_known_withoutPartialFolds.mpr ?_
  rw [hsame]
  exact walkDeep_known_withoutPartialFolds.mp ⟨s', h, rfl⟩

theorem Earned.setting (hengine : opt'.engine = opt.engine)
    (h : Earned (· = opt) book m) : Earned (· = opt') book m := by
  have hliteral (a : Address) : (opt.site book none).literalOf a =
      (opt'.site book none).literalOf a := by
    unfold Site.literalOf Optimizer.site
    rw [hengine]
  induction h with
  | empty => exact .empty
  | again hsome _ ih => exact .again hsome ih
  | literal hopt hinput hformula hnone _ ih =>
    subst hopt
    rw [hliteral]
    exact .literal rfl hinput hformula hnone ih
  | formula hopt hformula hempty hwalk hwithin hnone _ ih =>
    subst hopt
    obtain ⟨s'', hwalk', hmemo⟩ := exists_walkDeep_known hengine hwalk
    exact .formula rfl hformula hempty hwalk' (hmemo ▸ hwithin) hnone ih

/-- The state after calls made one after the other, each under its own settings. -/
def WalkState.after (book : Workbook) (history : List (Optimizer × Optimizer.Call)) : WalkState :=
  history.foldl (fun s call => (call.1.perform book call.2).final s) .initial

/-- **Whatever calls were made with an engine, what is remembered was found by walks with it.** -/
theorem earned_after (book : Workbook) {engine : Engine} (hengine : opt.engine = engine)
    (hhistory : ∀ call ∈ history, call.1.engine = engine) :
    Earned (· = opt) book (WalkState.after book history).memo := by
  have hrun (s : WalkState) (hs : Earned (· = opt) book s.memo) : Earned (· = opt) book
      (history.foldl (fun s call => (call.1.perform book call.2).final s) s).memo := by
    induction history generalizing s with
    | nil => exact hs
    | cons call rest ih =>
      obtain ⟨hcall, hrest⟩ := forall_mem_cons.mp hhistory
      have hcall := hcall.trans hengine.symm
      have hs := hs.setting hcall
      exact ih hrest _ (((framesAt_perform hs call.2).final.earned hs).setting hcall.symm)
  exact hrun .initial .empty

end FormulaFold
