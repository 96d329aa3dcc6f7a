import FormulaFold.Proofs.Complaints
import FormulaFold.Proofs.Comes
import FormulaFold.Proofs.GrantedForms
import FormulaFold.Proofs.Preservation

/-! # Counts

A count looks into ranges, splices and enclosing sections (`Expr.LeadsTo`).  **It is rejected just
if a sub-section that it meets there has another one inside; else it is moved into its fixed part
but for the sub-sections, and what is left counts as much as before** (`optimize_count`).
-/
namespace FormulaFold

open Walk

namespace Expr

/-- A count that looks into `e` meets `x`. -/
abbrev LeadsTo : Expr → Expr → Prop := Relation.ReflTransGen fun e p => some p ∈ e.counted

theorem countItems_subset {e p : Expr} (hp : some p ∈ e.counted) : p.countItems ⊆ e.countItems := by
  cases e with
  | range rows cols elements | splice elements =>
    rw [countItems, countItemsAll_eq]
    exact fun x hx => mem_flatMap.mpr ⟨some p, hp, hx⟩
  | parentSection s inner =>
    cases mem_singleton.mp hp
    exact List.Subset.refl _
  | _ => cases hp

/-- The sub-sections among the counted formulas are those that are met. -/
theorem mem_countItems_iff {e x : Expr} (hx : x.isSubSection = true) :
    some x ∈ e.countItems ↔ e.LeadsTo x := by
  constructor
  · exact forall_of_countItems (K := e.LeadsTo) (fun _ h _ hp => h.tail hp) e .refl x
  · intro h
    induction h using Relation.ReflTransGen.head_induction_on with
    | refl =>
      cases x with
      | subSection => exact mem_singleton.mpr rfl
      | _ => cases hx
    | head hp _ ih => exact countItems_subset hp ih

theorem hasSubSection_iff {e : Expr} :
    e.hasSubSection = true ↔ ∃ x, x.isSubSection = true ∧ e.LeadsTo x := by
  rw [← any_countItems, List.any_eq_true]
  constructor
  · rintro ⟨x | x, hx, hsub⟩
    · cases hsub
    · exact ⟨x, hsub, (mem_countItems_iff hsub).mp hx⟩
  · rintro ⟨x, hsub, hx⟩
    exact ⟨some x, (mem_countItems_iff hsub).mpr hx, hsub⟩

end Expr

/-- Among what a count meets in its arguments is a sub-section with another one inside. -/
def Nested (args : Children) : Prop :=
  ∃ e name elements, some e ∈ args ∧ e.LeadsTo (.subSection name elements) ∧
    ∃ p x, some p ∈ elements ∧ x.isSubSection = true ∧ p.LeadsTo x

/-- What a count comes to: a number unless sub-sections are left. -/
def countOutcome (static : Int) (items : Children) : Outcome :=
  if sectionsIn items = [] then
    .known (.number (Float.ofInt (wrap (static + unitsIn items)))) .numeric
  else .residual (.count (wrap (static + unitsIn items)) ((sectionsIn items).map some))

theorem nested?_ne_none {e : Option Expr} : Expr.nested? e ≠ none ↔
    ∃ name elements, e = some (.subSection name elements) ∧ Expr.anySubSection elements = true := by
  unfold Expr.nested?
  split <;> simp_all

/-- Counting fails just if sub-sections are nested. -/
theorem countArgs_eq_error_iff {args : Children} :
    (∃ e, countArgs (trimmed args) = .error e) ↔ Nested args := by
  have herror : (∃ e, countArgs (trimmed args) = .error e) ↔
      ∃ e ∈ countItemsOf args, Expr.nested? e ≠ none := by
    rw [countArgs_eq, countItemsOf, present_trimmed, ← countItemsOf, itemCount]
    cases h : (countItemsOf args).findSome? Expr.nested? with
    | none => simpa using List.findSome?_eq_none_iff.mp h
    | some e =>
      obtain ⟨x, hx, he⟩ := List.exists_of_findSome?_eq_some h
      exact iff_of_true ⟨e, rfl⟩ ⟨x, hx, by simp [he]⟩
  have hinner {elements : Children} : Expr.anySubSection elements = true ↔
      ∃ p x, some p ∈ elements ∧ x.isSubSection = true ∧ p.LeadsTo x := by
    rw [← Bool.not_eq_false, Expr.anySubSection_iff]
    simp only [not_forall, Bool.not_eq_false, Expr.hasSubSection_iff, exists_prop]
    constructor
    · rintro ⟨p, hp, x, hx⟩
      exact ⟨p, x, hp, hx⟩
    · rintro ⟨p, x, hp, hx⟩
      exact ⟨p, hp, x, hx⟩
  rw [herror]
  constructor
  · rintro ⟨e, he, hnested⟩
    obtain ⟨name, elements, rfl, hany⟩ := nested?_ne_none.mp hnested
    obtain ⟨a, ha, he⟩ := mem_flatMap.mp he
    exact ⟨a, name, elements, mem_present.mp ha, (Expr.mem_countItems_iff rfl).mp he,
      hinner.mp hany⟩
  · rintro ⟨a, name, elements, ha, he, hany⟩
    exact ⟨_, mem_flatMap.mpr ⟨a, mem_present.mpr ha, (Expr.mem_countItems_iff rfl).mpr he⟩,
      nested?_ne_none.mpr ⟨name, elements, rfl, hinner.mpr hany⟩⟩

theorem countItemsOf_trimmed (args : Children) :
    countItemsOf (trimmed args) = countItemsOf args := by
  rw [countItemsOf, present_trimmed, countItemsOf]

/-- Where sub-sections are not nested a count comes to its outcome. -/
theorem countForm_eq (site : Site) (static : Int) {args : Children} (h : ¬Nested args) :
    countForm site static args = pure (countOutcome static (countItemsOf args)) := by
  cases hcount : countArgs (trimmed args) with
  | error e => exact absurd (countArgs_eq_error_iff.mp ⟨e, hcount⟩) h
  | ok count =>
    obtain ⟨n, sections⟩ := count
    obtain ⟨-, hn, hsections⟩ := sectionsIn_of_countArgs hcount
    rw [countItemsOf_trimmed] at hn hsections
    have hstatic : wrap (static + n) = wrap (static + unitsIn (countItemsOf args)) := by
      rw [hn, wrap_add_congr (a := static) rfl (wrap_wrap _)]
    unfold countForm countOutcome
    rw [hcount, ← hsections, ← hstatic]
    cases sections with
    | nil => rfl
    | cons => rfl

/-- What is left of a count counts as much as the count. -/
theorem exists_runs_countOutcome (ev : Runner) (static : Int) (args : Children) :
    ∃ k : Int, ∀ env, ev.Runs env (.count static args) (.one (.number (Float.ofInt k))) ∧
      ev.Runs env (countOutcome static (countItemsOf args)).expr
        (.one (.number (Float.ofInt k))) := by
  have hcounted : CountedAs ev.inputs (Expr.countRunArgs ev.inputs (trimmed args))
      (countItemsOf args) := countItemsOf_trimmed args ▸ countedAs_args _
  have hsum := wrap_add_congr (a := static) rfl hcounted
  refine ⟨_, fun env => ⟨runs_count_iff.mpr rfl, ?_⟩⟩
  rw [hsum]
  unfold countOutcome
  split
  · rename_i hnone
    rw [hnone, map_nil, Expr.countRunArgs, Int.add_zero]
    exact runs_constant.mpr rfl
  · refine runs_count_iff.mpr ?_
    rw [trimmed_map_some, wrap_add_congr (wrap_wrap _) rfl, Int.add_assoc]

/-- **A count is rejected just if sub-sections are nested, and else what is left of it counts as
much as before.**  All but the sub-sections is moved into the fixed part. -/
theorem optimize_count (opt : Optimizer) (book : Workbook) (static : Int)
    (args : List (Option Expr)) (origin : Option Address) (s : WalkState) :
    ((∃ f s', opt.optimize book (some (.count static args)) origin s = .error f s' ∧
      f.isOf .unsupported = true) ↔ Nested args) ∧
    (¬Nested args → (Expr.count static args).isWritable book.sectionPath = true →
      ∃ s', opt.optimize book (some (.count static args)) origin s =
        .ok (countOutcome static (countItemsOf args)) s') ∧
    ∀ (ev : Evaluator) (home : Option Address), ∃ k : Int,
      ev.evaluate (some (.count static args)) home [] = .ok (.number (Float.ofInt k)) [] ∧
      ev.evaluate (some (countOutcome static (countItemsOf args)).expr) home [] =
        .ok (.number (Float.ofInt k)) [] := by
  have hwalk : opt.walkDeep book book.cells.length origin (.count static args) =
      countForm (opt.site book origin) static args := by rw [opt.walkDeep_eq, Expr.walk]
  refine ⟨⟨?_, fun hnested => ?_⟩, fun hnested hwritable => ?_, fun ev home => ?_⟩
  · rintro ⟨f, s', herror, hf⟩
    by_contra hnested
    obtain ⟨t, ht⟩ := exists_walkDeep_of_optimize_error herror hf
    rw [hwalk, countForm_eq _ static hnested] at ht
    cases ht
  · obtain ⟨⟨name, e⟩, he⟩ := countArgs_eq_error_iff.mpr hnested
    have hwalk (s : WalkState) : opt.walkDeep book book.cells.length origin (.count static args) s =
        .error (.complaint (.nestedSections (name.map book.sectionPath)) (book.shown e) origin)
          s := by
      rw [hwalk, countForm, he]
      rfl
    obtain ⟨s', herror⟩ := exists_optimize_error (hwalk (Walk.under .empty s))
    exact ⟨_, s', herror, rfl⟩
  · refine exists_optimize_eq_ok ?_ hwritable s
    rw [hwalk, countForm_eq _ static hnested]
    exact comes_pure _
  · obtain ⟨k, hk⟩ := exists_runs_countOutcome ev.atStart static args
    obtain ⟨hcount, hleft⟩ := hk (.start home)
    exact ⟨k, evaluate_eq_ok_iff.mpr ⟨rfl, _, hcount, rfl⟩,
      evaluate_eq_ok_iff.mpr ⟨rfl, _, hleft, rfl⟩⟩

end FormulaFold
