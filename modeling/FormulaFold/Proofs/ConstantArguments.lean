import FormulaFold.Document.Build
import FormulaFold.Proofs.Preservation
import FormulaFold.Proofs.StayingCalls
import Mathlib.Data.List.Chain

/-! # Calls over constants and inputs

A constant, a range or a splice of constants, and an input stay as they are when they are folded, so
what a call of them comes to can be read off its arguments.  **`AND` and `OR` come to a truth if one
of their arguments decides, and otherwise to the call of the arguments without a truth**
(`optimize_connective`).  **`CONCATENATE` keeps its inputs, and where the texts of adjacent
constants can be joined they are** (`optimize_concatenate`).  The value is kept in each case.
-/
namespace FormulaFold

open List Walk

/-- A constant, or a range or a splice of such formulas at any depth, as documents give them: a
constant has a data type and a range has the shape of its elements. -/
inductive Expr.Composed : Expr → Prop
  | constant (v : Value) (t : DataType) : Composed (.constant v (t.orElse v.dataType))
  | range (rows cols : Int) {xs : List Expr} (h : ∀ x ∈ xs, x.Composed) :
      Composed (rangeOf rows cols (xs.map some))
  | splice {xs : List Expr} (h : ∀ x ∈ xs, x.Composed) : Composed (.splice (xs.map some))

/-- Whether the formula is composed of constants or an input. -/
def Expr.Supplied (book : Workbook) (e : Expr) : Prop :=
  e.Composed ∨ ∃ a, e = .cell a ∧ (book.get a).input = true

theorem exists_rangeOf_eq (rows cols : Int) (es : Children) :
    ∃ rows' cols', rangeOf rows cols es = .range rows' cols' es ∧
      (Expr.range rows' cols' es).withChildren es = .ok (.range rows' cols' es) := by
  unfold rangeOf
  split
  · exact ⟨_, _, rfl, by simp [Expr.withChildren, *]⟩
  · exact ⟨_, _, rfl, by simp [Expr.withChildren]⟩

namespace Expr

variable {e : Expr} {book : Workbook} {site : Site} {P : WalkState → Prop}
  {enter : Address → Expr → Action}

theorem Composed.isConstant (h : e.Composed) : (ofExpr e).isConstant = true := by
  have hall {xs : List Expr} (ih : ∀ x ∈ xs, (ofExpr x).isConstant = true) :
      allAggregate (xs.map some) = true := by
    induction xs with
    | nil => rfl
    | cons x xs ihxs =>
      have ih := forall_mem_cons.mp ih
      rw [map_cons, allAggregate_some_cons, ih.1, ihxs ih.2]
      rfl
  induction h with
  | constant => rfl
  | range rows cols _ ih =>
    obtain ⟨_, _, heq, _⟩ := exists_rangeOf_eq rows cols (List.map some _)
    rw [heq]
    exact hall ih
  | splice _ ih => exact hall ih

theorem Composed.stays (h : e.Composed) : Stays P site enter b e := by
  induction h with
  | constant v t =>
    refine stays_constant ?_
    unfold Outcome.constant DataType.orElse
    split <;> simp_all
  | range rows cols _ ih =>
    obtain ⟨_, _, heq, hfix⟩ := exists_rangeOf_eq rows cols (List.map some _)
    rw [heq]
    exact stays_range (by simpa using ih) hfix
  | splice _ ih => exact stays_splice (by simpa using ih)

theorem Composed.isWritable (h : e.Composed) : e.isWritable path = true := by
  induction h with
  | constant => rfl
  | range rows cols _ ih =>
    obtain ⟨_, _, heq, _⟩ := exists_rangeOf_eq rows cols (List.map some _)
    rw [heq]
    exact isWritable_iff.mpr ⟨rfl, by simpa [liveParts, parts] using ih⟩
  | splice _ ih => exact isWritable_iff.mpr ⟨rfl, by simpa [liveParts, parts] using ih⟩

theorem Supplied.stays (h : e.Supplied site.book) : Stays P site enter b e := by
  rcases h with h | ⟨a, rfl, ha⟩
  · exact h.stays
  · refine .mk rfl rfl ?_
    rw [walk]
    unfold cellForm
    rw [if_pos ha]
    exact comes_dynamic rfl

theorem isWritable_call (h : ∀ x, some x ∈ args → x.Supplied book) :
    (call fn args t).isWritable path = true := by
  refine isWritable_iff.mpr ⟨rfl, fun x hx => ?_⟩
  rcases h x (by simpa [liveParts, parts] using hx) with h | ⟨a, rfl, _⟩
  · exact h.isWritable
  · rfl

end Expr

/-! ## `AND` and `OR` -/

/-- The arguments of `AND` and `OR` that have no truth ahead of the run, unless one decides. -/
def Site.open? (site : Site) (fn : String) (decisive : Bool) (xs : List Expr) :
    Option (List Expr) :=
  if xs.any fun x => site.truthOf? fn (.ofExpr x) = some decisive then none
  else some (xs.filter fun x => site.truthOf? fn (.ofExpr x) = none)

/-- What `AND` and `OR` come to: a truth if an argument decides or all of them have one, and
otherwise the call of those that have none. -/
def Site.connected (site : Site) (fn : String) (t : DataType) (decisive : Bool) (xs : List Expr) :
    Outcome :=
  match site.open? fn decisive xs with
  | none => .known (.bool decisive) .numeric
  | some [] => .known (.bool !decisive) .numeric
  | some (x :: left) => .residual (.call fn ((x :: left).map some) t)

section Connectives

variable {site : Site} {R : Giving} {decisive : Bool}

theorem boolGives_connected (fn : String) (t : DataType) (xs : List Expr) :
    BoolGives fn t decisive (site.open? fn decisive xs) (site.connected fn t decisive xs) := by
  unfold Site.connected
  rcases site.open? fn decisive xs with _ | _ | ⟨x, left⟩
  · exact .decided
  · exact .dropped
  · exact .left

/-- Which arguments are left if each of them comes to itself. -/
theorem undecided_of_forall
    (h : ∀ x, some x ∈ es → R x (.ofExpr x) ∧ (ofExpr x).expr = x) :
    Undecided site fn decisive R es (site.open? fn decisive (present es)) := by
  unfold Site.open?
  induction es with
  | nil => exact .nil
  | cons e es ih =>
    have ih := ih fun x hx => h x (mem_cons_of_mem _ hx)
    cases e with
    | none => exact .missing ih
    | some x =>
      obtain ⟨hx, hexpr⟩ := h x mem_cons_self
      have hpresent : present (some x :: es) = x :: present es := by simp [present]
      rw [hpresent, any_cons, filter_cons]
      cases htruth : site.truthOf? fn (.ofExpr x) with
      | none =>
        have hleft := Undecided.left hx htruth ih
        rw [hexpr] at hleft
        convert hleft using 1
        split <;> simp_all
      | some b =>
        obtain rfl | rfl : b = decisive ∨ b = !decisive := by cases b <;> cases decisive <;> simp
        · simpa using Undecided.decided hx htruth
        · have hdropped := Undecided.dropped hx htruth ih
          cases decisive <;> exact hdropped

end Connectives

/-- **`AND` and `OR` over constants and inputs** come to the decisive truth if a constant has it,
and otherwise to the call of the inputs and of the constants without a truth, in their order, or to
the other truth if there are none.  They keep the value that evaluating from the left finds. -/
theorem optimize_connective (ev : Evaluator) (opt : Optimizer) (hengine : opt.engine = ev.engine)
    {fn : String} {decisive : Bool}
    (hf : Builtin.ofName? fn = some (if decisive then .or else .and))
    {args : List (Option Expr)} (hargs : ∀ x, some x ∈ args → x.Supplied ev.book) (t : DataType)
    (origin : Option Address) (s : WalkState) :
    ∃ r s', opt.optimize ev.book (some (.call fn args t)) origin s = .ok r s' ∧
      r = (opt.site ev.book origin).connected fn t decisive (present args) ∧
      ∀ v, ev.evaluate (some (.call fn args t)) origin [] = .ok v [] →
        ev.evaluate (some r.expr) origin [] = .ok v [] := by
  have hfn : Builtin.ofName? fn = some .and ∨ Builtin.ofName? fn = some .or := by
    cases decisive <;> simp [hf]
  have hstays (x : Expr) (hx : some x ∈ trimmed args) : Stays (fun _ => True)
      (opt.site ev.book origin) (opt.enter ev.book ev.book.cells.length) .empty x :=
    (hargs x (mem_of_mem_trimmed hx)).stays
  -- Each argument comes to itself, so it is known which of them are left.
  have hundecided {R : Expr → Outcome → Prop}
      (hR : ∀ x, some x ∈ trimmed args → R x (.ofExpr x)) :
      Undecided (opt.site ev.book origin) fn decisive R (trimmed args)
        ((opt.site ev.book origin).open? fn decisive (present args)) := by
    rw [← present_trimmed]
    exact undecided_of_forall fun x hx => ⟨hR x hx, (hstays x hx).expr⟩
  have hgives : BoolGives fn t decisive _
      ((opt.site ev.book origin).connected fn t decisive (present args)) :=
    boolGives_connected fn t (present args)
  have hwalk : Comes (fun _ => True) .empty (opt.walkDeep ev.book ev.book.cells.length origin
      (.call fn args t)) ((opt.site ev.book origin).connected fn t decisive (present args)) := by
    rw [Optimizer.walkDeep_eq, walk_connective _ _ hf]
    exact comes_boolForm hfn (hundecided fun x hx => (hstays x hx).comes) hgives
  obtain ⟨s', hs'⟩ := exists_optimize_eq_ok hwalk (Expr.isWritable_call hargs) s
  have hupheld : ev.atStart.Upheld False (.start origin) (.call fn args t)
      ((opt.site ev.book origin).connected fn t decisive (present args)) := by
    refine upholds_bool id hfn hengine (fun args y => ?_) (hundecided fun x hx => ?_) hgives
    · rw [runs_call_iff, hf]
      cases decisive <;> rfl
    · rw [Runner.Upheld, (hstays x hx).expr]
      exact .refl _
  exact ⟨_, s', hs', rfl, fun v hv => (evaluate_of_upheld hupheld hv).1⟩

namespace ArgumentExample

open Sample KeptExample

theorem composed_text (s : String) : (text s).Composed := .constant (.text s) .string

theorem supplied_input : (Expr.cell (cellAt 1)).Supplied (evaluator [input]).book :=
  .inr ⟨cellAt 1, rfl, rfl⟩

/-- Two truths in one constant, which has no truth itself. -/
def truths : Expr := .constant (.array 1 2 [.bool true, .bool false]) .unknown

/-- `AND` of constants and an input. -/
def conjunction (args : Children) : Expr := .call "AND" args .unknown

end ArgumentExample

open Sample KeptExample ArgumentExample in
/-- A constant with a truth is dropped; one without and the input are left in their order. -/
theorem optimize_connective_mixed :
    ∃ s', (optimizer true).optimize (evaluator [input]).book (some (conjunction
        [some truths, none, some (.cell (cellAt 1)), some (.splice [some (truth true)])]))
          none .initial =
      .ok (.residual (conjunction [some truths, some (.cell (cellAt 1))])) s' ∧
    (evaluator [input]).evaluate
      (some (conjunction [some truths, some (.cell (cellAt 1))])) none [] =
        .ok (.bool false) [] := by
  have hargs : ∀ x, some x ∈ [some truths, none, some (.cell (cellAt 1)),
      some (.splice [some (truth true)])] → x.Supplied (evaluator [input]).book := by
    have htruth : (truth true).Composed := .constant (.bool true) .numeric
    have htruths : truths.Composed := .constant (.array 1 2 [.bool true, .bool false]) .unknown
    have hsplice : (Expr.splice ([truth true].map some)).Composed := .splice (by simpa using htruth)
    intro x hx
    obtain rfl | rfl | rfl : x = truths ∨ x = .cell (cellAt 1) ∨
        x = .splice [some (truth true)] := by
      simpa using hx
    · exact .inl htruths
    · exact supplied_input
    · exact .inl hsplice
  have hf : Builtin.ofName? "AND" = some (if false then .or else .and) := rfl
  obtain ⟨r, s', hr, rfl, hv⟩ := optimize_connective (evaluator [input]) (optimizer true) rfl hf
    hargs .unknown none .initial
  exact ⟨s', hr, hv (.bool false) rfl⟩

/-! ## `CONCATENATE` -/

section Texts

variable {site : Site} {node : Expr} {sole : Bool} {os run : List Outcome}

/-- Whether the texts of the outcomes can be joined. -/
def Engine.CanJoin (engine : Engine) (run : List Outcome) : Prop :=
  ∃ v, engine.call Builtin.concatenate.name (Outcome.values run) = .ok v

/-- Whether the formulas are not both constant. -/
def Expr.Apart (x y : Expr) : Prop :=
  ¬((ofExpr x).isConstant = true ∧ (ofExpr y).isConstant = true)

/-- A run of constants comes out as it was or as one constant; as no more than that if it can be
joined. -/
theorem flushed_cases (site : Site) (node : Expr) (sole : Bool) (run : List Outcome) :
    (∃ v t, site.flushed node sole run = ([.constant v t], true)) ∨
      site.flushed node sole run = (run.map (·.expr), false) ∧
        (site.engine.CanJoin run → worthJoining sole run = false) := by
  unfold Site.flushed
  split
  · split
    · rename_i hkept
      obtain ⟨v, _, rfl⟩ := exists_of_kept? hkept
      exact .inl ⟨_, _, rfl⟩
    · rename_i hkept
      refine .inr ⟨rfl, fun ⟨v, hv⟩ => ?_⟩
      obtain ⟨s, _, rfl⟩ := (call_concatenate rfl).mp hv
      rw [hv] at hkept
      cases hkept
  · exact .inr ⟨rfl, fun _ => Bool.eq_false_of_not_eq_true ‹_›⟩

theorem length_flushed_le (hrun : site.engine.CanJoin run) :
    (site.flushed node sole run).1.length ≤ 1 := by
  obtain ⟨v, t, h⟩ | ⟨h, hworth⟩ := flushed_cases site node sole run
  · rw [h]
    exact Nat.le_refl 1
  · rw [h]
    have hworth := hworth hrun
    rcases run with _ | ⟨o, _ | ⟨o', run⟩⟩
    · simp
    · simp
    · cases hworth

/-- The cells among the arguments are left as they are. -/
theorem filter_merged {p : Expr → Bool} (hp : ∀ v t, p (.constant v t) = false)
    (hrun : ∀ o ∈ run, p o.expr = false) (hos : ∀ o ∈ os, o.isConstant = true → p o.expr = false) :
    (site.merged node sole run os).1.filter p = (os.map (·.expr)).filter p := by
  have hflushed {run : List Outcome} (hrun : ∀ o ∈ run, p o.expr = false) :
      (site.flushed node sole run).1.filter p = [] := by
    obtain ⟨v, t, h⟩ | ⟨h, _⟩ := flushed_cases site node sole run
    · simp [h, hp]
    · simpa [h] using hrun
  induction os generalizing run with
  | nil => exact hflushed hrun
  | cons o rest ih =>
    have hos := forall_mem_cons.mp hos
    unfold Site.merged
    by_cases ho : o.isConstant = true
    · rw [if_pos ho, ih (forall_mem_append.mpr ⟨hrun, by simpa using hos.1 ho⟩) hos.2,
        map_cons, filter_cons_of_neg (by simp [hos.1 ho])]
    · rw [if_neg ho, filter_append, hflushed hrun, nil_append, map_cons,
        filter_cons, filter_cons, ih (by simp) hos.2]

/-- Where runs of constants can be joined, none are left next to each other. -/
theorem isChain_merged
    (hos : ∀ o ∈ os, o.isConstant = false → (ofExpr o.expr).isConstant = false)
    (h : ∀ r ∈ List.splitOnPPrepend (!·.isConstant) os run.reverse, site.engine.CanJoin r) :
    (site.merged node sole run os).1.IsChain Expr.Apart := by
  induction os generalizing run with
  | nil =>
    have hlength : (site.flushed node sole run).1.length ≤ 1 :=
      length_flushed_le (by simpa [List.splitOnPPrepend] using h)
    unfold Site.merged
    generalize (site.flushed node sole run).1 = xs at hlength ⊢
    rcases xs with _ | ⟨x, _ | ⟨y, xs⟩⟩
    · exact .nil
    · exact .singleton x
    · simp at hlength
  | cons o rest ih =>
    have hos := forall_mem_cons.mp hos
    rw [splitOnPPrepend_cons_eq_if] at h
    unfold Site.merged
    by_cases ho : o.isConstant = true
    · rw [if_pos ho]
      refine ih hos.2 fun r hr => h r ?_
      simpa [ho] using hr
    · rw [if_pos (by simp [ho]), reverse_reverse] at h
      obtain ⟨hrun, hrest⟩ := forall_mem_cons.mp h
      replace hrest : ∀ r ∈ List.splitOnPPrepend (!·.isConstant) rest [].reverse,
        site.engine.CanJoin r := hrest
      have hlength : (site.flushed node sole run).1.length ≤ 1 := length_flushed_le hrun
      have ho' := hos.1 (Bool.eq_false_of_not_eq_true ho)
      have hchain : (o.expr :: (site.merged node sole [] rest).1).IsChain Expr.Apart := by
        refine isChain_cons.mpr ⟨fun y _ hboth => ?_, ih hos.2 hrest⟩
        rw [ho'] at hboth
        cases hboth.1
      rw [if_neg ho]
      generalize (site.flushed node sole run).1 = xs at hlength ⊢
      rcases xs with _ | ⟨x, _ | ⟨y, xs⟩⟩
      · exact hchain
      · refine isChain_cons_cons.mpr ⟨fun hboth => ?_, hchain⟩
        rw [ho'] at hboth
        cases hboth.2
      · simp at hlength

/-- `CONCATENATE` comes to a constant, or to the call of the merged arguments; not to the call if
all arguments are constant and can be joined. -/
theorem concatenated_cases (site : Site) (node : Expr) (fn : String) (t : DataType)
    (os : List Outcome) :
    (∃ v u, site.concatenated node fn t os = .known v u ∧ ∀ o ∈ os, o.isConstant = true) ∨
      site.concatenated node fn t os = .residual
          (.call fn ((site.merged node (os.length == 1) [] os).1.map some) t) ∧
        ((∀ o ∈ os, o.isConstant = true) → ¬site.engine.CanJoin os) := by
  unfold Site.concatenated
  split
  · obtain rfl := isEmpty_iff.mp ‹_›
    exact .inl ⟨_, _, rfl, by simp⟩
  · rename_i hempty
    have hmerged (hconst : ∀ o ∈ os, o.isConstant = true) :
        site.merged node (os.length == 1) [] os = site.flushed node (os.length == 1) os :=
      merged_of_isConstant hconst _
    have hcases := flushed_cases site node (os.length == 1) os
    dsimp only
    split
    · rename_i e heq hjoined
      obtain ⟨hjoined, hconst⟩ := and_eq_true_iff.mp hjoined
      have hconst : ∀ o ∈ os, o.isConstant = true := by simpa using hconst
      rw [hmerged hconst] at heq hjoined
      obtain ⟨v, u, h⟩ | ⟨h, _⟩ := hcases
      · rw [h] at heq
        cases heq
        exact .inl ⟨_, _, rfl, hconst⟩
      · rw [h] at hjoined
        cases hjoined
    · rename_i hleft
      refine .inr ⟨rfl, fun hconst hjoins => ?_⟩
      rw [hmerged hconst] at hleft
      obtain ⟨v, u, h⟩ | ⟨_, hworth⟩ := hcases
      · rw [h] at hleft
        exact hleft _ rfl (by simpa using hconst)
      · have hworth := hworth hjoins
        rcases os with _ | ⟨o, _ | ⟨o', os⟩⟩
        · cases hempty rfl
        · cases hworth
        · cases hworth

end Texts

/-- Whether the formula is a reference to a cell. -/
def Expr.isCell : Expr → Bool
  | cell _ => true
  | _ => false

theorem isConstant_of_supplied {book : Workbook} {e : Option Expr}
    (h : ∀ x, e = some x → x.Supplied book) :
    (ofChild e).isConstant = !(ofChild e).expr.isCell ∧
      ((ofChild e).isConstant = false →
        (ofExpr (ofChild e).expr).isConstant = false) := by
  cases e with
  | none => exact ⟨rfl, fun h => by cases h⟩
  | some x =>
    rcases h x rfl with hx | ⟨a, rfl, _⟩
    · have hconst := hx.isConstant
      rw [ofChild, hconst]
      refine ⟨?_, fun h => by cases h⟩
      cases x <;> first | rfl | cases hconst
    · exact ⟨rfl, fun _ => rfl⟩

theorem filter_isCell_ofChild {es : Children} (h : ∀ x, some x ∈ es → (ofExpr x).expr = x) :
    ((es.map ofChild).map (·.expr)).filter Expr.isCell =
      (present es).filter Expr.isCell := by
  induction es with
  | nil => rfl
  | cons e es ih =>
    have ih := ih fun x hx => h x (mem_cons_of_mem _ hx)
    cases e with
    | none => exact ih
    | some x =>
      have hpresent : present (some x :: es) = x :: present es := by simp [present]
      rw [hpresent, map_cons, map_cons, ofChild, h x mem_cons_self,
        filter_cons, filter_cons, ih]

/-- **`CONCATENATE` over constants and inputs** keeps its value, and its inputs in their order and
number.  Where the texts of adjacent constants can be joined no two constants are left next to each
other, and a call without inputs comes to a constant. -/
theorem optimize_concatenate (ev : Evaluator) (opt : Optimizer) (hengine : opt.engine = ev.engine)
    {fn : String} (hf : Builtin.ofName? fn = some .concatenate) {args : List (Option Expr)}
    (hargs : ∀ x, some x ∈ args → x.Supplied ev.book) (t : DataType) (origin : Option Address)
    (s : WalkState) :
    ∃ r s', opt.optimize ev.book (some (.call fn args t)) origin s = .ok r s' ∧
      (∀ v, ev.evaluate (some (.call fn args t)) origin [] = .ok v [] →
        ev.evaluate (some r.expr) origin [] = .ok v []) ∧
      (present r.expr.children).filter Expr.isCell = (present args).filter Expr.isCell ∧
      ((∀ run ∈ ((trimmed args).map Outcome.ofChild).splitOnP (!·.isConstant),
          ev.engine.CanJoin run) →
        (present r.expr.children).IsChain Expr.Apart ∧
          ((present args).filter Expr.isCell = [] → r.isKnown = true)) := by
  have hstays (x : Expr) (hx : some x ∈ args) : Stays (fun _ => True)
      (opt.site ev.book origin) (opt.enter ev.book ev.book.cells.length) .empty x :=
    (hargs x hx).stays
  have hwritable : (Expr.call fn args t).isWritable ev.book.sectionPath = true :=
    Expr.isWritable_call hargs
  have hwalk := comes_concatenate lenient_true hf hwritable hstays
  rw [← Optimizer.walkDeep_eq] at hwalk
  obtain ⟨s', hs'⟩ := exists_optimize_eq_ok hwalk hwritable s
  have hupheld : ev.atStart.Upheld False (.start origin) (.call fn args t)
      ((opt.site ev.book origin).concatenated (.call fn args t) fn t
        ((trimmed args).map Outcome.ofChild)) := by
    have hsorted (h : False) (o : Outcome) (_ : o ∈ (trimmed args).map Outcome.ofChild) :
        o.expr.isSorted false .argument = true := h.elim
    refine upholds_concatenate hf ?_ hsorted (joinGives_concatenated fn t _)
    rw [forall₂_map_right_iff, forall₂_same]
    intro e he
    cases e with
    | none => rfl
    | some x =>
      change ev.atStart.Upheld _ _ x (.ofExpr x)
      rw [Runner.Upheld, (hstays x (mem_of_mem_trimmed he)).expr]
      exact .refl _
  refine ⟨_, s', hs', fun v hv => (evaluate_of_upheld hupheld hv).1, ?_⟩
  have hos : ∀ o ∈ (trimmed args).map Outcome.ofChild, o.isConstant = !o.expr.isCell ∧
      (o.isConstant = false → (Outcome.ofExpr o.expr).isConstant = false) := by
    refine forall_mem_map.mpr fun e he => isConstant_of_supplied fun x hx => hargs x ?_
    exact mem_of_mem_trimmed (hx ▸ he)
  have hcells : (((trimmed args).map Outcome.ofChild).map (·.expr)).filter Expr.isCell =
      (present args).filter Expr.isCell := by
    rw [filter_isCell_ofChild fun x hx => (hstays x (mem_of_mem_trimmed hx)).expr, present_trimmed]
  rw [← hcells]
  generalize (trimmed args).map Outcome.ofChild = os at hos
  obtain ⟨v, u, heq, hconst⟩ | ⟨heq, hnot⟩ :=
    concatenated_cases (opt.site ev.book origin) (.call fn args t) fn t os
  · rw [heq]
    refine ⟨Eq.symm (filter_eq_nil_iff.mpr ?_), fun _ => ⟨.nil, fun _ => rfl⟩⟩
    refine forall_mem_map.mpr fun o ho => ?_
    simpa [hconst o ho] using (hos o ho).1
  · have hchildren (xs : List Expr) :
        present (Outcome.residual (.call fn (xs.map some) t)).expr.children = xs := by
      simp [Outcome.expr, Expr.children, present, List.reduceOption, filterMap_map]
    replace hengine : (opt.site ev.book origin).engine = ev.engine := hengine
    rw [heq, hchildren, ← hengine]
    refine ⟨filter_merged (fun _ _ => rfl) (by simp) fun o ho hconst => ?_,
      fun hjoins => ⟨?_, fun hnil => ?_⟩⟩
    · simpa [hconst] using (hos o ho).1
    · exact isChain_merged (fun o ho => (hos o ho).2) hjoins
    · have hconst (o : Outcome) (ho : o ∈ os) : o.isConstant = true := by
        have := filter_eq_nil_iff.mp hnil o.expr (mem_map_of_mem ho)
        rw [(hos o ho).1]
        simpa using this
      refine absurd (hjoins os ?_) (hnot hconst)
      rw [splitOnP_eq_singleton (by simpa using hconst)]
      exact mem_singleton_self os

open Sample KeptExample ArgumentExample in
/-- The texts in front of the input and those behind it are joined, each to one. -/
theorem optimize_concatenate_mixed :
    ∃ r s', (optimizer true).optimize (evaluator [input]).book (some (.call "CONCATENATE"
        [some (text "a"), none, some (.splice [some (text "b")]), some (.cell (cellAt 1)),
          some (text "c"), some (text "d")] .string)) none .initial = .ok r s' ∧
      (evaluator [input]).evaluate (some r.expr) none [] = .ok (.text "abdcd") [] ∧
      (present r.expr.children).filter Expr.isCell = [.cell (cellAt 1)] ∧
      (present r.expr.children).IsChain Expr.Apart := by
  have hargs : ∀ x, some x ∈ [some (text "a"), none, some (.splice [some (text "b")]),
      some (.cell (cellAt 1)), some (text "c"), some (text "d")] →
        x.Supplied (evaluator [input]).book := by
    have hsplice : (Expr.splice ([text "b"].map some)).Composed :=
      .splice (by simpa using composed_text "b")
    intro x hx
    obtain rfl | rfl | rfl | rfl | rfl : x = text "a" ∨ x = .splice [some (text "b")] ∨
        x = .cell (cellAt 1) ∨ x = text "c" ∨ x = text "d" := by simpa using hx
    · exact .inl (composed_text "a")
    · exact .inl hsplice
    · exact supplied_input
    · exact .inl (composed_text "c")
    · exact .inl (composed_text "d")
  have hf : Builtin.ofName? "CONCATENATE" = some .concatenate := rfl
  obtain ⟨r, s', hr, hv, hcells, hjoined⟩ := optimize_concatenate (evaluator [input])
    (optimizer true) rfl hf hargs .string none .initial
  refine ⟨r, s', hr, hv _ rfl, hcells, (hjoined ?_).1⟩
  exact forall_mem_cons.mpr ⟨⟨_, rfl⟩, forall_mem_cons.mpr ⟨⟨_, rfl⟩, nofun⟩⟩

end FormulaFold
