import FormulaFold.Proofs.Joining
import FormulaFold.Proofs.Staying

/-! # Calls that stay as they are

An operator or a call stays if its computation is left to the run.  The forms with rules of their
own stay on conditions of their own: a condition of `IF` without a truth, arguments of `AND` and
`OR` that do not decide, an index into a range that is not known, texts that cannot be joined
further, and a position that is not known.
-/
namespace FormulaFold

open Walk

variable {x : Expr} {P : WalkState → Prop} {site : Site} {enter : Address → Expr → Action}
  {os : List Outcome} {compute : Computation}

theorem comes_generic {w : Expr → Action} {node : Expr} {done : List Outcome}
    (hos : Forall₂ (Child fun e o => Comes P b (w e) o) es os)
    (ho : Comes P b (site.settle node compute (done ++ os)) o) :
    Comes P b (site.generic node compute done (es.map (Option.map w))) o := by
  rw [generic_eq]
  exact (comes_runAll hos).bind ho

section Lenient

variable (hP : Lenient P) (hwritable : x.isWritable site.book.sectionPath = true)
include hP hwritable

/-- A node stays once its children are walked, if its computation is left to the run. -/
theorem comes_settle_again (hchildren : ∀ y, some y ∈ x.children → Stays P site enter b y)
    (hfix : x.withChildren x.children = .ok x) (htype : (site.book.typeOf? x).isSome)
    (hrefuses : Refuses compute ((trimmed x.children).map ofChild)) :
    Comes P b (site.settle x compute ((trimmed x.children).map ofChild)) (.ofExpr x) :=
  comes_settle hP hwritable htype (fun hconst => kept?_of_refused (hrefuses hconst) x)
    (fun hconst => (hrefuses hconst).expected) (comes_residual_again hchildren hfix htype)

end Lenient

theorem stays_operator (hP : Lenient P)
    (hwritable : (Expr.operator op args t).isWritable site.book.sectionPath = true)
    (hargs : ∀ y, some y ∈ args → Stays P site enter b y)
    (hrefuses : Refuses op.compute ((trimmed args).map ofChild)) :
    Stays P site enter b (.operator op args t) := by
  refine .mk rfl rfl ?_
  rw [walk, walkAll_eq, trimmed_map]
  exact comes_generic (forall₂_stays_trimmed hargs)
    (comes_settle_again hP hwritable hargs rfl rfl hrefuses)

section Calls

variable (hP : Lenient P)
  (hwritable : (Expr.call fn args t).isWritable site.book.sectionPath = true)
  (hargs : ∀ y, some y ∈ args → Stays P site enter b y)
include hP hwritable hargs

/-- A call whose first arguments are walked already. -/
theorem comes_generic_again (done : List Outcome) (rest : Children)
    (hdone : (trimmed args).map ofChild = done ++ rest.map ofChild)
    (hrest : ∀ y, some y ∈ rest → some y ∈ args)
    (hrefuses : Refuses compute ((trimmed args).map ofChild)) :
    Comes P b (site.generic (.call fn args t) compute done
      (rest.map (Option.map (walk site enter)))) (.residual (.call fn args t)) := by
  refine comes_generic (forall₂_stays fun y hy => hargs y (hrest y hy)) ?_
  rw [← hdone]
  exact comes_settle_again (x := .call fn args t) hP hwritable hargs rfl rfl hrefuses

theorem comes_generic_all (hrefuses : Refuses compute ((trimmed args).map ofChild)) :
    Comes P b (site.generic (.call fn args t) compute []
      ((trimmed args).map (Option.map (walk site enter)))) (.residual (.call fn args t)) :=
  comes_generic_again hP hwritable hargs [] _ rfl (fun _ => mem_of_mem_trimmed) hrefuses

theorem stays_plainCall
    (hfn : ∀ f ∈ [Builtin.ifElse, .and, .or, .index, .concatenate, .row, .column],
      ofName? fn ≠ some f)
    (hrefuses : Refuses (fun args => if site.engine.isVolatile fn then .error (.volatile fn)
      else site.engine.call fn args) ((trimmed args).map ofChild)) :
    Stays P site enter b (.call fn args t) := by
  refine .mk rfl rfl ?_
  rw [walk_call]
  dsimp only
  split
  case h_8 =>
    unfold callForm
    rw [trimmed_map]
    exact comes_generic_all hP hwritable hargs hrefuses
  all_goals
    rename_i hname
    exact absurd hname (hfn _ (by simp))

/-- A call of `IF` stays if its condition has no truth. -/
theorem stays_if (hfn : ofName? fn = some .ifElse)
    (hcondition : ∀ y rest v t', args = some y :: rest → ofExpr y = .known v t' →
      ∃ f, v.toBool = .error f)
    (hrefuses : Refuses (site.engine.call Builtin.ifElse.name)
      ((trimmed args).map ofChild)) :
    Stays P site enter b (.call fn args t) := by
  refine .mk rfl rfl ?_
  rw [walk_call, hfn]
  dsimp only
  have hgeneric := comes_generic_all hP hwritable hargs hrefuses
  rcases args with _ | ⟨_ | y, rest⟩
  · exact hgeneric
  · rw [← trimmed_map] at hgeneric
    exact hgeneric
  · rw [map_cons, map_some, ifForm_some_cons]
    refine (hargs y mem_cons_self).comes.bind ?_
    have hrest : Comes P b (site.generic (.call fn (some y :: rest) t)
        (site.engine.call Builtin.ifElse.name) [.ofExpr y]
        (trimmed (rest.map (Option.map (walk site enter)))))
        (.residual (.call fn (some y :: rest) t)) := by
      rw [trimmed_map]
      refine comes_generic_again hP hwritable hargs [_] _ ?_ ?_ hrefuses
      · rw [trimmed_some_cons]
        rfl
      · exact fun z hz => mem_cons_of_mem _ (mem_of_mem_trimmed hz)
    unfold ifRest
    cases ho : ofExpr y with
    | residual r =>
      rw [ho] at hrest
      exact hrest
    | known v t' =>
      obtain ⟨f, hf⟩ := hcondition y rest v t' rfl ho
      rw [ho] at hrest
      dsimp only
      rw [hf]
      exact comes_if_pos (failsAsExpected_toBool v f hf) hrest

end Calls

/-! ## Conjunctions and disjunctions -/

section Bool

variable {decisive : Bool} {w : Expr → Action}
  (hfn : ofName? fn = some .and ∨ ofName? fn = some .or)
include hfn

theorem comes_truthOf? (o : Outcome) :
    Comes P b (if o.isConstant then truth? site fn o else pure none) (site.truthOf? fn o) := by
  unfold Site.truthOf?
  by_cases hconst : o.isConstant = true
  · rw [if_pos hconst, if_pos hconst, truth?_eq]
    cases hresult : site.truthResult fn o with
    | ok r => exact comes_pure _
    | error f => exact comes_if_pos (failsAsExpected_truthResult hfn o f hresult) (comes_pure _)
  · rw [if_neg hconst, if_neg hconst]
    exact comes_pure _

theorem comes_undecided? (h : Undecided site fn decisive (fun e o => Comes P b (w e) o) es r) :
    Comes P b (undecided? site fn decisive (es.map (Option.map w))) r := by
  have hknown {o : Outcome} {truth : Option Bool} (h : site.truthOf? fn o = truth) :
      Comes P b (if o.isConstant then truth? site fn o else pure none) truth := by
    rw [← h]
    exact comes_truthOf? hfn o
  induction h with
  | nil => exact comes_pure _
  | missing _ ih => exact ih
  | decided ho htruth =>
    rw [map_cons, map_some, undecided?_some_cons]
    exact ho.bind ((hknown htruth).bind (comes_if_pos rfl (comes_pure _)))
  | dropped ho htruth _ ih =>
    rw [map_cons, map_some, undecided?_some_cons]
    exact ho.bind ((hknown htruth).bind (comes_if_neg (by simp) (ih.bind (comes_pure _))))
  | left ho htruth _ ih =>
    rw [map_cons, map_some, undecided?_some_cons]
    exact ho.bind ((hknown htruth).bind (comes_if_neg (by simp) (ih.bind (comes_pure _))))

theorem comes_boolForm
    (hr : Undecided site fn decisive (fun e o => Comes P b (w e) o) (trimmed es) r)
    (h : BoolGives fn t decisive r o) :
    Comes P b (boolForm site fn t decisive (es.map (Option.map w))) o := by
  unfold boolForm
  rw [trimmed_map]
  refine (comes_undecided? hfn hr).bind ?_
  cases h with
  | decided => exact comes_pure _
  | dropped => exact comes_pure _
  | left => exact comes_dynamic rfl

/-- A call of `AND` or `OR` stays if none of its arguments has a truth. -/
theorem stays_bool (hne : xs ≠ []) (hxs : ∀ y ∈ xs, Stays P site enter b y)
    (hopen : ∀ y ∈ xs, site.truthOf? fn (.ofExpr y) = none) :
    Stays P site enter b (.call fn (xs.map some) t) := by
  have hundecided (decisive : Bool) : Undecided site fn decisive
      (fun e o => Comes P b (e.walk site enter) o) (xs.map some) (some xs) := by
    clear hne
    induction xs with
    | nil => exact .nil
    | cons y xs ih =>
      have hxs := forall_mem_cons.mp hxs
      have hopen := forall_mem_cons.mp hopen
      have hleft := Undecided.left hxs.1.comes hopen.1 (ih hxs.2 hopen.2)
      rw [hxs.1.expr] at hleft
      exact hleft
  have hform (decisive : Bool) : Comes P b (boolForm site fn t decisive
      ((xs.map some).map (Option.map (walk site enter))))
      (.residual (.call fn (xs.map some) t)) := by
    refine comes_boolForm hfn (by rw [trimmed_map_some]; exact hundecided decisive) ?_
    cases xs with
    | nil => exact absurd rfl hne
    | cons y xs => exact .left
  refine .mk rfl rfl ?_
  rw [walk_call]
  rcases hfn with hfn | hfn
  · rw [hfn]
    exact hform false
  · rw [hfn]
    exact hform true

end Bool

/-! ## Selected elements -/

section Index

variable (hP : Lenient P)
  (hwritable : (Expr.call fn args t).isWritable site.book.sectionPath = true)
  (hargs : ∀ y, some y ∈ args → Stays P site enter b y)
  (hrefuses : Refuses (site.engine.call Builtin.index.name) ((trimmed args).map ofChild))
include hP hwritable hargs hrefuses

theorem comes_indexForm_one (hlen : trimmed args = [some (.range rows cols elements), some first])
    (hone : ∀ k, indexOf? (.ofExpr first) = some k → 1 < rows ∧ 1 < cols) :
    Comes P b (indexForm site (.call fn args t)
      (some (gridOf (walk site enter) (rows, cols, elements)))
      (args.map (Option.map (walk site enter)))) (.residual (.call fn args t)) := by
  have hmem {y : Expr} (hy : some y ∈ [some (.range rows cols elements), some first]) :
      Stays P site enter b y := hargs y (mem_of_mem_trimmed (hlen ▸ hy))
  have hgeneric := comes_generic_again hP hwritable hargs
    [.residual (.range rows cols elements), .ofExpr first] [] (by rw [hlen]; rfl) (by simp) hrefuses
  have hplace : (indexOf? (.ofExpr first)).bind
      (gridOf (walk site enter) (rows, cols, elements)).place? = none := by
    cases hk : indexOf? (.ofExpr first) with
    | none => rfl
    | some k => exact if_pos (hone k hk)
  simp only [indexForm, trimmed_map, hlen, map_cons, map_some, map_nil]
  refine (hmem (by simp)).comes.bind ?_
  rw [hplace]
  exact (hmem mem_cons_self).comes.bind hgeneric

theorem comes_indexForm_two
    (hlen : trimmed args = [some (.range rows cols elements), some first, some second])
    (htwo : ∀ k, indexOf? (.ofExpr first) = some k → indexOf? (.ofExpr second) = none) :
    Comes P b (indexForm site (.call fn args t)
      (some (gridOf (walk site enter) (rows, cols, elements)))
      (args.map (Option.map (walk site enter)))) (.residual (.call fn args t)) := by
  have hmem {y : Expr}
      (hy : some y ∈ [some (.range rows cols elements), some first, some second]) :
      Stays P site enter b y := hargs y (mem_of_mem_trimmed (hlen ▸ hy))
  have hrange := (hmem mem_cons_self).comes
  have hsecond : some second ∈ args := mem_of_mem_trimmed (hlen ▸ by simp)
  simp only [indexForm, trimmed_map, hlen, map_cons, map_some, map_nil]
  refine (hmem (by simp)).comes.bind ?_
  cases hk : indexOf? (.ofExpr first) with
  | none =>
    refine hrange.bind (comes_generic_again hP hwritable hargs [_, _] [some second]
      (by rw [hlen]; rfl) (fun y hy => ?_) hrefuses)
    cases mem_singleton.mp hy
    exact hsecond
  | some k =>
    refine (hargs second hsecond).comes.bind ?_
    rw [htwo k hk]
    exact hrange.bind (comes_generic_again hP hwritable hargs [_, _, _] []
      (by rw [hlen]; rfl) (by simp) hrefuses)

/-- A call of `INDEX` stays unless it looks into a range with known indices. -/
theorem stays_index (hfn : ofName? fn = some .index)
    (hone : ∀ rows cols elements first k,
      trimmed args = [some (.range rows cols elements), some first] →
      indexOf? (.ofExpr first) = some k → 1 < rows ∧ 1 < cols)
    (htwo : ∀ rows cols elements first second k,
      trimmed args = [some (.range rows cols elements), some first, some second] →
      indexOf? (.ofExpr first) = some k → indexOf? (.ofExpr second) = none) :
    Stays P site enter b (.call fn args t) := by
  have hgeneric := comes_generic_all hP hwritable hargs hrefuses
  have hform : Comes P b (indexForm site (.call fn args t)
      ((indexRange? args).map (gridOf (walk site enter)))
      (args.map (Option.map (walk site enter)))) (.residual (.call fn args t)) := by
    cases hrange : indexRange? args with
    | none =>
      simp only [indexForm, map_none, List.length_nil, List.drop_zero, trimmed_map]
      exact hgeneric
    | some r =>
      obtain ⟨rows, cols, elements⟩ := r
      obtain ⟨more, rfl⟩ := indexRange?_eq_some hrange
      rw [map_some]
      by_cases hfirst : ∃ first, trimmed more = [some first]
      · obtain ⟨first, hfirst⟩ := hfirst
        have hlen := (trimmed_some_cons (Expr.range rows cols elements) more).trans
          (congrArg _ hfirst)
        exact comes_indexForm_one hP hwritable hargs hrefuses hlen fun k => hone _ _ _ _ k hlen
      by_cases hsecond : ∃ first second, trimmed more = [some first, some second]
      · obtain ⟨first, second, hsecond⟩ := hsecond
        have hlen := (trimmed_some_cons (Expr.range rows cols elements) more).trans
          (congrArg _ hsecond)
        exact comes_indexForm_two hP hwritable hargs hrefuses hlen fun k => htwo _ _ _ _ _ k hlen
      rw [indexForm_of_ne hfirst hsecond]
      exact hgeneric
  refine .mk rfl rfl ?_
  rw [walk_call, hfn]
  exact hform

end Index

/-! ## Positions and joined texts -/

/-- A call of `ROW` or `COLUMN` stays if the position is not known. -/
theorem stays_position (hP : Lenient P) {position : Address → Int}
    (hfn : ofName? fn = some .row ∧ position = (·.row) ∨
      ofName? fn = some .column ∧ position = (·.col))
    (hwritable : (Expr.call fn args t).isWritable site.book.sectionPath = true)
    (hargs : ∀ y, some y ∈ args → Stays P site enter b y)
    (hleft : ∀ a, positionCell site fn args = .ok a →
      site.kept? (.call fn args t) (.ok (.number (Float.ofInt (position a)))) = none) :
    Stays P site enter b (.call fn args t) := by
  have hform : Comes P b (positionForm site (.call fn args t) fn position args
      (args.map (Option.map (walk site enter)))) (.residual (.call fn args t)) := by
    unfold positionForm
    have hexpected := (failsAsExpected_positionCell site fn args).bind fun a =>
      failsAsExpected_pure (Value.number (Float.ofInt (position a)))
    have htry := comes_tryConstant (b := b) hP hwritable rfl hexpected
    have hnone : site.kept? (.call fn args t) (positionCell site fn args >>= fun a =>
        pure (Value.number (Float.ofInt (position a)))) = none := by
      cases hcell : positionCell site fn args with
      | error f => rfl
      | ok a => exact hleft a hcell
    rw [hnone] at htry
    refine htry.bind ?_
    exact comes_rebuildForm_again (x := .call fn args t) hargs rfl rfl
  refine .mk rfl rfl ?_
  rw [walk_call]
  rcases hfn with ⟨hfn, rfl⟩ | ⟨hfn, rfl⟩
  · rw [hfn]
    exact hform
  · rw [hfn]
    exact hform

section Concatenate

variable {node : Expr} (hP : Lenient P)
  (hwritable : node.isWritable site.book.sectionPath = true)
  (htype : (site.book.typeOf? node).isSome)
include hP hwritable htype

theorem comes_flushRun (sole : Bool) (run : List Outcome) :
    Comes P b (flushRun site node sole run) (site.flushed node sole run) := by
  rw [flushRun_eq]
  unfold Site.flushed
  by_cases hworth : worthJoining sole run = true
  · rw [if_pos hworth, if_pos hworth]
    refine (comes_tryConstant hP hwritable htype (failsAsExpected_concatenate _ _)).bind ?_
    cases site.kept? node (site.engine.call Builtin.concatenate.name (Outcome.values run)) with
    | none => exact comes_pure _
    | some o => exact comes_pure _
  · rw [if_neg hworth, if_neg hworth]
    exact comes_pure _

theorem comes_mergeRuns (sole : Bool) (run os : List Outcome) :
    Comes P b (mergeRuns site node sole run os) (site.merged node sole run os) := by
  induction os generalizing run with
  | nil => exact comes_flushRun hP hwritable htype sole run
  | cons o rest ih =>
    unfold mergeRuns Site.merged
    by_cases hconst : o.isConstant = true
    · rw [if_pos hconst, if_pos hconst]
      exact ih _
    · rw [if_neg hconst, if_neg hconst]
      exact (comes_flushRun hP hwritable htype sole run).bind ((ih []).bind (comes_pure _))

end Concatenate

/-- A call of `CONCATENATE` comes to its joined arguments. -/
theorem comes_concatenate (hP : Lenient P) (hfn : ofName? fn = some .concatenate)
    (hwritable : (Expr.call fn args t).isWritable site.book.sectionPath = true)
    (hargs : ∀ y, some y ∈ args → Stays P site enter b y) :
    Comes P b ((Expr.call fn args t).walk site enter)
      (site.concatenated (.call fn args t) fn t ((trimmed args).map ofChild)) := by
  rw [walk_call, hfn]
  dsimp only
  unfold concatForm
  rw [trimmed_map]
  refine (comes_runAll (forall₂_stays_trimmed hargs)).bind ?_
  generalize (trimmed args).map ofChild = os
  unfold Site.concatenated
  by_cases hempty : os.isEmpty = true
  · rw [if_pos hempty, if_pos hempty]
    refine (comes_tryConstant hP hwritable rfl (failsAsExpected_concatenate _ _)).bind ?_
    cases site.kept? (.call fn args t) (site.engine.call Builtin.concatenate.name []) with
    | none => exact comes_dynamic rfl
    | some o => exact comes_pure _
  · rw [if_neg hempty, if_neg hempty]
    refine (comes_mergeRuns hP hwritable rfl _ _ _).bind ?_
    obtain ⟨merged, joined⟩ := site.merged (.call fn args t) (os.length == 1) [] os
    dsimp only
    generalize (joined && os.all (·.isConstant)) = all
    rcases merged with _ | ⟨e, _ | ⟨e', rest⟩⟩
    · exact comes_dynamic rfl
    · cases all with
      | true => exact comes_pure _
      | false => exact comes_dynamic rfl
    · exact comes_dynamic rfl

/-- It stays if these are the arguments that it has. -/
theorem stays_concatenate (hP : Lenient P) (hfn : ofName? fn = some .concatenate)
    (hwritable : (Expr.call fn args t).isWritable site.book.sectionPath = true)
    (hargs : ∀ y, some y ∈ args → Stays P site enter b y)
    (hjoined : site.concatenated (.call fn args t) fn t ((trimmed args).map ofChild) =
      .residual (.call fn args t)) :
    Stays P site enter b (.call fn args t) := by
  refine .mk rfl rfl ?_
  have hcomes := comes_concatenate hP hfn hwritable hargs
  rw [hjoined] at hcomes
  exact hcomes

/-! ## Joined texts, joined again -/

section Joined

theorem map_ofExpr_expr (h : ∀ o ∈ os, o.Typed) : (os.map (·.expr)).map ofExpr = os := by
  rw [map_map]
  exact (map_congr_left h).trans (List.map_id os)

theorem isKnown_of_kept? {r : Except Failure Value} (h : site.kept? node r = some o) :
    o.isKnown = true := by
  obtain ⟨v, _, rfl⟩ := exists_of_kept? h
  rfl

theorem flushed_ne_nil (h : run ≠ []) : (site.flushed node sole run).1 ≠ [] := by
  unfold Site.flushed
  split
  · split
    · simp
    · simpa using h
  · simpa using h

theorem merged_ne_nil (h : run ++ os ≠ []) : (site.merged node sole run os).1 ≠ [] := by
  induction os generalizing run with
  | nil => exact flushed_ne_nil (by simpa using h)
  | cons o rest ih =>
    unfold Site.merged
    split
    · exact ih (by simp)
    · simp

variable (site node) in
/-- A run of constants that was joined, or could not be, is left as it is. -/
theorem flushed_again (hconst : ∀ o ∈ run, o.isConstant = true) (htyped : ∀ o ∈ run, o.Typed) :
    (∀ o ∈ (site.flushed node false run).1.map ofExpr, o.isConstant = true) ∧
      site.flushed node false ((site.flushed node false run).1.map ofExpr) =
        ((site.flushed node false run).1, false) := by
  -- A run that is not joined comes out as it was.
  have hleft (h : site.flushed node false run = (run.map (·.expr), false)) :
      (∀ o ∈ (site.flushed node false run).1.map ofExpr, o.isConstant = true) ∧
        site.flushed node false ((site.flushed node false run).1.map ofExpr) =
          ((site.flushed node false run).1, false) := by
    rw [h, map_ofExpr_expr htyped]
    exact ⟨hconst, h⟩
  by_cases hworth : worthJoining false run = true
  · cases hkept : site.kept? node
        (site.engine.call Builtin.concatenate.name (Outcome.values run)) with
    | none => exact hleft (by simp only [Site.flushed, hworth, if_true, hkept])
    | some o =>
      have hjoined : site.flushed node false run = ([o.expr], true) := by
        simp only [Site.flushed, hworth, if_true, hkept]
      have hknown := isKnown_of_kept? hkept
      have hexpr : [o.expr].map ofExpr = [o] := congrArg ([·]) (typed_of_kept? hkept)
      rw [hjoined, hexpr]
      refine ⟨?_, ?_⟩
      · intro x hx
        rw [mem_singleton.mp hx]
        exact isConstant_of_isKnown hknown
      · simp [Site.flushed, worthJoining, hknown]
  · exact hleft (by simp only [Site.flushed, hworth]; rfl)

theorem merged_append {xs rest : List Outcome} (hxs : ∀ o ∈ xs, o.isConstant = true) :
    site.merged node sole run (xs ++ rest) = site.merged node sole (run ++ xs) rest := by
  induction xs generalizing run with
  | nil => simp
  | cons o xs ih =>
    have hxs := forall_mem_cons.mp hxs
    rw [cons_append, Site.merged, if_pos hxs.1, ih hxs.2, List.append_assoc]
    rfl

/-- Arguments that were joined are not joined further. -/
theorem merged_again (hconst : ∀ o ∈ run, o.isConstant = true) (hrun : ∀ o ∈ run, o.Typed)
    (hos : ∀ o ∈ os, o.Typed) :
    site.merged node false [] ((site.merged node false run os).1.map ofExpr) =
      ((site.merged node false run os).1, false) := by
  induction os generalizing run with
  | nil =>
    obtain ⟨hflushed, heq⟩ := flushed_again site node hconst hrun
    rw [Site.merged, merged_of_isConstant hflushed, nil_append]
    exact heq
  | cons o rest ih =>
    have hos := forall_mem_cons.mp hos
    rw [Site.merged]
    by_cases ho : o.isConstant = true
    · rw [if_pos ho]
      refine ih (fun x hx => ?_) (fun x hx => ?_) hos.2
      · rcases mem_append.mp hx with hx | hx
        · exact hconst x hx
        · rwa [mem_singleton.mp hx]
      · rcases mem_append.mp hx with hx | hx
        · exact hrun x hx
        · rw [mem_singleton.mp hx]
          exact hos.1
    · obtain ⟨hflushed, heq⟩ := flushed_again site node hconst hrun
      have hexpr : ofExpr o.expr = o := hos.1
      have hrest : site.merged node false []
          ((site.merged node false [] rest).1.map ofExpr) =
            ((site.merged node false [] rest).1, false) := ih (by simp) (by simp) hos.2
      rw [if_neg ho, map_append, map_cons, merged_append hflushed, hexpr, Site.merged,
        if_neg ho, nil_append, heq, hrest]

/-- A single argument is left only of a run of constants or of a single argument. -/
theorem isConstant_or_of_merged (h : (site.merged node sole run os).1.length = 1) :
    (∀ o ∈ os, o.isConstant = true) ∨ (run = [] ∧ os.length = 1) := by
  induction os generalizing run with
  | nil => exact .inl (by simp)
  | cons o rest ih =>
    rw [Site.merged] at h
    by_cases ho : o.isConstant = true
    · rw [if_pos ho] at h
      rcases ih h with hrest | ⟨hnil, _⟩
      · exact .inl (forall_mem_cons.mpr ⟨ho, hrest⟩)
      · simp at hnil
    · rw [if_neg ho] at h
      have hlength : (site.flushed node sole run).1.length = 0 ∧
          (site.merged node sole [] rest).1.length = 0 := by
        simp only [length_append, length_cons] at h
        omega
      have hrun : run = [] := by
        by_contra hne
        exact flushed_ne_nil hne (length_eq_zero_iff.mp hlength.1)
      have hrest : rest = [] := by
        by_contra hne
        exact merged_ne_nil (by simpa using hne) (length_eq_zero_iff.mp hlength.2)
      exact .inr ⟨hrun, by simp [hrest]⟩

/-- What is left of several arguments that are not joined to one. -/
theorem merged_again_of_several (hos : ∀ o ∈ os, o.Typed) (hseveral : os.length ≠ 1)
    (h : site.merged node false [] os = (xs, joined))
    (hleft : xs.length = 1 → (joined && os.all (·.isConstant)) = false) :
    site.merged node (xs.length == 1) [] (xs.map ofExpr) = (xs, false) := by
  have hagain : site.merged node false [] ((site.merged node false [] os).1.map ofExpr) =
      ((site.merged node false [] os).1, false) := merged_again (by simp) (by simp) hos
  have hxs : xs.length ≠ 1 := by
    intro hone
    have hlength : (site.merged node false [] os).1.length = 1 := by rwa [h]
    rcases isConstant_or_of_merged hlength with hconst | ⟨_, hlength⟩
    · rw [merged_of_isConstant hconst, nil_append] at h
      have hall : os.all (·.isConstant) = true := all_eq_true.mpr hconst
      rw [hall, Bool.and_true] at hleft
      unfold Site.flushed at h
      split at h
      · split at h
        · cases h
          exact absurd (hleft rfl) (by simp)
        · cases h
          exact hseveral (by simpa using hone)
      · cases h
        exact hseveral (by simpa using hone)
    · exact hseveral hlength
  rw [h] at hagain
  rw [show (xs.length == 1) = false from beq_eq_false_iff_ne.mpr hxs]
  exact hagain

/-- A single argument that is not joined. -/
theorem merged_of_single (h : site.merged node true [] [o] = (xs, joined))
    (hleft : xs.length = 1 → (joined && [o].all (·.isConstant)) = false) : xs = [o.expr] := by
  have hnil : site.flushed node true [] = ([], false) := rfl
  rw [Site.merged] at h
  by_cases ho : o.isConstant = true
  · rw [if_pos ho, nil_append, Site.merged] at h
    unfold Site.flushed at h
    split at h
    · split at h
      · cases h
        simp [ho] at hleft
      · cases h
        rfl
    · cases h
      rfl
  · rw [if_neg ho, hnil, Site.merged, hnil] at h
    cases h
    rfl

theorem flushed_congr (hnode : ∀ r, site.kept? node' r = site.kept? node r) :
    site.flushed node' sole run = site.flushed node sole run := by
  simp only [Site.flushed, hnode]

theorem merged_congr (hnode : ∀ r, site.kept? node' r = site.kept? node r) :
    site.merged node' sole run os = site.merged node sole run os := by
  induction os generalizing run with
  | nil => exact flushed_congr hnode
  | cons o rest ih => rw [Site.merged, Site.merged, ih, ih, flushed_congr hnode]

end Joined

/-- **What `CONCATENATE` leaves cannot be joined further.** -/
theorem concatenated_again {args' : Children} (hos : ∀ o ∈ os, o.Typed)
    (h : site.concatenated (.call fn args t) fn t os = .residual (.call fn args' t)) :
    site.concatenated (.call fn args' t) fn t ((trimmed args').map ofChild) =
      .residual (.call fn args' t) := by
  have hkept (r : Except Failure Value) :
      site.kept? (.call fn args' t) r = site.kept? (.call fn args t) r := rfl
  have hempty : os ≠ [] := by
    rintro rfl
    cases h
  have hisEmpty {os : List Outcome} (h : os ≠ []) : ¬os.isEmpty = true := by simpa using h
  unfold Site.concatenated at h
  rw [if_neg (hisEmpty hempty)] at h
  dsimp only at h
  split at h
  · -- All of it was joined, so nothing is left to the run.
    rename_i e hmerged hjoined
    rw [and_eq_true] at hjoined
    have hconst : ∀ o ∈ os, o.isConstant = true := by simpa using hjoined.2
    rw [merged_of_isConstant hconst, nil_append] at hmerged hjoined
    obtain ⟨o, hkept, rfl⟩ := exists_of_flushed (Prod.ext hmerged hjoined.1)
    have hknown := isKnown_of_kept? hkept
    rw [show ofExpr o.expr = o from typed_of_kept? hkept] at h
    rw [h] at hknown
    cases hknown
  · rename_i hleft
    generalize hmerged : site.merged (.call fn args t) (os.length == 1) [] os = r at h hleft
    obtain ⟨xs, joined⟩ := r
    cases h
    have hone (hlength : xs.length = 1) : (joined && os.all (·.isConstant)) = false := by
      obtain ⟨e, rfl⟩ := List.length_eq_one_iff.mp hlength
      exact eq_false_of_ne_true (hleft e rfl)
    have hne : (site.merged (.call fn args t) (os.length == 1) [] os).1 ≠ [] :=
      merged_ne_nil (by simpa using hempty)
    have hchildren : (xs.map some).map ofChild = xs.map ofExpr := by
      rw [map_map]
      rfl
    rw [hmerged] at hne
    rw [trimmed_map_some, hchildren]
    unfold Site.concatenated
    rw [if_neg (hisEmpty (by simpa using hne)), length_map, merged_congr hkept]
    by_cases hsole : os.length = 1
    · -- The only argument stands for itself, so nothing has changed.
      obtain ⟨o, rfl⟩ := List.length_eq_one_iff.mp hsole
      obtain rfl := merged_of_single hmerged hone
      have hexpr : [o.expr].map ofExpr = [o] :=
        congrArg ([·]) (hos o mem_cons_self)
      rw [hexpr, show site.merged (.call fn args t) ([o.expr].length == 1) [] [o] = _ from hmerged]
      dsimp only
      rw [hone rfl]
      rfl
    · rw [show (os.length == 1) = false from beq_eq_false_iff_ne.mpr hsole] at hmerged
      rw [merged_again_of_several hos hsole hmerged hone]
      dsimp only
      rw [Bool.false_and]
      split
      · rename_i hfalse
        cases hfalse
      · rfl

end FormulaFold
