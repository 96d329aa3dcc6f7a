import FormulaFold.Proofs.Conversions

/-! # Forms that are upheld

`IF` and a switch with a known condition yield what the selected branch yields, and
`CONCATENATE` yields the same text when adjacent constants are joined ahead of the run.

`AND`, `OR`, `INDEX`, `ROW` and `COLUMN` skip arguments that a run computes, so that an argument
that fails is lost: they yield what they yielded before, but they may yield more.
-/
namespace FormulaFold

variable {a : Address} {b plain : Bool} {t' t : DataType} {engine : Engine} {condition node : Expr}
  {R : Giving} {c cols k rows static : Int} {args : Children}
  {os : List Outcome} {vs : List Value} {r : Option (List Expr)} {s fn : String} {u v : Value}
  {y : Yield} {strict : Prop} {ev : Runner} {env : Env}
  {site : Site} {o : Outcome}

/-- The outcome yields what the formula yields, and it may stand at the place. -/
def Runner.UpheldAs (ev : Runner) (strict : Prop) (plain : Bool) (place : Place)
    (env : Env) (e : Expr) (o : Outcome) : Prop :=
  ev.Upheld strict env e o ∧ o.expr.isSorted plain place = true

section Places

variable {place : Place} {es : Children}

theorem upheld_of_upheldAs
    (h : Forall₂ (Child (ev.UpheldAs strict plain place env)) es os) :
    Forall₂ (Child (ev.Upheld strict env)) es os :=
  forall₂_child_imp (fun _ _ _ h => h.1) h

theorem isSorted_of_upheldAs
    (h : Forall₂ (Child (ev.UpheldAs strict plain place env)) es os) :
    ∀ o ∈ os, o.expr.isSorted plain place = true := by
  intro o ho
  obtain ⟨e, _, he⟩ := exists_of_forall₂_of_mem h ho
  cases e with
  | none =>
    rw [show o = .blank from he]
    exact fits_blank.isSorted _
  | some e => exact he.2

end Places

/-! ## Branches -/

section Branches

variable {es es' : Children}

theorem becomes_join_getElem? (h : Forall₂ (Becomes R) es es') (i : Nat) :
    Becomes R es[i]?.join es'[i]?.join := by
  induction h generalizing i with
  | nil => exact .none
  | cons he _ ih =>
    cases i with
    | zero => exact he
    | succ i => exact ih i

/-- What the branch that a truth value selects yields. -/
def BranchYields (M : Yielding) (branches : Children) : Bool → Yield → Prop
  | true => ChildOr (.one (.number 0.0)) M branches[0]?.join
  | false => ChildOr (.one (.bool false)) M branches[1]?.join

theorem upholds_branches (h : Forall₂ (Becomes (ev.Upheld strict env)) es es')
    (b : Bool) : Upholds strict (BranchYields (ev.Runs env) es b)
      (BranchYields (ev.Runs env) es' b) := by
  cases b with
  | true => exact upholds_becomes (becomes_join_getElem? h 0)
  | false => exact upholds_becomes (becomes_join_getElem? h 1)

theorem runs_if_iff (hf : ofName? fn = some .ifElse) :
    ev.Runs env (.call fn (some condition :: es) t) y ↔
      ∃ c, ev.Runs env condition c ∧ ∃ b, c.toBool = .ok b ∧
        BranchYields (ev.Runs env) es b y := by
  have hcard : cardinality (some condition :: es) ≠ 0 := by
    simp [cardinality, trimmed_some_cons]
  rw [runs_call_iff, hf]
  simp only [CallYields, IfYields, if_neg hcard]
  constructor
  · rintro ⟨c, b, hc, hb, hy⟩
    exact ⟨c, hc, b, hb, by cases b <;> exact hy⟩
  · rintro ⟨c, hc, b, hb, hy⟩
    exact ⟨c, b, hc, hb, by cases b <;> exact hy⟩

/-- A known condition selects its branch. -/
theorem upholds_branch (hf : ofName? fn = some .ifElse)
    (hc : ev.Upheld strict env condition (.known v t')) (hv : v.toBool = .ok b) :
    Upholds strict (ev.Runs env (.call fn (some condition :: es) t))
      (BranchYields (ev.Runs env) es b) := by
  have hcondition : Upholds strict (ev.Runs env condition) (· = .one v) :=
    hc.trans (.of_iff fun y => runs_constant)
  refine (Upholds.of_iff fun y => runs_if_iff hf).trans (hcondition.exists_eq.trans ?_)
  refine .of_iff fun y => ⟨?_, fun hy => ⟨b, hv, hy⟩⟩
  rintro ⟨b', hb', hy⟩
  cases hb'.symm.trans hv
  exact hy

/-- **`IF` is upheld.** -/
theorem upholds_if {condition : Expr} {c : Outcome} (hf : ofName? fn = some .ifElse)
    (hc : ev.Upheld strict env condition c) (hsorted : c.expr.isSorted plain .scalar = true)
    (h : IfGives False site (.call fn (some condition :: es) t) (ev.Upheld strict env) c es o) :
    ev.Upheld strict env (.call fn (some condition :: es) t) o := by
  cases h with
  | chosen hc' hv ho | other hc' hv ho =>
    subst hc'
    exact (upholds_branch hf hc hv).trans (upholds_childOr (fun y => runs_constant) ho)
  | settled hundecided hos ho =>
    cases ho with
    | kept hconst hkept =>
      -- The value of a constant condition is known, and then its truth is as well.
      obtain ⟨v, t', rfl, _⟩ := fits_of_isConstant hsorted (all_eq_true.mp hconst _
        mem_cons_self)
      obtain ⟨f, hf⟩ := hundecided v t' rfl
      obtain ⟨u, hu, _⟩ := exists_of_kept? hkept
      obtain ⟨b, hb⟩ := Engine.exists_toBool_of_call_ifElse hu
      cases hf.symm.trans hb
    | left _ he =>
      cases he
      have hbranches := upholds_branches (becomes_keepMissing_trimmed hos)
      refine (Upholds.of_iff fun y => runs_if_iff hf).trans ?_
      refine Upholds.trans ?_ (.of_iff fun y => (runs_if_iff hf).symm)
      exact Upholds.exists_and hc fun x _ => .exists_and (.refl _) fun b _ => hbranches b

end Branches

/-! ## `AND` and `OR` -/

section Truths

variable {decisive : Bool} {es : Children}

theorem truthOf_yield (hengine : site.engine = ev.engine) (hconst : o.isConstant = true)
    (hsorted : o.expr.isSorted plain .argument = true) :
    ev.engine.truthOf fn o.yield = site.truthResult fn o := by
  rw [← hengine]
  have harray (y : Yield) (e : Expr) (hy : y.single = e.materialize)
      (he : ∃ rows cols vs, e.materialize = .array rows cols vs) :
      site.engine.truthOf fn y = site.truthResult fn (.residual e) := by
    obtain ⟨rows, cols, vs, he⟩ := he
    simp only [Engine.truthOf, Site.truthResult, hy, he]
  cases o with
  | known v t =>
    obtain ⟨_, _, heq, hv⟩ := fits_of_isKnown hsorted rfl
    cases heq
    cases v with
    | array => cases Value.isArray_of_fits hv
    | _ => rfl
  | residual e =>
    cases e with
    | range rows cols elements =>
      obtain ⟨rows', cols', hgrid⟩ := exists_grid_eq rows cols (materializeAll elements)
      exact harray _ _ rfl ⟨rows', cols', _, hgrid⟩
    | splice elements =>
      obtain ⟨rows', cols', hgrid⟩ := exists_grid_eq 1 _ (materializeAll elements)
      simp only [Outcome.expr, isSorted, and_eq_true] at hsorted
      have heq : Expr.spliceAll elements = materializeAll elements :=
        spliceAll_eq hconst hsorted.2
      refine harray _ _ ?_ ⟨rows', cols', _, hgrid⟩
      rw [Outcome.yield, heq]
      rfl
    | _ => cases hconst

theorem boolYields_trimmed {M : Yielding} (h : BoolYields ev.engine fn decisive M es y) :
    BoolYields ev.engine fn decisive M (trimmed es) y := by
  induction h with
  | nil => exact .nil
  | @missing rest y _ ih =>
    rw [trimmed_none_cons]
    generalize trimmed rest = rest at ih
    cases rest with
    | nil => exact ih
    | cons => exact .missing ih
  | decided hx htruth =>
    rw [trimmed_some_cons]
    exact .decided hx htruth
  | next hx htruth _ ih =>
    rw [trimmed_some_cons]
    exact .next hx htruth ih

/-- What is left of the arguments of `AND` and `OR` yields what they yielded. -/
theorem boolYields_of_undecided
    (hfn : ofName? fn = some .and ∨ ofName? fn = some .or) (hengine : site.engine = ev.engine)
    (h : Undecided site fn decisive (ev.Upheld strict env) es r)
    (hy : BoolYields ev.engine fn decisive (ev.Runs env) es y) :
    r.elim (y = .one (.bool decisive)) fun xs =>
      BoolYields ev.engine fn decisive (ev.Runs env) (xs.map some) y := by
  induction h generalizing y with
  | nil => exact hy
  | missing _ ih =>
    cases hy with
    | missing hy => exact ih hy
  | decided ho htruth =>
    cases hy with
    | decided => rfl
    | next hx hx' =>
      have htruth := hx'.symm.trans (truthOf_of_runs hfn hengine htruth (ho.forth _ hx))
      cases decisive <;> cases htruth
  | dropped ho htruth _ ih =>
    cases hy with
    | decided hx hx' =>
      have htruth := hx'.symm.trans (truthOf_of_runs hfn hengine htruth (ho.forth _ hx))
      cases decisive <;> cases htruth
    | next _ _ hy => exact ih hy
  | @left _ _ _ r ho _ _ ih =>
    cases hy with
    | decided hx hx' =>
      cases r with
      | none => rfl
      | some xs => exact .decided (ho.forth _ hx) hx'
    | next hx hx' hy =>
      cases r with
      | none => exact ih hy
      | some xs => exact .next (ho.forth _ hx) hx' (ih hy)

/-- **`AND` and `OR` yield what they yielded**, but a run of them may now skip an argument that
fails. -/
theorem upholds_bool (hstrict : ¬strict) (hfn : ofName? fn = some .and ∨ ofName? fn = some .or)
    (hengine : site.engine = ev.engine)
    (hnode : ∀ args y, ev.Runs env (.call fn args t) y ↔
      BoolYields ev.engine fn decisive (ev.Runs env) args y)
    (hr : Undecided site fn decisive (ev.Upheld strict env) (trimmed es) r)
    (h : BoolGives fn t decisive r o) : ev.Upheld strict env (.call fn es t) o := by
  refine ⟨fun y hy => ?_, fun hs => absurd hs hstrict⟩
  have hy := boolYields_of_undecided hfn hengine hr (boolYields_trimmed ((hnode es y).mp hy))
  cases h with
  | decided => exact runs_constant.mpr hy
  | dropped =>
    cases hy
    exact runs_constant.mpr rfl
  | left => exact (hnode _ y).mpr hy

end Truths

/-! ## `CONCATENATE` -/

section Texts

open Builtin

theorem joinTexts_append {ws : List Value} : joinTexts (vs ++ ws) = .ok s ↔
      ∃ s₁ s₂, joinTexts vs = .ok s₁ ∧ joinTexts ws = .ok s₂ ∧ s = s₁ ++ s₂ := by
  rw [joinTexts_eq, joinTexts_eq, joinTexts_eq, List.mapM_append]
  cases vs.mapM Value.toText <;> cases ws.mapM Value.toText <;>
    simp [bind, Except.bind, pure, Except.pure, Functor.map, Except.map, eq_comm]

theorem call_concatenate {fn : String} (hf : ofName? fn = some .concatenate) :
    engine.call fn vs = .ok v ↔ ∃ s, joinTexts (flat vs) = .ok s ∧ v = .text s := by
  simp only [Engine.call, hf, compute]
  cases joinTexts (flat vs) with
  | error f => simp [bind, Except.bind]
  | ok s => simp [bind, Except.bind, pure, Except.pure, eq_comm]

/-- The text that formulas yield together, given what each of them yields. -/
def TextYields {α : Type} (M : α → Yield → Prop) (xs : List α) (s : String) : Prop :=
  ∃ ys, Forall₂ M xs ys ∧ joinTexts (flat (ys.flatMap Yield.items)) = .ok s

variable {α : Type} {M : α → Yield → Prop}

theorem textYields_append {xs xs' : List α} : TextYields M (xs ++ xs') s ↔
      ∃ s₁ s₂, TextYields M xs s₁ ∧ TextYields M xs' s₂ ∧ s = s₁ ++ s₂ := by
  constructor
  · rintro ⟨ys, hys, hs⟩
    obtain ⟨ys₁, ys₂, rfl, hys₁, hys₂⟩ := forall₂_append_left hys
    rw [List.flatMap_append, flat_append] at hs
    obtain ⟨s₁, s₂, hs₁, hs₂, rfl⟩ := joinTexts_append.mp hs
    exact ⟨s₁, s₂, ⟨ys₁, hys₁, hs₁⟩, ⟨ys₂, hys₂, hs₂⟩, rfl⟩
  · rintro ⟨s₁, s₂, ⟨ys₁, hys₁, hs₁⟩, ⟨ys₂, hys₂, hs₂⟩, rfl⟩
    refine ⟨ys₁ ++ ys₂, rel_append hys₁ hys₂, ?_⟩
    rw [List.flatMap_append, flat_append]
    exact joinTexts_append.mpr ⟨s₁, s₂, hs₁, hs₂, rfl⟩

theorem textYields_singleton {x : α} {v : String} (h : ∀ y, M x y ↔ y = .one (.text v)) :
    TextYields M [x] s ↔ s = v := by
  constructor
  · rintro ⟨_, _ | ⟨hy, ⟨⟩⟩, hs⟩
    rw [(h _).mp hy] at hs
    simpa [Yield.items, flat, joinTexts, Value.toText, bind, Except.bind, pure, Except.pure,
      eq_comm] using hs
  · rintro rfl
    refine ⟨[.one (.text s)], .cons ((h _).mpr rfl) .nil, ?_⟩
    simp [Yield.items, flat, joinTexts, Value.toText, bind, Except.bind, pure, Except.pure]

/-- The text of constants is the one that is known of them. -/
theorem upholds_texts (hconst : ∀ o ∈ os, o.isConstant = true)
    (hsorted : strict → ∀ o ∈ os, o.expr.isSorted plain .argument = true) {text : String}
    (htext : joinTexts (flat (Outcome.values os)) = .ok text) :
    Upholds strict (TextYields (fun o : Outcome => ev.Runs env o.expr) os)
      (· = text) where
  forth := by
    rintro s ⟨ys, hys, hs⟩
    cases hs.symm.trans (joinTexts_of_runs hconst htext hys)
    rfl
  back := by
    rintro hstrict s rfl
    exact ⟨_, (runs_constants hconst (hsorted hstrict) _).mpr rfl, by rwa [flatMap_items_yield]⟩

theorem upholds_textYields_append {M' : β → Yield → Prop} (xs : List α) {xs' : List α}
    (zs : List β) {zs' : List β} (h : Upholds strict (TextYields M xs) (TextYields M' zs))
    (h' : Upholds strict (TextYields M xs') (TextYields M' zs')) :
    Upholds strict (TextYields M (xs ++ xs')) (TextYields M' (zs ++ zs')) := by
  refine (Upholds.of_iff fun s => textYields_append).trans (.trans ?_
    (.of_iff fun s => textYields_append.symm))
  exact ⟨fun s ⟨s₁, s₂, h₁, h₂, hs⟩ => ⟨s₁, s₂, h.forth _ h₁, h'.forth _ h₂, hs⟩,
    fun hstrict s ⟨s₁, s₂, h₁, h₂, hs⟩ =>
      ⟨s₁, s₂, h.back hstrict _ h₁, h'.back hstrict _ h₂, hs⟩⟩

/-- Joining runs of constants changes no text. -/
theorem upholds_joins {xs : List Expr}
    (hsorted : strict → ∀ o ∈ os, o.expr.isSorted plain .argument = true)
    (h : Joins site node os xs) :
    Upholds strict (TextYields (fun o : Outcome => ev.Runs env o.expr) os)
      (TextYields (ev.Runs env) xs) := by
  induction h with
  | nil => exact .of_iff fun s => by simp [TextYields]
  | @left o os xs _ ih =>
    have hfirst (s : String) : TextYields (fun o : Outcome => ev.Runs env o.expr) [o] s ↔
        TextYields (ev.Runs env) [o.expr] s := by
      simp [TextYields, List.forall₂_cons_left_iff]
    exact upholds_textYields_append [o] [o.expr] (.of_iff hfirst)
      (ih fun hstrict o ho => hsorted hstrict o (mem_cons_of_mem _ ho))
  | @joined run os o xs hconst hkept _ ih =>
    obtain ⟨v, hv, rfl⟩ := exists_of_kept? hkept
    obtain ⟨text, htext, rfl⟩ := (call_concatenate rfl).mp hv
    refine upholds_textYields_append run [(site.keep node (.text text)).expr] ?_
      (ih fun hstrict o ho => hsorted hstrict o (List.mem_append_right _ ho))
    refine (upholds_texts hconst (fun hstrict o ho =>
      hsorted hstrict o (List.mem_append_left _ ho)) htext).trans (.of_iff fun s => ?_)
    exact (textYields_singleton fun y => runs_constant).symm

theorem runs_concatenate_iff (hf : ofName? fn = some .concatenate) :
    ev.Runs env (.call fn args t) y ↔
      ∃ s, TextYields (ChildYields (ev.Runs env)) (trimmed args) s ∧
        y = .one (.text s) := by
  rw [runs_call_iff, hf]
  simp only [CallYields, ComputedYields, TextYields, call_concatenate hf]
  constructor
  · rintro ⟨ys, _, hys, ⟨s, hs, rfl⟩, rfl⟩
    exact ⟨s, ⟨ys, hys, hs⟩, rfl⟩
  · rintro ⟨s, ⟨ys, hys, hs⟩, rfl⟩
    exact ⟨ys, _, hys, ⟨s, hs, rfl⟩, rfl⟩

/-- **`CONCATENATE` is upheld.** -/
theorem upholds_concatenate (hf : ofName? fn = some .concatenate) {node : Expr}
    {args : Children} {os : List Outcome}
    (hos : Forall₂ (Child (ev.Upheld strict env)) (trimmed args) os)
    (hsorted : strict → ∀ o ∈ os, o.expr.isSorted plain .argument = true)
    (h : JoinGives site node fn t os o) : ev.Upheld strict env (.call fn args t) o := by
  have hargs : Upholds strict (TextYields (ChildYields (ev.Runs env)) (trimmed args))
      (TextYields (fun o : Outcome => ev.Runs env o.expr) os) :=
    (upholds_children hos).exists_and fun _ _ => .refl _
  refine (Upholds.of_iff fun y => runs_concatenate_iff hf).trans ?_
  cases h with
  | computed hconst hv =>
    obtain ⟨text, htext, rfl⟩ := (call_concatenate rfl).mp hv
    refine ((hargs.trans (upholds_texts hconst hsorted htext)).exists_and fun _ _ => .refl _).trans
      (.of_iff fun y => ?_)
    rw [Outcome.expr, runs_constant]
    simp only [exists_eq_left]
    rfl
  | @left xs h =>
    have hxs (s : String) : TextYields (ChildYields (ev.Runs env)) (xs.map some) s ↔
        TextYields (ev.Runs env) xs s := by
      simp only [TextYields, forall₂_map_left_iff]
      rfl
    refine ((hargs.trans (upholds_joins hsorted h)).exists_and fun _ _ => .refl _).trans
      (.of_iff fun y => ?_)
    rw [runs_ofExpr, runs_concatenate_iff hf, trimmed_map_some]
    simp only [hxs]

end Texts

/-! ## `ROW` and `COLUMN` -/

section Positions

/-- A run finds the cell whose position was found ahead of it. -/
theorem positionCell?_of_positionCell (horigin : env.origin = site.origin)
    (h : positionCell site fn args = .ok a) : Evaluator.positionCell? args env = some a := by
  unfold positionCell at h
  unfold Evaluator.positionCell?
  split at h
  · rename_i hargs hsite
    cases h
    simp only [hargs, horigin, hsite]
  · rename_i hargs
    cases h
    simp only [hargs]
  · cases h
  · cases h

/-- The position that a run finds was found ahead of it, unless it is that of the origin. -/
theorem positionCell_of_positionCell? (h : Evaluator.positionCell? args env = some a)
    (hargs : trimmed args ≠ []) : positionCell site fn args = .ok a ∧ some (.cell a) ∈ args := by
  unfold Evaluator.positionCell? at h
  unfold positionCell
  split at h
  · exact absurd ‹_› hargs
  · rename_i heq
    cases h
    simp only [heq, true_and]
    exact mem_of_mem_trimmed (heq ▸ mem_cons_self)
  · cases h

/-- **`ROW` and `COLUMN` yield what they yielded**, where the position is not rounded. -/
theorem upholds_position (hstrict : ¬strict) (hengine : site.engine = ev.engine)
    (horigin : env.origin = site.origin) {position : Address → Int}
    (hsteady : ∀ a, Evaluator.positionCell? args env = some a →
      ev.engine.Leaves (.number (Float.ofInt (position a))))
    (hnode : ∀ args y, ev.Runs env (.call fn args t) y ↔
      PositionYields ev.engine (ev.Runs env) env fn position args y)
    (hfails : ∀ vs v, ev.engine.call fn vs ≠ .ok v)
    (hfinite : ∀ a, some (.cell a) ∈ args → isFinite (Float.ofInt (position a)) = true)
    (h : PositionGives False site R fn position args t o) :
    ev.Upheld strict env (.call fn args t) o := by
  refine ⟨fun y hy => ?_, fun hs => absurd hs hstrict⟩
  have hy := (hnode args y).mp hy
  unfold PositionYields at hy
  cases hcell : Evaluator.positionCell? args env with
  | none =>
    rw [hcell] at hy
    obtain ⟨ys, v, _, hv, _⟩ := hy
    exact absurd hv (hfails _ v)
  | some a =>
    rw [hcell] at hy
    cases h with
    | @known a' _ ha ho =>
      cases hcell.symm.trans (positionCell?_of_positionCell horigin ha)
      obtain ⟨v, hv, rfl⟩ := exists_of_kept? ho
      cases hv
      refine runs_constant.mpr ?_
      rw [hengine, hsteady a hcell]
      exact hy
    | @left os _ ha hos ho =>
      obtain ⟨e, he, rfl⟩ := ho
      cases he
      by_cases hargs : trimmed args = []
      · rw [hargs] at hos
        cases hos
        refine runs_ofExpr.mpr ((hnode _ y).mpr ?_)
        have hcell' : Evaluator.positionCell? (keepMissing args []) env = some a := by
          simp only [Evaluator.positionCell?, hargs] at hcell
          simp only [Evaluator.positionCell?, trimmed_keepMissing_nil, hcell]
        unfold PositionYields
        rw [show Expr.children (.call fn args t) = args from rfl, hcell']
        exact hy
      · -- The position of a cell of the formula is that of a word, and so it was kept.
        obtain ⟨ha', hmem⟩ := positionCell_of_positionCell? hcell hargs
        have hnone := ha a ha'
        simp [Site.kept?, hfinite a hmem] at hnone

end Positions

/-! ## `INDEX` -/

section Indices

open Builtin

theorem toNumber_of_indexOf? (h : indexOf? (.known v t) = some k) :
    ∃ x, v.toNumber = .ok x ∧ truncate x = k := by
  simp only [indexOf?, Value.toInt] at h
  cases hv : v.toNumber with
  | error f => simp [hv] at h
  | ok x =>
    refine ⟨x, rfl, ?_⟩
    by_cases hfinite : isFinite x = true
    · simp only [hv, hfinite, if_true] at h
      split at h
      · cases h
      · exact Option.some.inj h
    · simp [hv, hfinite] at h

theorem numberAt_one {source : Value} {rest : List Value} :
    numberAt (source :: v :: rest) 1 0.0 = v.toNumber := by
  unfold numberAt arg?
  cases v <;> rfl

/-- The element that one index selects. -/
theorem getElem?_of_select (hk : indexOf? (.known v t) = some k) (hlow : 1 ≤ k)
    (h : select [.array rows cols vs, v] = .ok u) : vs[(k - 1).toNat]? = some u := by
  obtain ⟨x, hx, hxk⟩ := toNumber_of_indexOf? hk
  simp only [select, numberAt_one, hx, bind, Except.bind] at h
  have harg : arg? [.array rows cols vs, v] 2 = none := rfl
  simp only [harg, hxk] at h
  split at h
  · cases h
  · rw [show (k - 1).toNat = k.toNat - 1 by omega]
    cases hu : vs[k.toNat - 1]? with
    | none =>
      rw [hu] at h
      cases h
    | some u' =>
      rw [hu] at h
      cases h
      rfl

/-- The element that a row and a column select. -/
theorem getElem?_of_select_pair {l : Int} {w : Value} (hk : indexOf? (.known v t) = some k)
    (hl : indexOf? (.known w t') = some l) (hlow : 1 ≤ l)
    (h : select [.array rows cols vs, v, w] = .ok u) :
    vs[(wrap ((k - 1) * cols + (l - 1))).toNat]? = some u := by
  obtain ⟨x, hx, hxk⟩ := toNumber_of_indexOf? hk
  obtain ⟨z, hz, hzl⟩ := toNumber_of_indexOf? hl
  have hnull : w ≠ .null := by
    rintro rfl
    cases hz
    have hzero : truncate 0.0 = 0 := by decide +kernel
    omega
  have harg : arg? [.array rows cols vs, v, w] 2 = some w := by
    cases w
    case null => exact absurd rfl hnull
    all_goals rfl
  simp only [select, numberAt_one, hx, hz, harg, hxk, hzl, bind, Except.bind] at h
  split at h
  · cases h
  · unfold elementAt at h
    dsimp only at h
    split at h
    · rename_i heq
      cases h
      split at heq
      · exact heq
      · cases heq
    · cases h

theorem ofName?_name (f : Builtin) : ofName? f.name = some f := by cases f <;> rfl

theorem call_eq_of_ofName? {f : Builtin} (hf : ofName? fn = some f) (vs : List Value) :
    engine.call f.name vs = engine.call fn vs := by
  simp only [Engine.call, hf, ofName?_name]

/-- The elements of a written range are single values that are not rounded. -/
def Evaluator.SettledElements (ev : Evaluator) (n : Nat) (visited : List Address) (env : Env)
    (elements : Children) : Prop :=
  ∀ x, some x ∈ elements → ∀ y, ev.Runs n visited env x y → ∃ v, y = .one v ∧ ev.engine.Leaves v

theorem exists_known_of_indexOf? (h : indexOf? o = some k) : ∃ v t, o = .known v t := by
  cases o with
  | known v t => exact ⟨v, t, rfl⟩
  | residual e => cases h

section Selected

variable {args elements : Children} {element : Option Expr} {first second : Expr}

theorem call_index (hf : ofName? fn = some .index) (vs : List Value) :
    engine.call fn vs = select vs := by
  simp only [Engine.call, hf]
  rfl

theorem exists_childYields {M : Yielding} {ys : List Yield}
    (hys : Forall₂ (ChildYields M) elements ys) {j : Nat} (helement : elements[j]? = some element)
    (hv : (ys.map Yield.single)[j]? = some v) : ∃ z, ChildYields M element z ∧ z.single = v := by
  obtain ⟨z, hz, rfl⟩ : ∃ z, ys[j]? = some z ∧ z.single = v := by simpa [getElem?_map] using hv
  obtain ⟨hj, rfl⟩ := List.getElem?_eq_some_iff.mp helement
  obtain ⟨hj', rfl⟩ := List.getElem?_eq_some_iff.mp hz
  exact ⟨_, hys.get hj hj', rfl⟩

variable (hf : ofName? fn = some .index) (hfirst : ∀ z, ev.Runs env first z → z = .one u)
  (hk : indexOf? (.known u t) = some k)
  (hy : ComputedYields ev.engine (ev.Runs env) (ev.engine.call fn) args y)
include hf hfirst hk hy

/-- With one index `INDEX` yields the element that it selects. -/
theorem exists_selected_one (hes : trimmed args = [some (.range rows cols elements), some first])
    (hlow : 1 ≤ k) (helement : elements[(k - 1).toNat]? = some element) :
    ∃ z, ChildYields (ev.Runs env) element z ∧ y = .one (ev.engine.adjust z.single) := by
  obtain ⟨ys, v, hys, hv, rfl⟩ := hy
  rw [hes] at hys
  obtain _ | ⟨hrange, _ | ⟨hz, ⟨⟩⟩⟩ := hys
  obtain ⟨zs, hzs, rfl⟩ := runs_range.mp hrange
  cases hfirst _ hz
  obtain ⟨rows', cols', hgrid⟩ := exists_grid_eq rows cols (zs.map Yield.single)
  simp only [flatMap_cons, List.flatMap_nil, Yield.items, singleton_append, call_index hf,
    hgrid] at hv
  obtain ⟨z, hz, rfl⟩ := exists_childYields hzs helement (getElem?_of_select hk hlow hv)
  exact ⟨z, hz, rfl⟩

/-- With a row and a column `INDEX` yields the element that they select. -/
theorem exists_selected_two {l : Int} {w : Value}
    (hes : trimmed args = [some (.range rows cols elements), some first, some second])
    (hsecond : ∀ z, ev.Runs env second z → z = .one w) (hl : indexOf? (.known w t') = some l)
    (hrow : 1 ≤ k ∧ k ≤ rows) (hcol : 1 ≤ l ∧ l ≤ cols)
    (helement : elements[(wrap ((k - 1) * cols + (l - 1))).toNat]? = some element) :
    ∃ z, ChildYields (ev.Runs env) element z ∧ y = .one (ev.engine.adjust z.single) := by
  obtain ⟨ys, v, hys, hv, rfl⟩ := hy
  rw [hes] at hys
  obtain _ | ⟨hrange, _ | ⟨hz, _ | ⟨hz', ⟨⟩⟩⟩⟩ := hys
  obtain ⟨zs, hzs, rfl⟩ := runs_range.mp hrange
  cases hfirst _ hz
  cases hsecond _ hz'
  -- There are rows and columns to select from, so the shape of the range is that of its value.
  have hshape : ¬(rows ≤ 0 ∨ cols ≤ 0) := by omega
  simp only [flatMap_cons, List.flatMap_nil, Yield.items, singleton_append, call_index hf,
    Value.grid, if_neg hshape] at hv
  obtain ⟨z, hz, rfl⟩ := exists_childYields hzs helement (getElem?_of_select_pair hk hl hcol.1 hv)
  exact ⟨z, hz, rfl⟩

end Selected

/-- The outcome of the element that is selected yields the value that a run selects. -/
theorem runs_of_selected {elements : Children}
    (hsettled : ev.SettledElements ev.depth ev.visited env elements) {element : Option Expr}
    (helement : element ∈ elements) (ho : Child (ev.Upheld strict env) element o)
    (hy : ChildYields (ev.Runs env) element y) :
    ev.Runs env o.expr (.one (ev.engine.adjust y.single)) := by
  obtain ⟨w, rfl, hw⟩ : ∃ w, y = .one w ∧ ev.engine.Leaves w := by
    cases element with
    | none => exact ⟨.null, hy, rfl⟩
    | some x => exact hsettled x helement y hy
  rw [show (Yield.one w).single = w from rfl, hw]
  exact (upholds_child ho).forth _ hy

/-- A call that is computed from its arguments is upheld. -/
theorem upholds_call (hengine : site.engine = ev.engine) {args : Children} {compute : Computation}
    (hcompute : ∀ vs v, compute vs = .ok v → ev.engine.call fn vs = .ok v)
    (hnode : ∀ args y, ev.Runs env (.call fn args t) y ↔
      ComputedYields ev.engine (ev.Runs env) (ev.engine.call fn) args y)
    {os : List Outcome}
    (hos : Forall₂ (Child (ev.UpheldAs strict plain .argument env)) (trimmed args) os)
    (h : Settles False site (.call fn args t) compute os o) :
    ev.Upheld strict env (.call fn args t) o := by
  refine upholds_settles hengine hcompute (hnode args) (fun e he y => ?_)
    (upheld_of_upheldAs hos) (isSorted_of_upheldAs hos) h
  cases he
  exact hnode _ y

/-- **`INDEX` yields what it yielded**, where the elements of a written range are settled. -/
theorem upholds_index (hstrict : ¬strict) (hengine : site.engine = ev.engine)
    (hf : ofName? fn = some .index) {args : Children}
    (hsettled : ∀ rows cols elements, some (.range rows cols elements) ∈ args.head? →
      ev.SettledElements ev.depth ev.visited env elements)
    (h : IndexGives False site (.call fn args t) (ev.UpheldAs strict plain .argument env) args o) :
    ev.Upheld strict env (.call fn args t) o := by
  have hnode (args : Children) (y : Yield) : ev.Runs env (.call fn args t) y ↔
      ComputedYields ev.engine (ev.Runs env) (ev.engine.call fn) args y := by
    rw [runs_call_iff, hf]
    rfl
  have hhead {rest : Children} {x : Expr} (hes : trimmed args = some x :: rest) :
      some x ∈ args.head? := by
    obtain ⟨more, rfl, _⟩ := exists_of_trimmed_eq_cons hes
    rfl
  cases h with
  | settled hos _ _ ho =>
    refine upholds_call hengine (fun vs v hv => ?_) hnode hos ho
    rwa [hengine, call_eq_of_ofName? hf] at hv
  | one hes hi hk _ hlow helement ho =>
    refine ⟨fun y hy => ?_, fun hs => absurd hs hstrict⟩
    obtain ⟨u, _, rfl⟩ := exists_known_of_indexOf? hk
    obtain ⟨z, hz, rfl⟩ :=
      exists_selected_one hf (fun z hz => runs_constant.mp (hi.1.forth z hz)) hk
      ((hnode args y).mp hy) hes hlow helement
    exact runs_of_selected (hsettled _ _ _ (hhead hes)) (mem_of_getElem? helement)
      (ho.imp fun _ _ h => h.1) hz
  | two hes hi hk hj hl hrow hcol _ helement ho =>
    refine ⟨fun y hy => ?_, fun hs => absurd hs hstrict⟩
    obtain ⟨u, _, rfl⟩ := exists_known_of_indexOf? hk
    obtain ⟨w, _, rfl⟩ := exists_known_of_indexOf? hl
    obtain ⟨z, hz, rfl⟩ :=
      exists_selected_two hf (fun z hz => runs_constant.mp (hi.1.forth z hz)) hk
      ((hnode args y).mp hy) hes (fun z hz => runs_constant.mp (hj.1.forth z hz)) hl hrow hcol
      helement
    exact runs_of_selected (hsettled _ _ _ (hhead hes)) (mem_of_getElem? helement)
      (ho.imp fun _ _ h => h.1) hz

end Indices

/-! ## Counts -/

section Counts

variable {inputs : Inputs} {items : Children} {count : Int}

theorem countRunArgs_append (xs ys : Children) :
    wrap (Expr.countRunArgs inputs (xs ++ ys)) =
      wrap (Expr.countRunArgs inputs xs + Expr.countRunArgs inputs ys) := by
  induction xs with
  | nil => rw [nil_append, Expr.countRunArgs, Int.zero_add]
  | cons x xs ih =>
    cases x with
    | none => exact ih
    | some x =>
      rw [cons_append, Expr.countRunArgs, Expr.countRunArgs, wrap_wrap, wrap_add_congr rfl ih,
        ← Int.add_assoc]
      exact wrap_add_congr (wrap_wrap _).symm rfl

/-- A run counts one for each item and the sections among them as large as they are. -/
def CountedAs (inputs : Inputs) (count : Int) (items : Children) : Prop :=
  wrap count = wrap (unitsIn items + Expr.countRunArgs inputs ((sectionsIn items).map some))

theorem countedAs_unit {e : Option Expr} (he : e.any Expr.isSubSection = false) :
    CountedAs inputs 1 [e] := by
  rw [CountedAs, sectionsIn_unit he, unitsIn, List.countP_singleton, he]
  rfl

theorem CountedAs.append {count' : Int} {items' : Children}
    (h : CountedAs inputs count items) (h' : CountedAs inputs count' items') :
    CountedAs inputs (wrap (count + count')) (items ++ items') := by
  have hunits : unitsIn (items ++ items') = unitsIn items + unitsIn items' := List.countP_append
  unfold CountedAs at *
  rw [wrap_wrap, wrap_add_congr h h', hunits, sectionsIn_append, map_append,
    wrap_add_congr rfl (countRunArgs_append _ _), Int.natCast_add]
  congr 1
  omega

theorem countedAs_all {es : Children}
    (hes : ∀ e, some e ∈ es → CountedAs inputs (e.countRun inputs) e.countItems) :
    CountedAs inputs (Expr.countRunAll inputs es) (Expr.countItemsAll es) := by
  induction es with
  | nil => rfl
  | cons e es ih =>
    have ih := ih fun x hx => hes x (mem_cons_of_mem _ hx)
    cases e with
    | none => exact (countedAs_unit rfl).append ih
    | some e => exact (hes e mem_cons_self).append ih

theorem countedAs_countItems (e : Expr) : CountedAs inputs (e.countRun inputs) e.countItems := by
  induction e using induction_on_parts with
  | step e ih =>
    cases e with
    | range rows cols elements | splice elements =>
      exact countedAs_all fun x hx => ih x (.part (by simpa [parts] using hx))
    | subSection s elements =>
      have hsections : sectionsIn [some (.subSection s elements)] = [.subSection s elements] := rfl
      simp [CountedAs, Expr.countItems, hsections, unitsIn, Expr.isSubSection, Expr.countRunArgs,
        wrap_wrap]
    | parentSection s inner =>
      cases inner with
      | none => exact countedAs_unit rfl
      | some inner => exact ih inner (.part (by simp [parts]))
    | _ => exact countedAs_unit rfl

theorem countedAs_args (args : Children) :
    CountedAs inputs (Expr.countRunArgs inputs args) (countItemsOf args) := by
  induction args with
  | nil => rfl
  | cons e args ih =>
    cases e with
    | none => exact ih
    | some e => exact (countedAs_countItems e).append ih

/-- A run counts what was counted ahead of it and the sections that were left. -/
theorem countedAs_of_countArgs {n : Int} {sections : List Expr}
    (h : countArgs args = .ok (n, sections)) : wrap (Expr.countRunArgs inputs args) =
      wrap (n + Expr.countRunArgs inputs (sections.map some)) := by
  obtain ⟨-, hn, hsections⟩ := sectionsIn_of_countArgs h
  rw [hn, hsections, wrap_add_congr (wrap_wrap _) rfl]
  exact countedAs_args args

theorem runs_count_iff :
    ev.Runs env (.count static args) y ↔ y = .one (.number (Float.ofInt
      (wrap (static + Expr.countRunArgs ev.inputs (trimmed args))))) := by
  rw [runs_iff]
  constructor
  · rintro ⟨⟩
    rfl
  · rintro rfl
    exact .count

/-- **A count is upheld.** -/
theorem upholds_count (h : CountGives static args o) :
    ev.Upheld strict env (.count static args) o := by
  refine (Upholds.of_iff fun y => runs_count_iff).trans (.of_iff fun y => ?_)
  cases h with
  | @known n hn =>
    have hcount : wrap (Expr.countRunArgs ev.inputs (trimmed args)) = wrap (n + 0) :=
      countedAs_of_countArgs hn
    rw [wrap_add_congr (a := static) rfl hcount, Int.add_zero]
    exact runs_constant.symm
  | @left n sections hn _ =>
    have hcount : wrap (Expr.countRunArgs ev.inputs (trimmed args)) =
        wrap (n + Expr.countRunArgs ev.inputs (sections.map some)) := countedAs_of_countArgs hn
    rw [runs_ofExpr, runs_count_iff, trimmed_map_some,
      wrap_add_congr (a := static) rfl hcount, ← Int.add_assoc,
      wrap_add_congr (wrap_wrap (static + n)) rfl]

end Counts

end FormulaFold
