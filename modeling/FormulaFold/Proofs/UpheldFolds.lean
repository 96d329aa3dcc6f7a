import FormulaFold.Proofs.Surroundings
import FormulaFold.Proofs.UpheldForms
import FormulaFold.Proofs.UpheldLeaves

/-! # Folds that are upheld

What a fold accumulates ahead of the run is what a run of it has accumulated at that point.  The
elements that are held form a smaller fold that goes on from there, so that the two together
yield what the whole fold yields.
-/
namespace FormulaFold

variable {e : Expr} {Q : Expr → Prop} {os : List Outcome}

theorem Expr.isSorted_argument {plain : Bool} (hplace : place ≠ .element)
    (h : e.isSorted plain place = true) : e.isSorted plain .argument = true := by
  cases place with
  | scalar => exact Expr.isSorted_of_scalar h _
  | argument => exact h
  | element => exact absurd rfl hplace
  | spliced =>
    cases e with
    | splice => simp [isSorted, Place.takesSplice] at h
    | _ => exact h

/-- What is shown of the walk of a formula: its outcome is sorted and scoped, it is a range only if
the formula is one, and it is upheld.  Among the elements of a fold only its leaves are. -/
structure Runner.Sound (ev : Runner) (strict : Prop) (plain : Bool) (origin : Option Address)
    (b : Bindings) (e : Expr) (o : Outcome) : Prop where
  sorted : SortedIn plain b e o
  names : ScopedIn false b e o
  shaped : b.Fits plain → e.isSorted plain .argument = true → ∀ rows cols elements,
    o.expr = .range rows cols elements → ∃ elements', e = .range rows cols elements'
  upheld : ∀ env, ev.Meets strict plain origin b env → ev.Admits strict plain e →
    e.isSorted plain .argument = true → ev.Upheld strict env e o
  leaves : ∀ env, ev.Meets strict plain origin b env → ev.Admits strict plain e →
    e.isSorted plain .element = true → ev.UpheldLeaves strict env e o

variable {strict : Prop} {plain : Bool} {ev : Runner} {o : Outcome}

theorem Runner.Sound.upheldAs (h : ev.Sound strict plain origin b e o)
    (hmeets : ev.Meets strict plain origin b env) (hadmits : ev.Admits strict plain e)
    (hsorted : e.isSorted plain place = true) (hplace : place ≠ .element) :
    ev.UpheldAs strict plain place env e o :=
  ⟨h.upheld env hmeets hadmits (Expr.isSorted_argument hplace hsorted),
    h.sorted hmeets.fits place hsorted⟩

/-- The scalar outcomes that are upheld. -/
abbrev Runner.UpheldScalar (ev : Runner) (strict : Prop) (plain : Bool) (env : Env) :
    Expr → Outcome → Prop :=
  ev.UpheldAs strict plain .scalar env

/-! ## Starts and steps -/

/-- The state of a run that has folded what was folded ahead of it. -/
def FoldState.run (st : FoldState) : RunFold := ⟨st.accs.map (·.map (·.value)), st.folded⟩

section Steps

variable {d : FoldDef Expr} {st st' : FoldState}

theorem yield_eq_of_fits (h : o.Fits plain) : o.yield = .one o.value := by
  obtain ⟨v, t, rfl, _⟩ := h
  rfl

theorem map_single_yield (h : ∀ o ∈ os, o.Fits plain) :
    (os.map Outcome.yield).map Yield.single = os.map (·.value) := by
  rw [map_map]
  refine map_congr_left fun o ho => ?_
  rw [Function.comp_apply, yield_eq_of_fits (h o ho)]
  rfl

theorem upholds_constantsGive (h : ConstantsGive (ev.UpheldScalar strict plain env) es r)
    (hos : r = some os) : Upholds strict (Forall₂ (ChildYields (ev.Runs env)) es)
      (· = os.map Outcome.yield) := by
  induction h generalizing os with
  | nil =>
    cases hos
    exact .of_iff fun ys => List.forall₂_nil_left_iff
  | missing | left => cases hos
  | cons ho hconst _ ih =>
    obtain ⟨rest, hrest, rfl⟩ := map_eq_some_iff.mp hos
    have hfirst := ho.1.trans
      (.of_iff fun y => runs_of_isConstant hconst (Expr.isSorted_of_scalar ho.2 .argument))
    constructor
    · rintro _ (_ | ⟨hy, hys⟩)
      rw [map_cons, ← hfirst.forth _ hy, ← (ih hrest).forth _ hys]
    · rintro hs _ rfl
      exact .cons (hfirst.back hs _ rfl) ((ih hrest).back hs _ rfl)

theorem fits_of_constantsGive (h : ConstantsGive (ev.UpheldScalar strict plain env) es r)
    (hos : r = some os) : ∀ o ∈ os, o.Fits plain :=
  forall_of_constantsGive (fun _ _ _ ho hconst => fits_of_isConstant ho.2 hconst) h hos

/-- A fold starts with the same accumulators in a run. -/
theorem upholds_start {inits : Children} {folded : Nat} {r : Option FoldState}
    (h : StartGives (ev.UpheldScalar strict plain env) inits folded r) (hr : r = some st) :
    Upholds strict (StartYields (ev.Runs env) inits folded) (· = st.run) := by
  cases h with
  | first hinits =>
    cases hr
    constructor
    · rintro _ (_ | ⟨hne, _⟩)
      · rfl
      · exact absurd hinits hne
    · rintro _ _ rfl
      exact .first hinits
  | inits hinits h =>
    obtain ⟨accs, haccs, rfl⟩ := map_eq_some_iff.mp hr
    have hys := upholds_constantsGive h haccs
    have hsingles := map_single_yield (fits_of_constantsGive h haccs)
    constructor
    · rintro _ (heq | ⟨_, h⟩)
      · exact absurd heq hinits
      · rw [hys.forth _ h, hsingles]
        rfl
    · rintro hs _ rfl
      have hstart : StartYields (ev.Runs env) inits folded _ :=
        .inits hinits (hys.back hs _ rfl)
      rw [hsingles] at hstart
      exact hstart

variable (hmeets : ev.Meets strict plain origin b env)
include hmeets

/-- What is shown of a formula of the fold is shown of its value. -/
theorem upheldScalar_of_sound {pairs : Pairs}
    (hpairs : ∀ pair ∈ pairs, pair.2.Fits plain) (hadmits : ev.Admits strict plain e)
    (hsorted : e.isSorted plain .scalar = true)
    (h : ev.Sound strict plain origin (b.pushAll pairs) e o) :
    ev.UpheldScalar strict plain (env.setPairs (Bindings.valuesOf pairs)) e o :=
  h.upheldAs (hmeets.pushAll hpairs) hadmits hsorted (by simp)

variable (hd : d.Sorted plain) (hparts : ∀ x ∈ d.parts, ev.Admits strict plain x)
include hd hparts

/-- **A step leads to the same accumulators in a run.** -/
theorem upholds_step (hst : st.All (Outcome.Fits plain) Q) {elements : List Outcome}
    (helements : ∀ o ∈ elements, o.Fits plain) {extra : Pairs}
    (hextra : ∀ pair ∈ extra, pair.2.Fits plain)
    (h : StepGives (ev.Sound strict plain origin) b d st elements extra (some st')) :
    Upholds strict (StepYields ev.Runs env d st.run (elements.map (·.value))
      (Bindings.valuesOf extra)) (· = st'.run) := by
  generalize hr : some st' = r at h
  cases h with
  | first haccs hlen helements' =>
    cases hr
    subst helements'
    have hnone : st.run.accs = none := by rw [FoldState.run, haccs, map_none]
    constructor
    · rintro _ (⟨_, _, heq⟩ | ⟨haccs', _⟩)
      · cases heq
        rfl
      · cases hnone.symm.trans haccs'
    · rintro _ _ rfl
      exact .first hnone (by simpa using hlen) rfl
  | @next accs r haccs hlen hnames h =>
    obtain ⟨next, hnext, rfl⟩ := map_eq_some_iff.mp hr.symm
    have hsome : st.run.accs = some (accs.map (·.value)) := by
      rw [FoldState.run, haccs, map_some]
    have hpairs : ∀ pair ∈ d.stepPairs st.folded accs elements extra, pair.2.Fits plain :=
      (accumulates_fits hmeets.fits hd).stepPairs (hst.accs accs haccs) helements hextra
    have hconstants := h.imp fun e o he => upheldScalar_of_sound hmeets hpairs
      (hparts e (FoldDef.mem_parts_of_mem_steps (by simpa using he)))
      (hd.steps e (by simpa using he))
    have hsteps (env : Env) (ys : List Yield) :
        Forall₂ (ChildYields (ev.Runs env)) (d.steps.map some) ys ↔
          Forall₂ (ev.Runs env) d.steps ys := forall₂_map_left_iff
    have hys := upholds_constantsGive hconstants hnext
    rw [← d.stepEnv_eq] at hys
    have hys := (Upholds.of_iff fun ys => (hsteps _ ys).symm).trans hys
    have hsingles := map_single_yield (fits_of_constantsGive hconstants hnext)
    constructor
    · rintro _ (⟨haccs', _⟩ | ⟨haccs', _, _, hys'⟩)
      · cases hsome.symm.trans haccs'
      · cases hsome.symm.trans haccs'
        rw [hys.forth _ hys', hsingles]
        rfl
    · rintro hs _ rfl
      have hstep : StepYields ev.Runs env d st.run (elements.map (·.value))
          (Bindings.valuesOf extra) _ :=
        .next hsome (by simpa using hlen) (by simpa using hnames) (hys.back hs _ rfl)
      rw [hsingles] at hstep
      exact hstep

/-- **The end of a fold yields the same in a run.** -/
theorem upholds_result (hst : st.All (Outcome.Fits plain) Q)
    (h : ResultGives (ev.Sound strict plain origin) b d st o) :
    Upholds strict (ResultYields ev.Runs env d st.run)
      (ev.Runs env o.expr) := by
  cases h with
  | @whenEmpty e _ he hfolded ho =>
    have hrun : Upholds strict (ResultYields ev.Runs env d st.run)
        (ev.Runs env e) := by
      refine .of_iff fun y => ⟨?_, .whenEmpty he hfolded⟩
      have hsome : d.whenEmpty.isSome := by rw [he]; rfl
      rintro (⟨he', _, hy⟩ | ⟨hne, _⟩ | ⟨hne, _⟩ | ⟨hne, _⟩)
      · cases he.symm.trans he'
        exact hy
      all_goals exact absurd hfolded (hne hsome)
    exact hrun.trans (ho.upheld env hmeets (hparts e (by simp [FoldDef.parts, he]))
      (Expr.isSorted_of_scalar (hd.whenEmpty e he) _))
  | blank hsome haccs =>
    have hnone : st.run.accs = none := by rw [FoldState.run, haccs, map_none]
    refine .of_iff fun y => Iff.trans ⟨?_, ?_⟩ runs_constant.symm
    · rintro (⟨he, hfolded, _⟩ | _ | ⟨_, haccs', _⟩ | ⟨_, haccs', _⟩)
      · exact absurd hfolded (hsome (by rw [he]; rfl))
      · rfl
      all_goals cases hnone.symm.trans haccs'
    · rintro rfl
      exact .blank hsome hnone
  | @first _ accs hsome haccs hmerge =>
    have hrun : st.run.accs = some (o.value :: accs.map (·.value)) := by
      rw [FoldState.run, haccs, map_some, map_cons]
    have hhead (y : Yield) : ev.Runs env o.expr y ↔ y = .one o.value := by
      obtain ⟨v, t, rfl, _⟩ := hst.accs _ haccs o mem_cons_self
      exact runs_constant
    refine .of_iff fun y => Iff.trans ⟨?_, ?_⟩ (hhead y).symm
    · rintro (⟨he, hfolded, _⟩ | ⟨_, haccs'⟩ | ⟨_, haccs', _⟩ | ⟨_, _, hmerge', _⟩)
      · exact absurd hfolded (hsome (by rw [he]; rfl))
      · cases hrun.symm.trans haccs'
      · cases hrun.symm.trans haccs'
        rfl
      · cases hmerge.symm.trans hmerge'
    · rintro rfl
      exact .first hsome hrun hmerge
  | @merged accs e _ hsome haccs hmerge hnames ho =>
    have hrun : st.run.accs = some (accs.map (·.value)) := by
      rw [FoldState.run, haccs, map_some]
    have hpairs : ∀ pair ∈ d.mergePairs st.folded accs, pair.2.Fits plain :=
      hst.mergePairs fits_number haccs
    have hmerged : Upholds strict (ResultYields ev.Runs env d st.run)
        (ev.Runs (env.setPairs (Bindings.valuesOf (d.mergePairs st.folded accs))) e) := by
      rw [← d.mergeEnv_eq]
      refine .of_iff fun y => ⟨?_, fun hy => .merged hsome hrun hmerge (by simpa using hnames) hy⟩
      rintro (⟨he, hfolded, _⟩ | ⟨_, haccs'⟩ | ⟨_, _, hmerge'⟩ | ⟨_, haccs', hmerge', _, hy⟩)
      · exact absurd hfolded (hsome (by rw [he]; rfl))
      · cases hrun.symm.trans haccs'
      · cases hmerge.symm.trans hmerge'
      · cases hrun.symm.trans haccs'
        cases hmerge.symm.trans hmerge'
        exact hy
    have hupheld := upheldScalar_of_sound hmeets hpairs
      (hparts e (by simp [FoldDef.parts, hmerge])) (hd.merge e hmerge) ho
    refine hmerged.trans (hupheld.1.trans (.of_iff fun y => ?_))
    exact hmeets.runs_pushAll_iff hpairs (hd.unfolded e hmerge) ho.names

end Steps

/-! ## Elements that are taken and held -/

section Parting

variable {ι ω : Type} {orderSensitive : Bool} {nodes : ι → List Expr}
  {step : RunFold → ι → RunFold → Prop} {known : ι → Prop} {st st' : FoldState}
  {xs taken held : List ι}

/-- A fold holds an element for the run, or takes it as a run does. -/
inductive FoldState.Takes (strict : Prop) (orderSensitive : Bool) (nodes : ι → List Expr)
    (step : RunFold → ι → RunFold → Prop) (known : ι → Prop) (st : FoldState) (x : ι) :
    FoldState → Prop
  | held : Takes strict orderSensitive nodes step known st x (st.hold orderSensitive (nodes x))
  | taken {st' : FoldState} (hstopped : st.stopped = false) (hstopped' : st'.stopped = false)
      (hheld : st'.held = st.held) (hknown : known x)
      (hstep : Upholds strict (step st.run x) (· = st'.run)) :
      Takes strict orderSensitive nodes step known st x st'

/-- Which elements a fold takes and which ones it holds.  If their order matters, those that are
taken come first. -/
structure FoldState.Parts (strict : Prop) (orderSensitive : Bool) (nodes : ι → List Expr)
    (step : RunFold → ι → RunFold → Prop) (known : ι → Prop) (st : FoldState)
    (xs taken held : List ι)
    (st' : FoldState) : Prop where
  perm : xs.Perm (taken ++ held)
  ordered : orderSensitive = true → xs = taken ++ held
  stopped : st.stopped = true → taken = []
  held : st'.held = st.held ++ held.map nodes
  known : ∀ x ∈ taken, known x
  folds : Upholds strict (Folds step st.run taken) (· = st'.run)

/-- **Every fold parts its elements.** -/
theorem exists_parts
    (h : Folds (FoldState.Takes strict orderSensitive nodes step known) st xs st') :
    ∃ taken held, st.Parts strict orderSensitive nodes step known xs taken held st' := by
  induction h with
  | nil =>
    refine ⟨[], [], .nil, fun _ => rfl, fun _ => rfl, by simp, by simp, .of_iff fun st' => ⟨?_, ?_⟩⟩
    · rintro ⟨⟩
      rfl
    · rintro rfl
      exact .nil
  | @cons st₁ st₂ st₃ x xs hx _ ih =>
    obtain ⟨taken, held, h⟩ := ih
    cases hx with
    | held =>
      refine ⟨taken, x :: held, ?_, fun hsensitive => ?_, fun hstopped => ?_, ?_, h.known, h.folds⟩
      · exact (h.perm.cons x).trans List.perm_middle.symm
      · rw [h.ordered hsensitive, h.stopped (by simp [FoldState.hold, hsensitive])]
        rfl
      · exact h.stopped (by simp [FoldState.hold, hstopped])
      · rw [h.held]
        simp [FoldState.hold]
    | taken hstopped hstopped' hheld hknown hstep =>
      refine ⟨x :: taken, held, h.perm.cons x, fun hsensitive => ?_, fun hs => ?_, ?_,
        forall_mem_cons.mpr ⟨hknown, h.known⟩, ?_⟩
      · rw [h.ordered hsensitive]
        rfl
      · cases hstopped.symm.trans hs
      · rw [h.held, hheld]
      · constructor
        · rintro st (_ | ⟨hx, hxs⟩)
          rw [hstep.forth _ hx] at hxs
          exact h.folds.forth _ hxs
        · rintro hs _ rfl
          exact .cons (hstep.back hs _ rfl) (h.folds.back hs _ rfl)

/-- What elements become in a run, one after the other; each may become several. -/
def Spreads (E : ι → List ω → Prop) (xs : List ι) (ws : List ω) : Prop :=
  ∃ wss, Forall₂ E xs wss ∧ ws = wss.flatten

variable {E : ι → List ω → Prop} {ws : List ω}

theorem spreads_append : Spreads E (xs ++ xs') ws ↔
    ∃ ws₁ ws₂, Spreads E xs ws₁ ∧ Spreads E xs' ws₂ ∧ ws = ws₁ ++ ws₂ := by
  constructor
  · rintro ⟨wss, hwss, rfl⟩
    obtain ⟨wss₁, wss₂, rfl, h₁, h₂⟩ := forall₂_append_left hwss
    exact ⟨_, _, ⟨wss₁, h₁, rfl⟩, ⟨wss₂, h₂, rfl⟩, List.flatten_append⟩
  · rintro ⟨_, _, ⟨wss₁, h₁, rfl⟩, ⟨wss₂, h₂, rfl⟩, rfl⟩
    exact ⟨wss₁ ++ wss₂, rel_append h₁ h₂, List.flatten_append.symm⟩

theorem spreads_map {val : ι → ω} (h : ∀ x ∈ xs, ∀ ws, E x ws ↔ ws = [val x]) :
    Spreads E xs ws ↔ ws = xs.map val := by
  induction xs generalizing ws with
  | nil => simp [Spreads]
  | cons x xs ih =>
    have h := forall_mem_cons.mp h
    constructor
    · rintro ⟨_, _ | ⟨hx, hxs⟩, rfl⟩
      rw [(h.1 _).mp hx, List.flatten_cons, (ih h.2).mp ⟨_, hxs, rfl⟩]
      rfl
    · rintro rfl
      obtain ⟨wss, hwss, heq⟩ := (ih h.2).mpr rfl
      exact ⟨_, .cons ((h.1 _).mpr rfl) hwss, by rw [List.flatten_cons, ← heq]; rfl⟩

theorem Spreads.perm (h : Spreads E xs ws) (hperm : xs.Perm xs') :
    ∃ ws', Spreads E xs' ws' ∧ ws.Perm ws' := by
  obtain ⟨wss, hwss, rfl⟩ := h
  obtain ⟨wss', hwss', hperm'⟩ := List.perm_comp_forall₂ hperm.symm hwss
  exact ⟨_, ⟨wss', hwss', rfl⟩, hperm'.symm.flatten⟩

theorem folds_map {σ : Type} {step : σ → ω → σ → Prop} {val : ι → ω} {st st' : σ} :
    Folds step st (xs.map val) st' ↔ Folds (fun st x => step st (val x)) st xs st' := by
  induction xs generalizing st with
  | nil =>
    constructor <;>
    · rintro ⟨⟩
      exact .nil
  | cons x xs ih =>
    constructor
    · rintro (_ | ⟨hx, hxs⟩)
      exact .cons hx (ih.mp hxs)
    · rintro (_ | ⟨hx, hxs⟩)
      exact .cons hx (ih.mpr hxs)

namespace FoldState.Parts

variable (step : RunFold → ω → RunFold → Prop) (val : ι → ω)
  (h : st.Parts strict orderSensitive nodes (fun st x => step st (val x)) known xs taken held st')
include h

/-- What is run after the elements that were taken starts from what was accumulated. -/
theorem upholds_rest (C : List ω → Prop) :
    Upholds strict (fun st'' => ∃ ws, C ws ∧ Folds step st.run (taken.map val ++ ws) st'')
      (fun st'' => ∃ ws, C ws ∧ Folds step st'.run ws st'') := by
  constructor
  · rintro st'' ⟨ws, hws, hfolds⟩
    obtain ⟨st₁, htaken, hrest⟩ := folds_append.mp hfolds
    rw [h.folds.forth st₁ (folds_map.mp htaken)] at hrest
    exact ⟨ws, hws, hrest⟩
  · rintro hs st'' ⟨ws, hws, hfolds⟩
    exact ⟨ws, hws, folds_append.mpr ⟨_, folds_map.mpr (h.folds.back hs _ rfl), hfolds⟩⟩

/-- **Running the held elements from what was accumulated comes to the same as running all
elements.** -/
theorem upholds (hknown : ∀ x, known x → ∀ ws, E x ws ↔ ws = [val x])
    (horder : orderSensitive = true ∨ ¬strict ∧ ∀ us ws st'', Spreads E xs us → us.Perm ws →
      Folds step st.run us st'' → Folds step st.run ws st'') :
    Upholds strict (fun st'' => ∃ ws, Spreads E xs ws ∧ Folds step st.run ws st'')
      (fun st'' => ∃ ws, Spreads E held ws ∧ Folds step st'.run ws st'') := by
  have hspreads (ws : List ω) : Spreads E (taken ++ held) ws ↔
      ∃ rest, Spreads E held rest ∧ ws = taken.map val ++ rest := by
    have htaken (ws : List ω) : Spreads E taken ws ↔ ws = taken.map val :=
      spreads_map fun x hx => hknown x (h.known x hx)
    rw [spreads_append]
    constructor
    · rintro ⟨ws₁, rest, h₁, hrest, rfl⟩
      rw [(htaken ws₁).mp h₁]
      exact ⟨rest, hrest, rfl⟩
    · rintro ⟨rest, hrest, rfl⟩
      exact ⟨_, rest, (htaken _).mpr rfl, hrest, rfl⟩
  refine .trans ?_ (h.upholds_rest step val (Spreads E held))
  constructor
  · rintro st'' ⟨ws, hws, hfolds⟩
    rcases horder with hsensitive | ⟨_, hperm⟩
    · rw [h.ordered hsensitive] at hws
      obtain ⟨rest, hrest, rfl⟩ := (hspreads ws).mp hws
      exact ⟨rest, hrest, hfolds⟩
    · obtain ⟨ws', hws', hperm'⟩ := hws.perm h.perm
      obtain ⟨rest, hrest, rfl⟩ := (hspreads ws').mp hws'
      exact ⟨rest, hrest, hperm _ _ _ hws hperm' hfolds⟩
  · rintro hs st'' ⟨rest, hrest, hfolds⟩
    have hsensitive := horder.resolve_right fun h => h.1 hs
    rw [h.ordered hsensitive]
    exact ⟨_, (hspreads _).mpr ⟨rest, hrest, rfl⟩, hfolds⟩

end FoldState.Parts

end Parting

end FormulaFold
