import FormulaFold.Proofs.UpheldFolds

/-! # Folds over lists that are upheld

A fold over a list goes through the leaves of its elements.  Those that are known are folded ahead
of the run; the others are held and run from what was accumulated (`upholds_elements`).  A fold over
one array is done whole or not at all (`upholds_array`).
-/
namespace FormulaFold

variable {st : FoldState} {inits : Children} {n : Nat} {ι : Type} {strict : Prop}
  {plain : Bool} {ev : Runner} {env : Env} {origin : Option Address}
  {b : Bindings}

/-! ## Accumulators -/

section Accumulators

/-- There are as many accumulators as first values, and none if the first element is the first
value. -/
structure FoldState.Sized (inits : Children) (st : FoldState) : Prop where
  missing : st.accs = none → inits = [none]
  present : ∀ accs, st.accs = some accs → accs.length = inits.length

/-- The accumulators of a fold under way are known values, one for each first value. -/
structure FoldState.Sets (plain : Bool) (inits : Children) (st : FoldState) : Prop where
  fits : st.All (Outcome.Fits plain) fun _ => True
  sized : st.Sized inits

/-- Whether a fold that starts with the given first values accumulates the same in every order of
elements of a kind. -/
def OrderFree {ξ : Type} (step : RunFold → ξ → RunFold → Prop) (kind : ξ → Prop)
    (inits : Children) : Prop :=
  ∀ st : FoldState, st.Sized inits → ∀ us ws st', (∀ u ∈ us, kind u) → us.Perm ws →
    Folds step st.run us st' → Folds step st.run ws st'

/-- The accumulators as first values of a smaller fold. -/
def FoldState.resumed (st : FoldState) : List (Option Expr) :=
  match st.accs with
  | none => [none]
  | some accs => accs.map fun o => some o.expr

theorem FoldState.Sized.start_eq {d : FoldDef Expr} {seeds : List Expr}
    (h : st.Sized (d.start seeds)) : d.start st.seeds = st.resumed := by
  have hinits (hempty : seeds = []) : d.start seeds = d.inits := by
    rw [hempty]
    rfl
  cases haccs : st.accs with
  | none =>
    have hnone := h.missing haccs
    have hempty : seeds = [] := by
      unfold FoldDef.start at hnone
      split at hnone
      · exact isEmpty_iff.mp ‹_›
      · rw [List.map_eq_singleton_iff] at hnone
        obtain ⟨_, _, heq⟩ := hnone
        cases heq
    rw [hinits hempty] at hnone
    simp [FoldState.seeds, FoldState.resumed, haccs, FoldDef.start, hnone]
  | some accs =>
    have hlength := h.present accs haccs
    cases accs with
    | nil =>
      have hnil : d.start seeds = [] := length_eq_zero_iff.mp hlength.symm
      have hempty : seeds = [] := by
        unfold FoldDef.start at hnil
        split at hnil
        · exact isEmpty_iff.mp ‹_›
        · exact map_eq_nil_iff.mp hnil
      rw [hinits hempty] at hnil
      simp [FoldState.seeds, FoldState.resumed, haccs, FoldDef.start, hnil]
    | cons o rest => simp [FoldState.seeds, FoldState.resumed, haccs, FoldDef.start]

theorem FoldState.Sized.head?_seeds {seed : Option Expr} (h : st.Sized [seed]) :
    [st.seeds.head?] = st.resumed := by
  cases haccs : st.accs with
  | none => simp [FoldState.seeds, FoldState.resumed, haccs]
  | some accs =>
    obtain ⟨o, rfl⟩ := List.length_eq_one_iff.mp (h.present accs haccs)
    simp [FoldState.seeds, FoldState.resumed, haccs]

/-- A fold over a list with its first values, the number of elements that were folded before, and
its elements. -/
inductive ListFold (d : FoldDef Expr) : Expr → List (Option Expr) → Nat → List (Option Expr) → Prop
  | fold {form : FoldForm} {seeds : List Expr} {folded : Nat} {es : Children}
      {t : DataType} : ListFold d (.fold form d seeds folded es t) (d.start seeds) folded es
  | reduce {seed : Option Expr} {folded : Nat} {es : Children} {t : DataType} :
      ListFold d (.reduce d seed folded es t) [seed] folded es

namespace ListFold

variable {d : FoldDef Expr} {e x : Expr} {es : Children} {folded : Nat} {t : DataType}

theorem of_sized {form : FoldForm} {seeds : List Expr} (hst : st.Sized (d.start seeds)) :
    ListFold d (.fold form d st.seeds st.folded es t) st.resumed st.folded es := by
  rw [← hst.start_eq]
  exact .fold

theorem of_sized_seed {seed : Option Expr} (hst : st.Sized [seed]) :
    ListFold d (.reduce d st.seeds.head? st.folded es t) st.resumed st.folded es := by
  rw [← hst.head?_seeds]
  exact .reduce

variable (h : ListFold d e inits folded es)
include h

theorem mem_parts (hx : some x ∈ es ∨ x ∈ d.parts) : x ∈ e.parts := by
  cases h <;> rcases hx with hx | hx <;> simp [parts, hx]

theorem mem_parts_of_mem_inits (hx : some x ∈ inits) : x ∈ e.parts := by
  cases h with
  | fold => rcases FoldDef.mem_parts_of_mem_start _ hx with hx | hx <;> simp [parts, hx]
  | reduce => simp [parts, ← mem_singleton.mp hx]

theorem withChildren (he : e.withChildren (keepMissing e.children os) = .ok x) :
    ListFold d x inits folded (keepMissing es os) := by
  cases h with
  | fold =>
    cases he
    exact .fold
  | reduce =>
    cases he
    exact .reduce

theorem sorted (he : e.isSortedFold plain = true) : d.Sorted plain ∧
    (∀ x, some x ∈ inits → x.isSorted plain .scalar = true) ∧
      allSorted plain .element es = true := by
  cases h with
  | fold =>
    simp only [Expr.isSortedFold, and_eq_true] at he
    have hd := sorted_of_defSorted he.1.1
    exact ⟨hd, hd.start he.1.2, he.2⟩
  | reduce =>
    simp only [Expr.isSortedFold, and_eq_true] at he
    refine ⟨sorted_of_defSorted he.1.1, fun x hx => ?_, he.2⟩
    exact optionSorted_iff.mp he.1.2 x (mem_singleton.mp hx).symm

theorem runs_iff (y : Yield) :
    ev.Runs env e y ↔ ListYields ev.Runs env d inits folded es y := by
  rw [FormulaFold.runs_iff]
  cases h with
  | fold => exact ⟨fun h => by cases h; assumption, .fold⟩
  | reduce => exact ⟨fun h => by cases h; assumption, .reduce⟩

end ListFold

/-- A smaller fold starts with what was accumulated. -/
theorem startYields_resumed (hst : st.Sets plain inits) {r : RunFold} :
    StartYields (ev.Runs env) st.resumed st.folded r ↔ r = st.run := by
  cases haccs : st.accs with
  | none =>
    simp only [FoldState.resumed, FoldState.run, haccs, map_none]
    constructor
    · rintro (_ | ⟨hne, _⟩)
      · rfl
      · exact absurd rfl hne
    · rintro rfl
      exact .first rfl
  | some accs =>
    have hfits := hst.fits.accs accs haccs
    have hruns (ys : List Yield) : Forall₂ (ChildYields (ev.Runs env))
        (accs.map fun o => some o.expr) ys ↔ ys = accs.map Outcome.yield :=
      forall₂_map_left_iff.trans (runs_constants (fun o ho => (hfits o ho).isConstant)
        (fun o ho => (hfits o ho).isSorted .argument) ys)
    have hne : (accs.map fun o => some o.expr) ≠ [none] := by
      intro heq
      obtain ⟨_, _, hnone⟩ := List.map_eq_singleton_iff.mp heq
      cases hnone
    simp only [FoldState.resumed, FoldState.run, haccs, map_some]
    constructor
    · rintro (heq | ⟨_, hys⟩)
      · exact absurd heq hne
      · rw [(hruns _).mp hys, map_single_yield hfits]
    · rintro rfl
      rw [← map_single_yield hfits]
      exact .inits hne ((hruns _).mpr rfl)

variable {d : FoldDef Expr}

theorem sized_of_startGives {R : Giving} (h : StartGives R inits folded r)
    (hr : r = some st) : st.Sized inits := by
  cases h with
  | first hinits =>
    cases hr
    exact ⟨fun _ => hinits, by simp [FoldState.start]⟩
  | inits _ h =>
    obtain ⟨accs, haccs, rfl⟩ := map_eq_some_iff.mp hr
    refine ⟨by simp [FoldState.start], fun accs' heq => ?_⟩
    cases heq
    exact Lasting.length_of_constantsGive h haccs

theorem sized_of_stepGives {R : Bindings → Giving} (hst : st.Sized inits)
    (h : StepGives R b d st elements extra (some st')) : st'.Sized inits := by
  generalize hr : some st' = r at h
  cases h with
  | first haccs =>
    cases hr
    refine ⟨by simp [FoldState.advance], fun accs heq => ?_⟩
    cases heq
    rw [hst.missing haccs]
    rfl
  | next haccs _ hnames h =>
    obtain ⟨next, hnext, rfl⟩ := map_eq_some_iff.mp hr.symm
    refine ⟨by simp [FoldState.advance], fun accs heq => ?_⟩
    cases heq
    rw [Lasting.length_of_constantsGive h hnext, ← hst.present _ haccs, ← hnames]
    simp [FoldDef.steps, FoldDef.accumulatorNames]

variable (hmeets : ev.Meets strict plain origin b env)
include hmeets

theorem sets_of_startGives (hinits : ∀ x, some x ∈ inits → x.isSorted plain .scalar = true)
    (h : StartGives (ev.Sound strict plain origin b) inits folded (some st)) :
    st.Sets plain inits where
  fits := FoldState.All.start (fun e _ he ho hconst =>
    fits_of_isConstant (ho.sorted hmeets.fits .scalar (hinits e he)) hconst) h rfl
  sized := sized_of_startGives h rfl

/-- A fold starts with the same accumulators in a run. -/
theorem upholds_startGives
    (hinits : ∀ x, some x ∈ inits → x.isSorted plain .scalar = true ∧
      ev.Admits strict plain x)
    (h : StartGives (ev.Sound strict plain origin b) inits folded (some st)) :
    Upholds strict (StartYields (ev.Runs env) inits folded) (· = st.run) :=
  upholds_start (h.imp fun x _ hx ho => ho.upheldAs hmeets (hinits x hx).2 (hinits x hx).1
    (by simp)) rfl

variable (hd : d.Sorted plain) (hparts : ∀ x ∈ d.parts, ev.Admits strict plain x)
include hd

theorem accumulates_sound :
    d.Accumulates (Outcome.Fits plain) (ev.Sound strict plain origin) b where
  steps pairs hpairs e he _ ho hconst :=
    (accumulates_fits hmeets.fits hd).steps pairs hpairs e he _ ho.sorted hconst
  number := fits_number

theorem sets_of_stepGives (hst : st.Sets plain inits) (helements : ∀ o ∈ elements, o.Fits plain)
    (hextra : ∀ pair ∈ extra, pair.2.Fits plain)
    (h : StepGives (ev.Sound strict plain origin) b d st elements extra (some st')) :
    st'.Sets plain inits where
  fits := (accumulates_sound hmeets hd).step hst.fits helements hextra h rfl
  sized := sized_of_stepGives hst.sized h

omit hmeets hd in
theorem FoldState.Sets.hold (hst : st.Sets plain inits) (orderSensitive : Bool)
    (nodes : List Expr) : (st.hold orderSensitive nodes).Sets plain inits :=
  ⟨⟨hst.fits.accs, fun _ _ _ _ => trivial⟩, ⟨hst.sized.missing, hst.sized.present⟩⟩

include hparts

/-- **An item is taken or dropped as a run does it.** -/
theorem takes_of_itemGives {f : ι → List Outcome} {x : ι} {pass : Option Bool → Prop}
    {step : RunFold → ι → RunFold → Prop} (hknown : ∀ o ∈ f x, o.isKnown = true → o.Fits plain)
    (helements : (∀ o ∈ f x, o.Fits plain) →
      (∀ o ∈ elements, o.Fits plain) ∧ ∀ pair ∈ extra, pair.2.Fits plain)
    (hdropped : (∀ o ∈ f x, o.Fits plain) → pass (some false) →
      ∀ rs, Upholds strict (step rs x) (· = rs))
    (htried : (∀ o ∈ f x, o.Fits plain) → pass (some true) → ∀ rs rs',
      Upholds strict (StepYields ev.Runs env d rs (elements.map (·.value))
        (Bindings.valuesOf extra)) (· = rs') → Upholds strict (step rs x) (· = rs'))
    (hst : st.Sets plain inits)
    (h : ItemGives (ev.Sound strict plain origin) b d pass elements extra st (f x) st') :
    st.Takes strict d.orderSensitive (fun x => (f x).map (·.expr)) step
        (fun x => ∀ o ∈ f x, o.Fits plain) x st' ∧ st'.Sets plain inits := by
  have hhold := hst.hold d.orderSensitive ((f x).map (·.expr))
  have hfits (hheld : (st.stopped || !(f x).all (·.isKnown)) = false) (o : Outcome) (ho : o ∈ f x) :
      o.Fits plain := hknown o ho (isKnown_of_not_held hheld o ho)
  have hopen (hheld : (st.stopped || !(f x).all (·.isKnown)) = false) : st.stopped = false :=
    (or_eq_false_iff.mp hheld).1
  cases h with
  | held | undecided => exact ⟨.held, hhold⟩
  | dropped hheld hpass =>
    exact ⟨.taken (hopen hheld) (hopen hheld) rfl (hfits hheld) (hdropped (hfits hheld) hpass _),
      ⟨⟨hst.fits.accs, fun _ _ _ _ => trivial⟩, ⟨hst.sized.missing, hst.sized.present⟩⟩⟩
  | @tried r hheld hpass hr =>
    cases r with
    | none => exact ⟨.held, hhold⟩
    | some st₁ =>
      obtain ⟨he, hextra⟩ := helements (hfits hheld)
      have hstep := upholds_step hmeets hd hparts hst.fits he hextra hr
      exact ⟨.taken (hopen hheld) ((stopped_of_stepGives hr).trans (hopen hheld))
        (held_of_stepGives hr) (hfits hheld) (htried (hfits hheld) hpass _ _ hstep),
        sets_of_stepGives hmeets hd hst he hextra hr⟩

theorem takes_of_tuplesGive {f : ι → List Outcome} {xs : List ι}
    (hknown : ∀ x ∈ xs, ∀ o ∈ f x, o.isKnown = true → o.Fits plain) (hst : st.Sets plain inits)
    (h : TuplesGive (ev.Sound strict plain origin) b d st (xs.map f) st') :
    Folds (FoldState.Takes strict d.orderSensitive (fun x => (f x).map (·.expr))
        (fun st x => StepYields ev.Runs env d st ((f x).map (·.value)) [])
        (fun x => ∀ o ∈ f x, o.Fits plain)) st xs st' ∧
      st'.Sets plain inits :=
  (folds_map.mp h).imp_keeping (fun _ x _ hx hst h => takes_of_itemGives hmeets hd hparts
    (hknown x hx) (fun hfits => ⟨hfits, by simp⟩) (by simp) (fun _ _ _ _ => id) hst h) hst

end Accumulators

/-! ## Folds that are left -/

section Complete

variable {d : FoldDef Expr} {whole : Outcome → Prop} {rebuild : FoldState → Expr}
  {P cont : Yield → Prop}

/-- A fold whose elements are done or held is upheld if what is left of it is. -/
theorem upholds_complete (hmeets : ev.Meets strict plain origin b env) (hd : d.Sorted plain)
    (hparts : ∀ x ∈ d.parts, ev.Admits strict plain x) {Q : Expr → Prop}
    (hst : st.All (Outcome.Fits plain) Q) (hcont : Upholds strict P cont)
    (hresult : st.held = [] → ∀ y, cont y ↔ ResultYields ev.Runs env d st.run y)
    (hrebuild : st.held ≠ [] → ∀ y, cont y ↔ ev.Runs env (rebuild st) y)
    (hwhole : ∀ o, whole o → Upholds strict P (ev.Runs env o.expr))
    (h : CompleteGives (ev.Sound strict plain origin) b d partialFolds st whole rebuild o) :
    Upholds strict P (ev.Runs env o.expr) := by
  cases h with
  | result hheld ho =>
    exact (hcont.trans (.of_iff (hresult hheld))).trans (upholds_result hmeets hd hparts hst ho)
  | whole _ _ ho => exact hwhole o ho
  | rebuilt hheld =>
    exact hcont.trans (.of_iff fun y => (hrebuild hheld y).trans runs_ofExpr.symm)

end Complete

/-! ## Lists -/

section Lists

variable {d : FoldDef Expr} {vs : List Value}

/-- The state of a run after a leaf. -/
abbrev Runner.LeafYields (ev : Runner) (env : Env)
    (d : FoldDef Expr) (st : RunFold) (v : Value) : RunFold → Prop :=
  StepYields ev.Runs env d st [v] []

theorem folds_leaves {st st' : RunFold} :
    ElementsYield ev.Runs env d st (vs.map ([·])) st' ↔
      Folds (ev.LeafYields env d) st vs st' := folds_map

theorem listYields_iff : ListYields ev.Runs env d inits folded es y ↔
    ∃ st, StartYields (ev.Runs env) inits folded st ∧
      ∃ st', (∃ vs, ev.ChildLeaves env es vs ∧
          Folds (ev.LeafYields env d) st vs st') ∧
        ResultYields ev.Runs env d st' y := by
  constructor
  · rintro ⟨hstart, hys, hfolds, hy⟩
    exact ⟨_, hstart, _, ⟨_, ⟨_, hys, rfl⟩, folds_leaves.mp hfolds⟩, hy⟩
  · rintro ⟨st, hstart, st', ⟨_, ⟨ys, hys, rfl⟩, hfolds⟩, hy⟩
    exact .mk hstart hys (folds_leaves.mpr hfolds) hy

/-- A fold over a list that is left around what its elements become. -/
theorem upholds_listYields (hos : Forall₂ (Child (ev.UpheldLeaves strict env)) es os) :
    Upholds strict (ListYields ev.Runs env d inits folded es)
      (ListYields ev.Runs env d inits folded (keepMissing es os)) := by
  refine (Upholds.of_iff fun y => listYields_iff).trans (.trans ?_ (.of_iff fun y =>
    listYields_iff.symm))
  have hleaves := upholds_becomesLeaves (becomes_keepMissing hos)
  exact .exists_and (.refl _) fun st _ => .exists_and (.exists_and hleaves fun _ _ => .refl _)
    fun _ _ => .refl _

theorem spreads_leaves {α : Type} {M : α → Yield → Prop} {xs : List α} :
    Spreads (fun x => LeavesYield M [x]) xs vs ↔ LeavesYield M xs vs := by
  induction xs generalizing vs with
  | nil => simp [Spreads, leavesYield_nil]
  | cons x xs ih =>
    have hfirst (ws : List Value) : Spreads (fun x => LeavesYield M [x]) [x] ws ↔
        LeavesYield M [x] ws := by
      constructor
      · rintro ⟨_, _ | ⟨hx, ⟨⟩⟩, rfl⟩
        simpa using hx
      · intro hx
        exact ⟨[ws], .cons hx .nil, by simp⟩
    rw [← singleton_append, spreads_append, leavesYield_append]
    simp only [hfirst, ih]

theorem childLeaves_map_expr :
    ev.ChildLeaves env (os.map fun o => some o.expr) vs ↔
      ev.OutcomeLeaves env os vs :=
  exists_congr fun _ => and_congr_left fun _ => forall₂_map_left_iff

variable (hmeets : ev.Meets strict plain origin b env) (hd : d.Sorted plain)
  (hparts : ∀ x ∈ d.parts, ev.Admits strict plain x)
  (hinits : ∀ x, some x ∈ inits → x.isSorted plain .scalar = true ∧
    ev.Admits strict plain x)
include hmeets hd hparts hinits

/-- **A fold over a list is upheld** if its elements are.  Elements that are not folded in order
must lead to the same accumulators in any order. -/
theorem upholds_elements {partialFolds : Bool} {node : Expr} {rebuild : FoldState → Expr}
    (horder : d.orderSensitive = true ∨
      ¬strict ∧ OrderFree (ev.LeafYields env d) (·.isArray = false) inits)
    (hos : Forall₂ (Child (ev.UpheldLeaves strict env)) es os)
    (hsorted : ∀ o ∈ os, o.expr.isSorted plain .element = true)
    (hnode : ListFold d node inits folded es)
    (hrebuild : ∀ st : FoldState, st.Sized inits →
      ListFold d (rebuild st) st.resumed st.folded (st.held.flatten.map some))
    (h : ElementsGive (ev.Sound strict plain origin) b d partialFolds node inits folded
      rebuild os o) : ev.Upheld strict env node o := by
  have hwhole (o : Outcome) (ho : Rebuilt node os o) : ev.Upheld strict env node o := by
    obtain ⟨e, he, rfl⟩ := ho
    exact (Upholds.of_iff hnode.runs_iff).trans ((upholds_listYields hos).trans (.of_iff fun y =>
      ((hnode.withChildren he).runs_iff y).symm.trans runs_ofExpr.symm))
  cases h with
  | notStarted _ ho => exact hwhole o ho
  | @folded st st' _ hstart htuples ho =>
    have hst := sets_of_startGives hmeets (fun x hx => (hinits x hx).1) hstart
    have hflat := opens_isSorted.of_mem_flattenOutcomes hsorted
    obtain ⟨htakes, hst'⟩ := takes_of_tuplesGive hmeets hd hparts
      (f := ([·])) (fun x hx y hy => by
        rw [mem_singleton.mp hy]
        exact fits_of_isKnown (hflat x hx)) hst htuples
    obtain ⟨taken, held, hparted⟩ := exists_parts htakes
    have hheld : st'.held = held.map fun o => [o.expr] := by
      rw [hparted.held, held_of_startGives hstart rfl]
      simp
    -- What is left of the fold: its held elements, from what was accumulated on.
    let cont (y : Yield) : Prop := ∃ st₂, (∃ vs, ev.OutcomeLeaves env held vs ∧
      Folds (ev.LeafYields env d) st'.run vs st₂) ∧
        ResultYields ev.Runs env d st₂ y
    have hcont : Upholds strict (ev.Runs env node) cont := by
      have hleaves : Upholds strict (ev.ChildLeaves env es)
          (Spreads (fun o => ev.OutcomeLeaves env [o]) (flattenOutcomes os)) :=
        (upholds_childLeaves hos).trans
          (.of_iff fun vs => leavesYield_flattenOutcomes.symm.trans spreads_leaves.symm)
      have hknown (x : Outcome) (hx : ∀ o ∈ [x], o.Fits plain) (vs : List Value) :
          ev.OutcomeLeaves env [x] vs ↔ vs = [x.value] := outcomeLeaves_of_fits hx
      have hfolds := hparted.upholds (E := fun o => ev.OutcomeLeaves env [o])
        (ev.LeafYields env d) (·.value) hknown
        (horder.imp_right fun h => ⟨h.1, fun us ws st'' hus =>
          h.2 st hst.sized us ws st'' (isArray_of_leavesYield (spreads_leaves.mp hus))⟩)
      refine (Upholds.of_iff fun y => (hnode.runs_iff y).trans listYields_iff).trans
        ((upholds_startGives hmeets hinits hstart).exists_eq.trans
          (.exists_and ?_ fun _ _ => .refl _))
      refine (Upholds.exists_and hleaves fun _ _ => .refl _).trans
        (hfolds.trans (.of_iff fun st => ?_))
      exact exists_congr fun vs => and_congr_left fun _ => spreads_leaves
    refine upholds_complete hmeets hd hparts hst'.fits hcont (fun hnil y => ?_)
      (fun _ y => ?_) hwhole ho
    · have hnil : held = [] := map_eq_nil_iff.mp (hheld.symm.trans hnil)
      subst hnil
      constructor
      · rintro ⟨st₂, ⟨vs, hvs, hfolds⟩, hy⟩
        cases leavesYield_nil.mp hvs
        cases hfolds
        exact hy
      · intro hy
        exact ⟨_, ⟨[], leavesYield_nil.mpr rfl, .nil⟩, hy⟩
    · have hflatten : (st'.held.flatten).map some = held.map fun o => some o.expr := by
        rw [hheld, ← List.flatMap_def, List.map_flatMap, List.map_eq_flatMap]
        rfl
      rw [(hrebuild st' hst'.sized).runs_iff, listYields_iff, hflatten]
      simp only [startYields_resumed hst', childLeaves_map_expr, exists_eq_left]
      rfl

end Lists

/-! ## Arrays -/

section Arrays

variable {d : FoldDef Expr} {a : Outcome}

theorem runs_ofChild {e : Option Expr} :
    ev.Runs env (ofChild e).expr y ↔ ChildYields (ev.Runs env) e y := by
  cases e with
  | none => exact runs_constant
  | some e => exact runs_ofExpr

theorem outcomeLeaves_ofChild : ev.OutcomeLeaves env (es.map ofChild) vs ↔
      ev.ChildLeaves env es vs := by
  refine exists_congr fun ys => and_congr_left fun _ => ?_
  rw [forall₂_map_left_iff]
  simp only [runs_ofChild]

/-- The elements of a range or a splice have its leaves. -/
theorem outcomeLeaves_elements? (h : a.elements? = some elements) :
    ev.OutcomeLeaves env (flattenOutcomes elements) vs ↔
      ev.OutcomeLeaves env [a] vs := by
  refine leavesYield_flattenOutcomes.trans (Iff.trans ?_ outcomeLeaves_singleton.symm)
  unfold Outcome.elements? at h
  split at h
  · cases h
    exact outcomeLeaves_ofChild.trans leavesYield_range.symm
  · cases h
    exact outcomeLeaves_ofChild.trans leavesYield_splice.symm
  · cases h

theorem outcomeLeaves_arrayElements? (ha : a.expr.isSorted plain .element = true)
    (h : arrayElements? a = some elements) :
    ev.OutcomeLeaves env elements vs ↔ ev.OutcomeLeaves env [a] vs := by
  unfold arrayElements? at h
  split at h
  · cases h
    exact outcomeLeaves_elements? ‹_›
  · rename_i values t _
    exact absurd (Value.isArray_of_fits (by simpa [Outcome.expr, isSorted] using ha))
      (by simp [Value.isArray])
  · cases h
    rfl
  · cases h

theorem isSorted_of_arrayElements? (ha : a.expr.isSorted plain .element = true)
    (h : arrayElements? a = some elements) :
    ∀ o ∈ elements, o.expr.isSorted plain .element = true := by
  unfold arrayElements? at h
  split at h
  · cases h
    exact opens_isSorted.of_mem_flattenOutcomes (opens_isSorted.of_elements? ha ‹_›)
  · rename_i values t _
    exact absurd (Value.isArray_of_fits (by simpa [Outcome.expr, isSorted] using ha))
      (by simp [Value.isArray])
  · cases h
    simpa using ha
  · cases h

theorem arrayYields_iff {M : Env → Yielding} :
    ArrayYields M env d array y ↔ ListYields M env d d.inits 0 [array] y := by
  constructor
  · rintro ⟨ha, hstart, hfolds, hy⟩
    exact .mk hstart (.cons ha .nil) (by simpa using hfolds) hy
  · rintro ⟨hstart, _ | ⟨ha, ⟨⟩⟩, hfolds, hy⟩
    exact .mk ha hstart (by simpa using hfolds) hy

variable (hmeets : ev.Meets strict plain origin b env) (hd : d.Sorted plain)
  (hparts : ∀ x ∈ d.parts, ev.Admits strict plain x)
include hmeets hd hparts

theorem upholds_whole (hst : st.Sets plain inits)
    (helements : ∀ o ∈ elements, o.expr.isSorted plain .element = true) (hr : r = some st')
    (h : WholeGives (ev.Sound strict plain origin) b d st elements r) :
    (∀ o ∈ elements, o.Fits plain) ∧ st'.Sets plain inits ∧
      Upholds strict (Folds (ev.LeafYields env d) st.run (elements.map (·.value)))
        (· = st'.run) := by
  induction h with
  | nil =>
    cases hr
    refine ⟨by simp, hst, .of_iff fun st => ⟨?_, ?_⟩⟩
    · rintro ⟨⟩
      rfl
    · rintro rfl
      exact .nil
  | unknown | stuck => cases hr
  | cons ho hstep _ ih =>
    have hall := forall_mem_cons.mp helements
    have hfits := fits_of_isKnown hall.1 ho
    have hst₁ := sets_of_stepGives hmeets hd hst (by simpa using hfits) (by simp) hstep
    obtain ⟨hrest, hst', hfolds⟩ := ih hst₁ hall.2 hr
    have hupheld := upholds_step hmeets hd hparts hst.fits (by simpa using hfits) (by simp) hstep
    refine ⟨forall_mem_cons.mpr ⟨hfits, hrest⟩, hst', ⟨?_, ?_⟩⟩
    · rintro st (_ | ⟨hx, hxs⟩)
      rw [hupheld.forth _ hx] at hxs
      exact hfolds.forth _ hxs
    · rintro hs _ rfl
      exact .cons (hupheld.back hs _ rfl) (hfolds.back hs _ rfl)

/-- **A fold that is done whole is upheld** if a run goes through the same elements. -/
theorem upholds_done
    (hinits : ∀ x, some x ∈ inits → x.isSorted plain .scalar = true ∧
      ev.Admits strict plain x)
    (helements : ∀ o ∈ elements, o.expr.isSorted plain .element = true)
    (hleaves : (∀ o ∈ elements, o.Fits plain) →
      Upholds strict (ev.ChildLeaves env es) (· = elements.map (·.value)))
    (hnode : ∀ y, ev.Runs env node y ↔
      ListYields ev.Runs env d inits folded es y)
    (hstart : StartGives (ev.Sound strict plain origin b) inits folded (some st))
    (hwhole : WholeGives (ev.Sound strict plain origin) b d st elements (some st'))
    (ho : ResultGives (ev.Sound strict plain origin) b d st' o) :
    ev.Upheld strict env node o := by
  have hst := sets_of_startGives hmeets (fun x hx => (hinits x hx).1) hstart
  obtain ⟨hfits, hst', hfolds⟩ := upholds_whole hmeets hd hparts hst helements rfl hwhole
  refine (Upholds.of_iff fun y => (hnode y).trans listYields_iff).trans
    ((upholds_startGives hmeets hinits hstart).exists_eq.trans
      (.trans (Upholds.exists_eq ?_) (upholds_result hmeets hd hparts hst'.fits ho)))
  exact (hleaves hfits).exists_eq.trans hfolds

omit hmeets hd hparts in
theorem runs_foldArray (array : Option Expr) (y : Yield) :
    ev.Runs env (.foldArray d array t) y ↔ ListYields ev.Runs env d d.inits 0 [array] y := by
  rw [runs_iff]
  exact Iff.trans ⟨fun h => by cases h; assumption, .foldArray⟩ arrayYields_iff

/-- **A fold over one array is upheld** if the array is. -/
theorem upholds_array (hinits : ∀ x, some x ∈ d.inits → ev.Admits strict plain x)
    (ha : Child (ev.UpheldLeaves strict env) array a)
    (hsorted : a.expr.isSorted plain .element = true)
    (h : ArrayGives (ev.Sound strict plain origin) b d (.foldArray d array t) d.inits a o) :
    ev.Upheld strict env (.foldArray d array t) o := by
  have hos : Forall₂ (Child (ev.UpheldLeaves strict env)) [array] [a] := .cons ha .nil
  have hwhole (ho : Rebuilt (.foldArray d array t) [a] o) :
      ev.Upheld strict env (.foldArray d array t) o := by
    obtain ⟨_, ⟨⟩, rfl⟩ := ho
    exact (Upholds.of_iff (runs_foldArray array)).trans ((upholds_listYields hos).trans
      (.of_iff fun y => (runs_foldArray _ y).symm.trans runs_ofExpr.symm))
  cases h with
  | sized _ ho | notStarted _ _ ho | stuck _ _ _ ho => exact hwhole ho
  | folded helements hstart hwhole ho =>
    refine upholds_done hmeets hd hparts (fun x hx => ⟨hd.inits x hx, hinits x hx⟩)
      (isSorted_of_arrayElements? hsorted helements) (fun hfits => ?_) (runs_foldArray array) hstart
      hwhole ho
    exact (upholds_childLeaves hos).trans (.of_iff fun vs =>
      (outcomeLeaves_arrayElements? hsorted helements).symm.trans (outcomeLeaves_of_fits hfits))

end Arrays

end FormulaFold
