import FormulaFold.Proofs.GrantedForms
import FormulaFold.Proofs.UpheldTables

/-! # Folds of which constants are granted

If no computation is refused, a fold over constants holds nothing back: after each element its
accumulators are those of a run (`FoldState.Tracks`), and in the end its value is the one that a
run yields.
-/
namespace FormulaFold

variable {plain : Bool} {rebuild : FoldState → Expr} {vectors : List (List Outcome)} {α : Type}

/-- The fold holds nothing back and has accumulated what a run has. -/
structure FoldState.Tracks (plain : Bool) (st : FoldState) (rs : RunFold) : Prop where
  going : st.stopped = false
  held : st.held = []
  fits : ∀ accs, st.accs = some accs → ∀ o ∈ accs, o.Fits plain
  run : rs = st.run

theorem FoldState.Tracks.start {accs : Option (List Outcome)} (folded : Nat)
    (h : ∀ os, accs = some os → ∀ o ∈ os, o.Fits plain) :
    (FoldState.start accs folded).Tracks plain ⟨accs.map (·.map (·.value)), folded⟩ :=
  ⟨rfl, rfl, h, rfl⟩

theorem FoldState.Tracks.advance {st : FoldState} {rs : RunFold} (h : st.Tracks plain rs)
    {accs : List Outcome} (haccs : ∀ o ∈ accs, o.Fits plain) :
    (st.advance accs).Tracks plain ⟨some (accs.map (·.value)), rs.folded + 1⟩ where
  going := h.going
  held := h.held
  fits os hos := by
    cases hos
    exact haccs
  run := by
    rw [h.run]
    rfl

variable {ev : Runner} {b : Bindings} {site : Site} {o : Outcome} {os : List Outcome} {y : Yield}
  {d : FoldDef Expr} {R : Bindings → Giving}

/-! ## First values and steps -/

section Runs

variable (henv : b.Agrees plain site.origin env)
include henv

theorem yields_of_constantsGive (hes : none ∉ es) {r : Option (List Outcome)}
    (hr : ConstantsGive (ev.Shows plain site.origin .scalar b) es r)
    (hys : Forall₂ (ChildYields (ev.Runs env)) es ys) :
    ∃ os, r = some os ∧ (∀ o ∈ os, o.Fits plain) ∧ ys = os.map Outcome.yield := by
  induction hr generalizing ys with
  | nil =>
    cases hys
    exact ⟨[], rfl, by simp, rfl⟩
  | missing => exact absurd mem_cons_self hes
  | left ho hconst =>
    obtain _ | ⟨hy, _⟩ := hys
    rw [(ho env _ henv hy).constant] at hconst
    cases hconst
  | @cons e o _ _ ho _ _ ih =>
    obtain _ | ⟨hy, hys⟩ := hys
    obtain ⟨os, rfl, hos, rfl⟩ := ih (fun h => hes (mem_cons_of_mem _ h)) hys
    obtain ⟨hfits, rfl⟩ := (ho env _ henv hy).fits
    exact ⟨o :: os, rfl, forall_mem_cons.mpr ⟨hfits, hos⟩, rfl⟩

theorem tracks_of_startGives (hinits : inits = [none] ∨ none ∉ inits)
    (hr : StartGives (ev.Shows plain site.origin .scalar b) inits folded r)
    (hrs : StartYields (ev.Runs env) inits folded rs) :
    ∃ st, r = some st ∧ st.Tracks plain rs := by
  cases hr with
  | first hfirst =>
    obtain _ | ⟨hne, _⟩ := hrs
    · exact ⟨_, rfl, .start folded (by simp)⟩
    · exact absurd hfirst hne
  | inits hne hr =>
    obtain hfirst | ⟨_, hys⟩ := hrs
    · exact absurd hfirst hne
    · obtain ⟨os, rfl, hos, rfl⟩ := yields_of_constantsGive henv (hinits.resolve_left hne) hr hys
      refine ⟨_, rfl, ?_⟩
      rw [map_single_yield hos]
      exact .start folded fun _ heq => by cases heq; exact hos

section Steps

variable (hparts : ∀ x ∈ d.parts, ∀ b o, R b x o →
  ev.Shows plain site.origin .scalar b x o)
include hparts

/-- **A step leads to the accumulators of a run.** -/
theorem tracks_of_stepGives {elements : List Outcome} {extra : Pairs}
    {r : Option FoldState} (hr : StepGives R b d st elements extra r) (hst : st.Tracks plain rs)
    (helements : ∀ o ∈ elements, o.Fits plain) (hextra : ∀ pair ∈ extra, pair.2.Fits plain)
    (hstep : StepYields ev.Runs env d rs (elements.map (·.value))
      (Bindings.valuesOf extra) rs') : ∃ st', r = some st' ∧ st'.Tracks plain rs' := by
  cases hr with
  | first haccs hlen heq =>
    have hnone : rs.accs = none := by rw [hst.run, FoldState.run, haccs, map_none]
    subst heq
    refine ⟨_, rfl, ?_⟩
    rcases hstep with ⟨_, _, heq⟩ | ⟨haccs', _⟩
    · cases heq
      refine hst.advance fun o ho => helements o ?_
      rw [mem_singleton.mp ho]
      exact mem_cons_self
    · cases hnone.symm.trans haccs'
  | @next accs r haccs hlen hnames hr =>
    have hsome : rs.accs = some (accs.map (·.value)) := by
      rw [hst.run, FoldState.run, haccs, map_some]
    have hpairs : ∀ pair ∈ d.stepPairs st.folded accs elements extra, pair.2.Fits plain :=
      FoldDef.Accumulates.stepPairs (R := fun _ _ o => o.Fits plain) (b := b)
        ⟨fun _ _ _ _ _ ho _ => ho, fits_number⟩ (hst.fits accs haccs) helements hextra
    rcases hstep with ⟨haccs', _⟩ | ⟨haccs', _, _, hys⟩
    · cases hsome.symm.trans haccs'
    · cases hsome.symm.trans haccs'
      have hfolded : rs.folded = st.folded := by rw [hst.run]; rfl
      rw [hfolded, d.stepEnv_eq] at hys
      have hr :=
        hr.imp fun x o hx => hparts x (FoldDef.mem_parts_of_mem_steps (by simpa using hx)) _ o
      obtain ⟨os, rfl, hos, rfl⟩ := yields_of_constantsGive (henv.pushAll hpairs) (by simp) hr
        (forall₂_map_left_iff.mpr hys)
      rw [map_single_yield hos]
      exact ⟨_, rfl, hst.advance hos⟩

omit henv hparts in
theorem all_isKnown_of_fits (h : ∀ o ∈ os, o.Fits plain) : os.all (·.isKnown) = true := by
  refine all_eq_true.mpr fun o ho => ?_
  obtain ⟨v, t, rfl, _⟩ := h o ho
  rfl

theorem tracks_of_tupleGives {tuple : List Outcome} (h : TupleGives R b d st tuple st')
    (hst : st.Tracks plain rs) (hfits : ∀ o ∈ tuple, o.Fits plain)
    (hstep : StepYields ev.Runs env d rs (tuple.map (·.value)) [] rs') :
    st'.Tracks plain rs' := by
  cases h with
  | held hheld =>
    rw [hst.going, all_isKnown_of_fits hfits] at hheld
    cases hheld
  | undecided _ hpass | dropped _ hpass => cases hpass
  | tried _ _ hr =>
    obtain ⟨st', rfl, hst'⟩ := tracks_of_stepGives henv hparts hr hst hfits (by simp) hstep
    exact hst'

/-- **Tuples of constants lead to the accumulators of a run.** -/
theorem tracks_of_tuplesGive {tuples : List (List Outcome)} (h : TuplesGive R b d st tuples st')
    (hst : st.Tracks plain rs) (hfits : ∀ tuple ∈ tuples, ∀ o ∈ tuple, o.Fits plain)
    (hfolds : ElementsYield ev.Runs env d rs (tuples.map (List.map (·.value))) rs') :
    st'.Tracks plain rs' := by
  induction h generalizing rs with
  | nil =>
    cases hfolds
    exact hst
  | cons htuple _ ih =>
    obtain _ | ⟨hstep, hfolds⟩ := hfolds
    have hfits := forall_mem_cons.mp hfits
    exact ih (tracks_of_tupleGives henv hparts htuple hst hfits.1 hstep) hfits.2 hfolds

/-! ## Results -/

/-- **The value of a fold is the one that a run yields.** -/
theorem stands_of_resultGives (ho : ResultGives R b d st o) (hst : st.Tracks plain rs)
    (hy : ResultYields ev.Runs env d rs y) : o.Stands plain .scalar y := by
  have hfolded : rs.folded = st.folded := by rw [hst.run]; rfl
  have haccs : rs.accs = st.accs.map (·.map (·.value)) := by rw [hst.run]; rfl
  -- A run and a walk end in the same way.
  have hcounts {e : Expr} (he : d.whenEmpty = some e)
      (hsome : d.whenEmpty.isSome → st.folded ≠ 0) : rs.folded ≠ 0 := by
    rw [hfolded]
    exact hsome (by rw [he]; rfl)
  cases ho with
  | whenEmpty he hzero ho =>
    have hsome : d.whenEmpty.isSome := by rw [he]; rfl
    rcases hy with ⟨he', _, hy⟩ | ⟨hne, _⟩ | ⟨hne, _⟩ | ⟨hne, _⟩
    · cases he.symm.trans he'
      exact hparts _ (by simp [FoldDef.parts, he]) _ _ ho env y henv hy
    all_goals exact absurd (hfolded.trans hzero) (hne hsome)
  | blank hsome hnone =>
    rw [hnone] at haccs
    rcases hy with ⟨he, hzero, _⟩ | _ | ⟨_, haccs', _⟩ | ⟨_, haccs', _⟩
    · exact absurd hzero (hcounts he hsome)
    · exact fits_blank.stands
    all_goals cases haccs.symm.trans haccs'
  | first hsome hone hmerge =>
    rw [hone] at haccs
    rcases hy with ⟨he, hzero, _⟩ | ⟨_, haccs'⟩ | ⟨_, haccs', _⟩ | ⟨_, _, hmerge', _⟩
    · exact absurd hzero (hcounts he hsome)
    · cases haccs.symm.trans haccs'
    · cases haccs.symm.trans haccs'
      have hfits := hst.fits _ hone o mem_cons_self
      have hstands : o.Stands plain .scalar o.yield := hfits.stands
      rwa [yield_eq_of_fits hfits] at hstands
    · cases hmerge.symm.trans hmerge'
  | merged hsome hone hmerge _ ho =>
    rw [hone] at haccs
    have hpairs : ∀ pair ∈ d.mergePairs st.folded _, pair.2.Fits plain :=
      FoldState.All.mergePairs (Q := fun _ => True) ⟨hst.fits, fun _ _ _ _ => trivial⟩
        fits_number hone
    rcases hy with ⟨he, hzero, _⟩ | ⟨_, haccs'⟩ | ⟨_, _, hmerge'⟩ | ⟨_, haccs', hmerge', _, hy⟩
    · exact absurd hzero (hcounts he hsome)
    · cases haccs.symm.trans haccs'
    · cases hmerge.symm.trans hmerge'
    · cases haccs.symm.trans haccs'
      cases hmerge.symm.trans hmerge'
      rw [hfolded, d.mergeEnv_eq] at hy
      exact hparts _ (by simp [FoldDef.parts, hmerge]) _ _ ho _ y (henv.pushAll hpairs) hy

theorem stands_of_completeGives {whole : Outcome → Prop}
    (ho : CompleteGives R b d partialFolds st whole rebuild o) (hst : st.Tracks plain rs)
    (hy : ResultYields ev.Runs env d rs y) : o.Stands plain .scalar y := by
  cases ho with
  | result _ ho => exact stands_of_resultGives henv hparts ho hst hy
  | whole hheld | rebuilt hheld => exact absurd hst.held hheld

end Steps

end Runs

/-! ## Elements -/

/-- The elements of a fold that are granted are known, and they are the leaves that a run folds. -/
theorem Outcome.Stands.elements (h : o.Stands plain .element y) :
    (∀ x ∈ o.flatten, x.Fits plain) ∧ y.leaves = o.flatten.map (·.value) := by
  refine ⟨fun x hx => ?_, h.leaves⟩
  cases o with
  | known v t =>
    rw [mem_singleton.mp hx]
    exact fits_of_isKnown h.sorted rfl
  | residual e =>
    exact fits_of_isKnown (opens_isSorted.of_mem_flatten h.sorted x hx)
      (isKnown_of_mem_flatten e h.constant x hx)

theorem fits_of_mem_flattenOutcomes (h : Forall₂ (Outcome.Stands plain .element) os ys) :
    ∀ o ∈ flattenOutcomes os, o.Fits plain := by
  intro x hx
  obtain ⟨o, ho, hx⟩ := mem_flatMap.mp hx
  obtain ⟨y, _, hy⟩ := exists_of_forall₂_of_mem h.flip ho
  exact hy.elements.1 x hx

section Folds

variable (hparts : ∀ x ∈ d.parts, ∀ b o, R b x o →
    ev.Shows plain site.origin .scalar b x o)
  (hinits : inits = [none] ∨ none ∉ inits)
  (hstart : ∀ x o, some x ∈ inits → R b x o → ev.Shows plain site.origin .scalar b x o)
  (henv : b.Agrees plain site.origin env)
include hparts hinits hstart henv

/-- A fold over a list. -/
theorem stands_of_elementsGive
    (hos : Forall₂ (Child (ev.Shows plain site.origin .element b)) es os)
    (ho : ElementsGive R b d partialFolds node inits folded rebuild os o)
    (hy : ListYields ev.Runs env d inits folded es y) : o.Stands plain .scalar y := by
  obtain ⟨hst, hys, hfolds, hy⟩ := hy
  cases ho with
  | notStarted hr =>
    obtain ⟨_, heq, _⟩ := tracks_of_startGives henv hinits (hr.imp hstart) hst
    cases heq
  | folded hr htuples ho =>
    obtain ⟨_, heq, hst⟩ := tracks_of_startGives henv hinits (hr.imp hstart) hst
    cases heq
    have hstands := stands_of_children hos henv hys
    refine stands_of_completeGives henv hparts ho
      (tracks_of_tuplesGive henv hparts htuples hst ?_ ?_) hy
    · intro tuple htuple x hx
      obtain ⟨z, hz, rfl⟩ := mem_map.mp htuple
      rw [mem_singleton.mp hx]
      exact fits_of_mem_flattenOutcomes hstands z hz
    · rw [leaves_of_stands hstands, ← List.map_flatMap, ← flattenOutcomes] at hfolds
      simpa [Function.comp_def] using hfolds

omit hinits hstart in
theorem tracks_of_wholeGives (hr : WholeGives R b d st os r) (hst : st.Tracks plain rs)
    (hfits : ∀ o ∈ os, o.Fits plain)
    (hfolds : ElementsYield ev.Runs env d rs ((os.map (·.value)).map ([·])) rs') :
    ∃ st', r = some st' ∧ st'.Tracks plain rs' := by
  induction hr generalizing rs with
  | nil =>
    cases hfolds
    exact ⟨_, rfl, hst⟩
  | unknown hknown =>
    obtain ⟨_, _, rfl, _⟩ := hfits _ mem_cons_self
    cases hknown
  | stuck _ hstep =>
    obtain _ | ⟨hnext, _⟩ := hfolds
    obtain ⟨_, heq, _⟩ := tracks_of_stepGives henv hparts hstep hst
      (List.forall_mem_singleton.mpr (hfits _ mem_cons_self)) (by simp) hnext
    cases heq
  | cons _ hstep _ ih =>
    obtain _ | ⟨hnext, hfolds⟩ := hfolds
    obtain ⟨_, heq, hst⟩ := tracks_of_stepGives henv hparts hstep hst
      (List.forall_mem_singleton.mpr (hfits _ mem_cons_self)) (by simp) hnext
    cases heq
    exact ih hst (forall_mem_cons.mp hfits).2 hfolds

omit hparts hinits hstart henv in
/-- An array that is granted is folded over its elements. -/
theorem arrayElements?_of_stands (h : o.Stands plain .element y) :
    arrayElements? o = some o.flatten := by
  cases o with
  | known v t =>
    obtain ⟨_, _, heq, hv⟩ := fits_of_isKnown h.sorted rfl
    cases heq
    cases v with
    | array => cases Value.isArray_of_fits hv
    | _ => rfl
  | residual e =>
    have hconst : e.isAggregate = true := h.constant
    have helements : ∃ elements, (Outcome.residual e).elements? = some elements := by
      cases e with
      | range | splice => exact ⟨_, rfl⟩
      | _ => cases hconst
    obtain ⟨elements, helements⟩ := helements
    unfold arrayElements?
    rw [helements]
    exact congrArg some (flatten_of_elements? helements)

/-- A fold over one array. -/
theorem stands_of_arrayGives {array : Option Expr} (hfirst : d.inits = inits)
    (ha : Child (ev.Shows plain site.origin .element b) array a)
    (ho : ArrayGives R b d node inits a o) (hy : ArrayYields ev.Runs env d array y) :
    o.Stands plain .scalar y := by
  obtain ⟨hx, hst, hfolds, hy⟩ := hy
  rw [hfirst] at hst
  have hstands := stands_of_childOr fits_blank.stands ha henv hx
  have hknown := arrayElements?_of_stands hstands
  obtain ⟨hfits, hleaves⟩ := hstands.elements
  rw [hleaves] at hfolds
  cases ho with
  | sized hnone => cases hnone.symm.trans hknown
  | notStarted _ hr =>
    obtain ⟨_, heq, _⟩ := tracks_of_startGives henv hinits (hr.imp hstart) hst
    cases heq
  | stuck helements hr hwhole =>
    cases helements.symm.trans hknown
    obtain ⟨_, heq, hst⟩ := tracks_of_startGives henv hinits (hr.imp hstart) hst
    cases heq
    obtain ⟨_, heq, _⟩ := tracks_of_wholeGives hparts henv hwhole hst hfits hfolds
    cases heq
  | folded helements hr hwhole ho =>
    cases helements.symm.trans hknown
    obtain ⟨_, heq, hst⟩ := tracks_of_startGives henv hinits (hr.imp hstart) hst
    cases heq
    obtain ⟨_, heq, hst⟩ := tracks_of_wholeGives hparts henv hwhole hst hfits hfolds
    cases heq
    exact stands_of_resultGives henv hparts ho hst hy

/-! ## Vectors -/

omit hparts hinits hstart henv in
/-- Where a range or a splice is granted, its elements are known one by one. -/
theorem isSome_elements?_of_stands {e : Expr} (he : e.isVector = true)
    (hy : ev.Runs env e y) (h : o.Stands plain .element y) :
    o.elements?.isSome = true := by
  cases o with
  | known v t =>
    -- A known value is no array, and a range yields one.
    obtain ⟨_, _, heq, hv⟩ := fits_of_isKnown h.sorted rfl
    cases heq
    cases h.yield (.inr rfl)
    cases e with
    | range rows cols es =>
      obtain ⟨ys, _, heq⟩ := runs_range.mp hy
      obtain ⟨rows', cols', hgrid⟩ := exists_grid_eq rows cols (ys.map Yield.single)
      rw [hgrid] at heq
      cases heq
      cases Value.isArray_of_fits hv
    | splice es =>
      obtain ⟨ys, _, heq⟩ := runs_splice.mp hy
      cases heq
    | _ => cases he
  | residual r =>
    have hconst : r.isAggregate = true := h.constant
    cases r with
    | range | splice => rfl
    | _ => cases hconst

omit hparts hinits hstart henv in
theorem isSome_elements?_of_children (hvectors : ∀ e ∈ es, ∃ x, e = some x ∧ x.isVector = true)
    (hos : Forall₂ (Child (ev.Shows plain site.origin .element b)) es os)
    (henv : b.Agrees plain site.origin env) (hys : Forall₂ (ChildYields (ev.Runs env)) es ys) :
    ∀ o ∈ os, o.elements?.isSome = true := by
  induction hos generalizing ys with
  | nil => simp
  | cons ho _ ih =>
    obtain _ | ⟨hy, hys⟩ := hys
    have hvectors := forall_mem_cons.mp hvectors
    obtain ⟨x, rfl, hx⟩ := hvectors.1
    exact forall_mem_cons.mpr
      ⟨isSome_elements?_of_stands hx hy (ho env _ henv hy), ih hvectors.2 hys⟩

omit hparts hinits hstart henv in
theorem vectorElements?_ne_none
    (h : ∀ o ∈ os, o.elements?.isSome = true) : vectorElements? first position os ≠ none := by
  induction os generalizing first position with
  | nil => simp [vectorElements?]
  | cons o rest ih =>
    have h := forall_mem_cons.mp h
    obtain ⟨elements, helements⟩ := isSome_iff_exists.mp h.1
    rw [vectorElements?_cons, helements, bind_some]
    split
    · simp
    · intro hnone
      exact ih h.2 (map_eq_none_iff.mp hnone)

omit hparts hinits hstart henv in
theorem leaves_of_vectorElements?
    (hvectors : Forall₂ (fun o v => o.elements?.map flattenOutcomes = some v) os vectors)
    (h : Forall₂ (Outcome.Stands plain .element) os ys) :
    ys.map Yield.leaves = vectors.map (List.map (·.value)) ∧
      ∀ v ∈ vectors, ∀ o ∈ v, o.Fits plain := by
  induction hvectors generalizing ys with
  | nil =>
    cases h
    exact ⟨rfl, by simp⟩
  | cons hv _ ih =>
    obtain _ | ⟨ho, hos⟩ := h
    obtain ⟨elements, helements, rfl⟩ := map_eq_some_iff.mp hv
    obtain ⟨hleaves, hfits⟩ := ih hos
    rw [flatten_of_elements? helements]
    refine ⟨?_, forall_mem_cons.mpr ⟨ho.elements.1, hfits⟩⟩
    rw [map_cons, map_cons, hleaves, ho.elements.2]

omit hparts hinits hstart henv in
theorem exists_of_mem_columnsOf
    (hcolumn : column ∈ columnsOf width rows) (hx : x ∈ column) : ∃ row ∈ rows, x ∈ row := by
  obtain ⟨i, _, rfl⟩ := mem_map.mp hcolumn
  obtain ⟨row, hrow, hx⟩ := mem_filterMap.mp hx
  exact ⟨row, hrow, mem_of_getElem? hx⟩

omit hparts hinits hstart henv in
/-- The vectors are as long as their leaves in a run are many. -/
theorem length_headD_of_leaves {M : Yielding} {k : Nat} (hne : es ≠ [])
    (hys : Forall₂ (ChildYields M) es ys) (hk : ∀ y ∈ ys, y.leaves.length = k)
    (hleaves : ys.map Yield.leaves = vectors.map (List.map (·.value))) :
    (vectors.headD []).length = k := by
  cases hys with
  | nil => exact absurd rfl hne
  | cons _ _ =>
    cases vectors with
    | nil => cases hleaves
    | cons v rest =>
      rw [map_cons, map_cons, List.cons.injEq] at hleaves
      rw [← hk _ mem_cons_self, hleaves.1, length_map]
      rfl

/-- A fold over vectors that are written out. -/
theorem stands_of_vectorsGive {rebuild : FoldState → List Expr → Expr}
    (hvectors : ∀ e ∈ es, ∃ x, e = some x ∧ x.isVector = true)
    (hos : Forall₂ (Child (ev.Shows plain site.origin .element b)) es os)
    (ho : VectorsGive R b d partialFolds node inits folded rebuild os o)
    (hy : VectorsYield ev.Runs env d inits folded es y) : o.Stands plain .scalar y := by
  obtain ⟨hne, _, hys, hn, hst, hfolds, hy⟩ := hy
  cases ho with
  | sized hnone =>
    exact absurd hnone (vectorElements?_ne_none
      (isSome_elements?_of_children hvectors hos henv hys))
  | notStarted _ hr =>
    obtain ⟨_, heq, _⟩ := tracks_of_startGives henv hinits (hr.imp hstart) hst
    cases heq
  | folded helements hr htuples ho =>
    obtain ⟨_, heq, hst⟩ := tracks_of_startGives henv hinits (hr.imp hstart) hst
    cases heq
    obtain ⟨hleaves, hfits⟩ := leaves_of_vectorElements? (vectorElements?_eq_ok helements).1
      (stands_of_children hos henv hys)
    refine stands_of_completeGives henv hparts ho
      (tracks_of_tuplesGive henv hparts htuples hst ?_ ?_) hy
    · intro tuple htuple x hx
      obtain ⟨v, hv, hx⟩ := exists_of_mem_columnsOf htuple hx
      exact hfits v hv x hx
    · rw [hleaves, columnsOf_map, ← length_headD_of_leaves hne hys hn hleaves] at hfolds
      exact hfolds

/-! ## Tables -/

section Tables

variable
  (hfilter : ∀ x, filter = some x → ∀ b o, R b x o → ev.Shows plain site.origin .scalar b x o)
include hfilter

omit hparts hinits hstart in
/-- A row of constants passes the filter as it does in a run. -/
theorem passes_of_passGives {r : Option Bool} {p : Bool} (hr : PassGives R b columns filter row r)
    (hfits : ∀ o ∈ row, o.Fits plain)
    (hp : PassYields ev.Runs env columns filter (row.map (·.value)) p) :
    r = some p := by
  cases hr with
  | all hnone =>
    obtain _ | ⟨he, _⟩ := hp
    · rfl
    · cases hnone.symm.trans he
  | tested he ho =>
    obtain hnone | ⟨he', _, hy, hp⟩ := hp
    · cases he.symm.trans hnone
    cases he.symm.trans he'
    have hpairs : ∀ pair ∈ columns.zip row, pair.2.Fits plain := fun pair hpair =>
      hfits _ (of_mem_zip hpair).2
    rw [← Bindings.valuesOf_zip] at hy
    obtain ⟨⟨v, t, rfl, _⟩, rfl⟩ := (hfilter _ he _ _ ho _ _ (henv.pushAll hpairs) hy).fits
    have hp : v.toBool = .ok p := hp
    rw [Outcome.truth?, hp]
    rfl

omit hinits hstart in
theorem tracks_of_rowGives (h : RowGives R b d columns filter column st row st')
    (hst : st.Tracks plain rs) (hfits : ∀ o ∈ row, o.Fits plain)
    (hrow : RowYields ev.Runs env d columns filter column rs (row.map (·.value)) rs') :
    st'.Tracks plain rs' := by
  have hpasses {r : Option Bool} {p : Bool} (hr : PassGives R b columns filter row r)
      (hp : PassYields ev.Runs env columns filter (row.map (·.value)) p) :
      r = some p := passes_of_passGives henv hfilter hr hfits hp
  cases h with
  | held hheld =>
    rw [hst.going, all_isKnown_of_fits hfits] at hheld
    cases hheld
  | undecided _ hr =>
    obtain hpass | ⟨hpass, _⟩ := hrow
    all_goals cases hpasses hr hpass
  | dropped _ hr =>
    obtain _ | ⟨hpass, _⟩ := hrow
    · exact ⟨hst.going, hst.held, hst.fits, hst.run⟩
    · cases hpasses hr hpass
  | tried _ hr hstep' =>
    obtain hpass | ⟨_, hstep⟩ := hrow
    · cases hpasses hr hpass
    rw [← Bindings.valuesOf_zip, ← FoldDef.map_rowElements] at hstep
    obtain ⟨st', rfl, hst'⟩ := tracks_of_stepGives henv hparts hstep' hst
      (fun o ho => hfits o (d.mem_of_mem_rowElements ho))
      (fun pair hpair => hfits _ (of_mem_zip hpair).2) hstep
    exact hst'

omit hinits hstart in
/-- **Rows of constants lead to the accumulators of a run.** -/
theorem tracks_of_rowsGive {rows : List (List Outcome)}
    (h : RowsGive R b d columns filter column st rows st') (hst : st.Tracks plain rs)
    (hfits : ∀ row ∈ rows, ∀ o ∈ row, o.Fits plain)
    (hfolds : Folds (RowYields ev.Runs env d columns filter column) rs
      (rows.map (List.map (·.value))) rs') : st'.Tracks plain rs' := by
  induction h generalizing rs with
  | nil =>
    cases hfolds
    exact hst
  | cons hrow _ ih =>
    obtain _ | ⟨hstep, hfolds⟩ := hfolds
    have hfits := forall_mem_cons.mp hfits
    exact ih (tracks_of_rowGives hparts henv hfilter hrow hst hfits.1 hstep) hfits.2 hfolds

omit hparts hinits hstart henv hfilter in
theorem ofChild_of_constants
    (hagg : Expr.allAggregate elements = true) (h : allSorted plain .scalar elements = true) :
    (∀ x ∈ elements.map ofChild, x.Fits plain) ∧
      materializeAll elements = (elements.map ofChild).map (·.value) := by
  induction elements with
  | nil => exact ⟨by simp, rfl⟩
  | cons e es ih =>
    simp only [allSorted, and_eq_true] at h
    obtain ⟨e, rfl, he⟩ := Expr.allAggregate_iff.mp hagg e mem_cons_self
    have hrest : Expr.allAggregate es = true := Expr.allAggregate_iff.mpr fun x hx =>
      Expr.allAggregate_iff.mp hagg x (mem_cons_of_mem _ hx)
    obtain ⟨hfits, hvalues⟩ := ih hrest h.2
    have hconst : ∃ v t, e = .constant v t := he.resolve_left fun he => by
      cases e with
      | range | splice =>
        simp [optionSorted, isSorted, Place.takesRange, Place.takesSplice] at h
      | _ => cases he
    obtain ⟨v, t, rfl⟩ := hconst
    have hv : v.fits plain = true := by simpa [optionSorted, isSorted] using h.1
    refine ⟨forall_mem_cons.mpr ⟨fits_constant t hv, hfits⟩, ?_⟩
    rw [materializeAll, Expr.materialize, hvalues]
    rfl

omit hparts hinits hstart henv hfilter in
/-- Where a table is granted, its elements are known and are those of a run. -/
theorem elements_of_stands (hcols : 0 ≤ cols) (hcols' : 0 < cols')
    (h : (Outcome.residual (.range rows cols elements)).Stands plain .argument
      (.one (.array rows' cols' values))) :
    rows' = rows ∧ cols' = cols ∧ values = (elements.map ofChild).map (·.value) ∧
      ∀ x ∈ elements.map ofChild, x.Fits plain := by
  have hagg : Expr.allAggregate elements = true := h.constant
  have hsorted := h.sorted
  rw [Outcome.expr, isSorted, and_eq_true] at hsorted
  obtain ⟨hshape, hsorted⟩ := hsorted
  obtain ⟨hfits, hvalues⟩ := ofChild_of_constants hagg hsorted
  have hyield := h.yield (.inl (by decide))
  simp only [Outcome.yield, Expr.materialize, Value.grid, hvalues, Yield.one.injEq] at hyield
  simp only [Place.takesRange, fitsShape, and_eq_true, beq_iff_eq] at hshape
  split at hyield
  · -- A table without rows or columns has no elements, and no column in a run.
    rename_i hempty
    have hlength : elements.length = 0 := by
      have hle : rows * cols ≤ 0 := by
        rcases hempty with hrows | hzero
        · exact Int.mul_nonpos_of_nonpos_of_nonneg hrows hcols
        · rw [Int.le_antisymm hzero hcols, Int.mul_zero]
      omega
    cases hyield
    simp only [length_map, hlength] at hcols'
    cases hcols'
  · cases hyield
    exact ⟨rfl, rfl, rfl, hfits⟩

omit hparts hinits hstart henv hfilter in
theorem rowsOf_map {β : Type} (f : α → β) (width n : Nat) (xs : List α) :
    rowsOf width n (xs.map f) = (rowsOf width n xs).map (List.map f) := by
  induction n generalizing xs with
  | zero => rfl
  | succ n ih =>
    simp only [rowsOf, length_map, ← List.map_take, ← map_drop, ih]
    split <;> rfl

/-- A fold over a table. -/
theorem stands_of_tableGives {table : Option Expr} {rebuild : FoldState → Expr → Expr}
    (ha : Child (ev.Shows plain site.origin .argument b) table a)
    (ho : TableGives R b d partialFolds node inits folded columns filter column rebuild a o)
    (hy : TableYields ev.Runs env d inits folded columns filter column table y) :
    o.Stands plain .scalar y := by
  obtain ⟨htable, hcols, hcolumn, hst, hfolds, _, hy⟩ := hy
  have hstands := stands_of_childOr fits_blank.stands ha henv htable
  cases ho with
  | sized hne =>
    -- What stands for an array is a range.
    have hyield := hstands.yield (.inl (by decide))
    have hconst := hstands.constant
    have hsorted := hstands.sorted
    cases a with
    | known v t =>
      obtain ⟨_, _, heq, hv⟩ := fits_of_isKnown hsorted rfl
      cases heq
      cases hyield
      cases Value.isArray_of_fits hv
    | residual e =>
      have hconst : e.isAggregate = true := hconst
      cases e with
      | range rows cols elements => exact absurd rfl (hne rows cols elements)
      | splice => cases hyield
      | _ => cases hconst
  | notStarted _ _ hr =>
    obtain ⟨_, heq, _⟩ := tracks_of_startGives henv hinits (hr.imp hstart) hst
    cases heq
  | folded heq hwidth _ hr _ _ hrows ho =>
    subst heq
    obtain ⟨rfl, rfl, rfl, hfits⟩ := elements_of_stands (by omega) (by omega) hstands
    obtain ⟨_, heq, hst⟩ := tracks_of_startGives henv hinits (hr.imp hstart) hst
    cases heq
    refine stands_of_completeGives henv hparts ho
      (tracks_of_rowsGive hparts henv hfilter hrows hst ?_ ?_) hy
    · intro row hrow x hx
      exact hfits x (mem_of_mem_rowsOf (mem_of_mem_take hrow) hx)
    · rw [length_map, length_map, rowsOf_map, ← List.map_take] at hfolds
      exact hfolds

end Tables

end Folds

end FormulaFold
