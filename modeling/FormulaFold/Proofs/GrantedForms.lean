import FormulaFold.Proofs.Granting

/-! # Forms of which constants are granted

For each form: if the outcomes of its children are constants that stand for what they yield, so is
the outcome of the form.  A form leaves a residual formula only after a refusal or where the run
fails.
-/
namespace FormulaFold

variable {plain : Bool} {R : Giving} {xs : List Expr} {o : Outcome} {ev : Runner}
  {b : Bindings} {site : Site} {place : Place} {os : List Outcome} {env : Env}

/-! ## Conditions -/

section Choices

variable (henv : b.Agrees plain site.origin env)
include henv

theorem stands_of_if {condition : Expr} {c : Outcome} (hf : ofName? fn = some .ifElse)
    (hc : ev.Shows plain site.origin .scalar b condition c)
    (ho : IfGives True site node (ev.Shows plain site.origin .scalar b) c es o)
    (hy : ev.Runs env (.call fn (some condition :: es) t) y) :
    o.Stands plain .scalar y := by
  obtain ⟨c', hc', p, hp, hy⟩ := (runs_if_iff hf).mp hy
  -- A condition that a run can decide is known ahead of it.
  obtain ⟨⟨v, u, rfl, _⟩, rfl⟩ := (hc env c' henv hc').fits
  have hp : v.toBool = .ok p := hp
  cases ho with
  | chosen heq hv ho =>
    cases heq
    cases hv.symm.trans hp
    exact stands_of_childOr (stands_constant _ (fits_ofInt 0)) ho henv hy
  | other heq hv ho =>
    cases heq
    cases hv.symm.trans hp
    exact stands_of_childOr (stands_constant _ (by simp [Value.fits, Value.isArray,
      Value.isSettled])) ho henv hy
  | settled hleft =>
    obtain ⟨f, hv⟩ := hleft v u rfl
    cases hv.symm.trans hp

/-! ## Conjunctions and disjunctions -/

theorem truthOf?_of_shows (hengine : site.engine = ev.engine) {x : Yield} {p : Bool}
    (ho : ev.Shows plain site.origin .argument b e o)
    (hx : ev.Runs env e x)
    (hp : ev.engine.truthOf fn x = .ok p) : site.truthOf? fn o = some p := by
  have hstands := ho env x henv hx
  rw [hstands.yield (.inl (by simp)), truthOf_yield hengine hstands.constant hstands.sorted] at hp
  rw [Site.truthOf?, if_pos hstands.constant, hp]
  rfl

/-- Where the run decides, every argument up to the decisive one is decided ahead of it. -/
theorem decided_of_undecided (hengine : site.engine = ev.engine)
    (hr : Undecided site fn decisive (ev.Shows plain site.origin .argument b) es r)
    (hy : BoolYields ev.engine fn decisive (ev.Runs env) es y) :
    r = none ∧ y = .one (.bool decisive) ∨ r = some [] ∧ y = .one (.bool !decisive) := by
  induction hr with
  | nil =>
    cases hy
    exact .inr ⟨rfl, rfl⟩
  | missing _ ih =>
    cases hy with
    | missing hy => exact ih hy
  | decided ho htruth =>
    cases hy with
    | decided => exact .inl ⟨rfl, rfl⟩
    | next hx hp =>
      cases decisive <;> cases htruth.symm.trans (truthOf?_of_shows henv hengine ho hx hp)
  | dropped ho htruth _ ih =>
    cases hy with
    | decided hx hp =>
      cases decisive <;> cases htruth.symm.trans (truthOf?_of_shows henv hengine ho hx hp)
    | next _ _ hy => exact ih hy
  | left ho htruth =>
    cases hy with
    | decided hx hp | next hx hp =>
      cases htruth.symm.trans (truthOf?_of_shows henv hengine ho hx hp)

theorem stands_of_bool (hengine : site.engine = ev.engine)
    (hr : Undecided site fn decisive
      (ev.Shows plain site.origin .argument b) (trimmed es) r)
    (ho : BoolGives fn t decisive r o)
    (hy : BoolYields ev.engine fn decisive (ev.Runs env) es y) :
    o.Stands plain .scalar y := by
  have hbool (p : Bool) (u : DataType) : (Outcome.constant (.bool p) u).Stands plain .scalar
      (.one (.bool p)) := stands_constant u (by simp [Value.fits, Value.isArray, Value.isSettled])
  rcases decided_of_undecided henv hengine hr (boolYields_trimmed hy) with ⟨rfl, rfl⟩ | ⟨rfl, rfl⟩
  all_goals
    cases ho
    exact hbool _ _

/-! ## `INDEX` -/

end Choices

/-- The element that is selected ahead of the run stands for the value that the run selects. -/
theorem stands_of_selected (hprecision : ev.engine.precision ≤ 0)
    (ho : Child (ev.Shows true site.origin .scalar b) element o)
    (henv : b.Agrees true site.origin env) (hy : ChildYields (ev.Runs env) element y) :
    o.Stands true .scalar (.one (ev.engine.adjust y.single)) := by
  have hstands := stands_of_childOr fits_blank.stands ho henv hy
  obtain ⟨⟨u, t, rfl, hu⟩, rfl⟩ := hstands.fits
  have hadjust : ev.engine.adjust u = u :=
    Engine.adjust_of_isSettled hprecision (Value.isSettled_of_fits hu)
  rw [show ((Outcome.known u t).yield).single = u from rfl, hadjust]
  exact hstands

section Index

variable (hengine : site.engine = ev.engine) (hprecision : plain = true → ev.engine.precision ≤ 0)
  (hf : ofName? fn = some .index) (henv : b.Agrees plain site.origin env)
  (hy : ComputedYields ev.engine (ev.Runs env) (ev.engine.call fn) es y)
include hprecision hf henv hy

include hengine in
/-- What is computed from the arguments of `INDEX`. -/
theorem stands_of_index
    (hos : Forall₂ (Child (ev.Shows plain site.origin .argument b)) (trimmed es) os)
    (ho : Settles True site node (site.engine.call Builtin.index.name) os o) :
    o.Stands plain .scalar y := by
  have hcall : site.engine.call Builtin.index.name = ev.engine.call fn := by
    rw [hengine]
    exact funext (call_eq_of_ofName? hf)
  rw [hcall] at ho
  exact stands_of_computes hengine (fun vs v hvs hv => fits_of_call hprecision (by rw [hf]; simp)
    hvs hv) hos ho.exists_computed henv hy

theorem stands_of_one (hplain : plain = true)
    (hes : trimmed es = [some (.range rows cols elements), some first])
    (hi : ev.Shows plain site.origin .argument b first i) (hk : indexOf? i = some k)
    (hlow : 1 ≤ k) (helement : elements[(k - 1).toNat]? = some element)
    (ho : Child (ev.Shows plain site.origin .scalar b) element o) :
    o.Stands plain .scalar y := by
  subst hplain
  obtain ⟨u, _, rfl⟩ := exists_known_of_indexOf? hk
  obtain ⟨z, hz, rfl⟩ := exists_selected_one hf (fun z hz => (hi env z henv hz).yield (.inr rfl)) hk
    hy hes hlow helement
  exact stands_of_selected (hprecision rfl) ho henv hz

theorem stands_of_two (hplain : plain = true)
    (hes : trimmed es = [some (.range rows cols elements), some first, some second]) {j : Outcome}
    {l : Int} (hi : ev.Shows plain site.origin .argument b first i)
    (hk : indexOf? i = some k) (hj : ev.Shows plain site.origin .argument b second j)
    (hl : indexOf? j = some l) (hrow : 1 ≤ k ∧ k ≤ rows) (hcol : 1 ≤ l ∧ l ≤ cols)
    (helement : elements[(wrap ((k - 1) * cols + (l - 1))).toNat]? = some element)
    (ho : Child (ev.Shows plain site.origin .scalar b) element o) :
    o.Stands plain .scalar y := by
  subst hplain
  obtain ⟨u, _, rfl⟩ := exists_known_of_indexOf? hk
  obtain ⟨u', _, rfl⟩ := exists_known_of_indexOf? hl
  obtain ⟨z, hz, rfl⟩ := exists_selected_two hf (fun z hz => (hi env z henv hz).yield (.inr rfl)) hk
    hy hes (fun z hz => (hj env z henv hz).yield (.inr rfl)) hl hrow hcol helement
  exact stands_of_selected (hprecision rfl) ho henv hz

include hengine in
/-- A written range is looked into only where all values are settled. -/
theorem stands_of_selection
    (hargs : ∀ x o, some x ∈ es → R x o → ev.Shows plain site.origin .argument b x o)
    (hrange : ∀ rows cols elements rest, es = some (.range rows cols elements) :: rest →
      plain = true ∧
      ∀ x o, some x ∈ elements → R x o → ev.Shows plain site.origin .scalar b x o)
    (ho : IndexGives True site node R es o) : o.Stands plain .scalar y := by
  have hmem {x : Expr} {rest : Children} (hes : trimmed es = rest) (hx : some x ∈ rest) :
      some x ∈ es := mem_of_mem_trimmed (hes ▸ hx)
  cases ho with
  | one hes hi hk _ hlow helement ho =>
    obtain ⟨rest, heq, _⟩ := exists_of_trimmed_eq_cons hes
    obtain ⟨hplain, hshows⟩ := hrange _ _ _ rest heq
    refine stands_of_one hprecision hf henv hy hplain hes (hargs _ _ (hmem hes (by simp)) hi) hk
      hlow helement (ho.imp fun x hx => hshows x _ ?_)
    exact mem_of_getElem? (hx ▸ helement)
  | two hes hi hk hj hl hrow hcol _ helement ho =>
    obtain ⟨rest, heq, _⟩ := exists_of_trimmed_eq_cons hes
    obtain ⟨hplain, hshows⟩ := hrange _ _ _ rest heq
    refine stands_of_two hprecision hf henv hy hplain hes (hargs _ _ (hmem hes (by simp)) hi) hk
      (hargs _ _ (hmem hes (by simp)) hj) hl hrow hcol helement (ho.imp fun x hx => hshows x _ ?_)
    exact mem_of_getElem? (hx ▸ helement)
  | settled hos _ _ ho =>
    refine stands_of_index hengine hprecision hf henv hy ?_ ho
    exact forall₂_child_imp (fun x o hx => hargs x o (mem_of_mem_trimmed hx)) hos

end Index

/-! ## Joined texts and positions -/

/-- Constants are joined in a walk that refuses nothing. -/
theorem exists_concatenated (hconst : ∀ o ∈ os, o.isConstant = true)
    (hkept : site.kept? node (site.engine.call Builtin.concatenate.name (Outcome.values os)) ≠
      none) : ∃ v u, site.engine.call Builtin.concatenate.name (Outcome.values os) = .ok v ∧
        site.concatenated node fn t os = .known (site.engine.adjust v) u := by
  obtain ⟨k, hk⟩ := Option.ne_none_iff_exists'.mp hkept
  obtain ⟨v, hv, rfl⟩ := exists_of_kept? hk
  suffices hjoined : ∃ u, site.concatenated node fn t os = .known (site.engine.adjust v) u from
    ⟨v, hjoined.choose, hv, hjoined.choose_spec⟩
  unfold Site.concatenated
  split
  · rename_i hempty
    obtain rfl := isEmpty_iff.mp hempty
    exact ⟨_, congrArg (Option.getD · (.ofExpr node)) hk⟩
  · rename_i hempty
    have hworth : worthJoining (os.length == 1) os = true := by
      rcases os with _ | ⟨o, _ | ⟨o', rest⟩⟩
      · exact absurd rfl hempty
      · rfl
      · rfl
    rw [merged_of_isConstant hconst, nil_append, Site.flushed, if_pos hworth, hk]
    simp only [all_eq_true.mpr hconst, Bool.and_self]
    exact ⟨_, rfl⟩

theorem stands_of_position (hengine : site.engine = ev.engine)
    (hprecision : ev.engine.precision ≤ 0) {position : Address → Int}
    (ho : PositionGives True site R fn position es t o) (henv : b.Agrees plain site.origin env)
    (hy : PositionYields ev.engine (ev.Runs env) env fn position es y) :
    o.Stands plain .scalar y := by
  cases ho with
  | known ha ho =>
    obtain ⟨v, hv, rfl⟩ := exists_of_kept? ho
    cases hv
    rw [PositionYields, positionCell?_of_positionCell henv.origin ha] at hy
    subst hy
    rw [Site.keep, hengine, Engine.adjust_of_isSettled hprecision (Engine.isSettled_ofInt _)]
    exact stands_constant _ (fits_ofInt _)
  | left _ _ _ hloud => exact absurd trivial hloud

/-! ## Ranges and splices -/

theorem keepMissing_map_some (h : xs.length = os.length) :
    keepMissing (xs.map some) os = os.map fun o => some o.expr := by
  induction xs generalizing os with
  | nil =>
    rw [length_eq_zero_iff.mp h.symm]
    rfl
  | cons x xs ih =>
    cases os with
    | nil => cases h
    | cons o os => rw [map_cons, keepMissing, ih (Nat.succ.inj h)]; rfl

theorem allAggregate_map_expr (h : ∀ o ∈ os, o.isConstant = true) :
    Expr.allAggregate (os.map fun o => some o.expr) = true := by
  induction os with
  | nil => rfl
  | cons o os ih =>
    have h := forall_mem_cons.mp h
    have hrest := ih h.2
    cases o with
    | known v t => simpa [Outcome.expr, Expr.allAggregate] using hrest
    | residual e =>
      have he : e.isAggregate = true := h.1
      cases e with
      | range | splice =>
        rw [map_cons, show ∀ e, (Outcome.residual e).expr = e from fun _ => rfl,
          Expr.allAggregate, he, hrest]
        · rfl
        · simp
      | _ => cases he

theorem allSorted_map_expr (h : ∀ o ∈ os, o.expr.isSorted plain place = true) :
    allSorted plain place (os.map fun o => some o.expr) = true := by
  refine allSorted_iff.mpr fun x hx => ?_
  obtain ⟨o, ho, heq⟩ := mem_map.mp hx
  cases heq
  exact h o ho

theorem Outcome.map_value_flatten_expr (o : Outcome) :
    o.expr.flatten.map (·.value) = o.flatten.map (·.value) := by
  cases o with
  | known v t => simp [Outcome.expr, Outcome.flatten, Expr.flatten, ofExpr,
      Outcome.constant, Outcome.value]
  | residual e => rfl

theorem map_value_flattenChildren :
    (flattenChildren (os.map fun o => some o.expr)).map (·.value) =
      os.flatMap fun o => o.flatten.map (·.value) := by
  induction os with
  | nil => rfl
  | cons o os ih =>
    rw [map_cons, flattenChildren, map_append, ih, o.map_value_flatten_expr,
      flatMap_cons]

theorem leaves_of_stands (h : Forall₂ (Outcome.Stands plain place) os ys) :
    ys.flatMap Yield.leaves = os.flatMap fun o => o.flatten.map (·.value) := by
  induction h with
  | nil => rfl
  | cons ho _ ih => rw [flatMap_cons, flatMap_cons, ih, ho.leaves]

/-- The outcomes of the elements yield what the elements yield. -/
theorem runs_of_stands (hplace : place ≠ .element)
    (h : Forall₂ (Outcome.Stands plain place) os ys) :
    Forall₂ (ChildYields (ev.Runs env)) (os.map fun o => some o.expr) ys := by
  rw [forall₂_map_left_iff]
  refine h.imp fun o y ho => ?_
  exact (runs_of_isConstant ho.constant (Expr.isSorted_argument hplace ho.sorted)).mpr
    (ho.yield (.inl hplace))

/-- A range or a splice of constants stands for what it yields itself. -/
theorem stands_aggregate (hagg : e.isAggregate = true) (hsorted : e.isSorted plain place = true)
    (hruns : place ≠ .element → ev.Runs env e y)
    (hleaves : y.leaves = e.flatten.map (·.value)) : (ofExpr e).Stands plain place y := by
  have hresidual : ofExpr e = .residual e := by
    cases e with
    | constant => cases hagg
    | _ => rfl
  rw [hresidual]
  refine ⟨hagg, hsorted, fun hplace => ?_, hleaves⟩
  have hplace : place ≠ .element := hplace.resolve_right Bool.false_ne_true
  exact (runs_of_isConstant (o := .residual e) hagg (Expr.isSorted_argument hplace hsorted)).mp
    (hruns hplace)

section Parts

variable (henv : b.Agrees plain site.origin env)
include henv

theorem stands_of_range {rows cols : Int} (htakes : place.takesRange rows cols xs.length = true)
    (hos : Forall₂ (Child (ev.Shows plain site.origin place.inRange b))
      (trimmed (xs.map some)) os)
    (ho : Rebuilt (.range rows cols (xs.map some)) os o)
    (hy : ev.Runs env (.range rows cols (xs.map some)) y) : o.Stands plain place y := by
  obtain ⟨e, he, rfl⟩ := ho
  rw [trimmed_map_some] at hos
  have hlength : xs.length = os.length := by simpa using hos.length_eq
  have he : (Expr.range rows cols (xs.map some)).withChildren
      (keepMissing (xs.map some) os) = .ok e := he
  rw [keepMissing_map_some hlength, withChildren_range, length_map, ← hlength] at he
  cases he
  obtain ⟨ys, hys, rfl⟩ := runs_range.mp hy
  have hstands := stands_of_children hos henv hys
  have hconst := isConstant_of_stands hstands
  -- The shape is kept where a range has to fit its shape.
  have hshape (hplace : place ≠ .element) : rangeShape rows cols xs.length = (rows, cols) := by
    cases place with
    | element => exact absurd rfl hplace
    | scalar => cases htakes
    | _ => exact rangeShape_of_fitsShape htakes
  have hfits : place.takesRange (rangeShape rows cols xs.length).1
      (rangeShape rows cols xs.length).2 xs.length = true := by
    by_cases hplace : place = .element
    · rw [hplace]
      rfl
    · rw [hshape hplace]
      exact htakes
  have hruns (hplace : place ≠ .element) : ev.Runs env
      (.range (rangeShape rows cols xs.length).1 (rangeShape rows cols xs.length).2
        (os.map fun o => some o.expr)) (.one (.grid rows cols (ys.map Yield.single))) := by
    rw [hshape hplace]
    refine runs_range.mpr ⟨ys, runs_of_stands ?_ hstands, rfl⟩
    cases place with
    | element => exact absurd rfl hplace
    | _ => decide
  refine stands_aggregate (allAggregate_map_expr fun o ho => (hconst o ho).1) ?_ hruns ?_
  · rw [isSorted, allSorted_map_expr fun o ho => (hconst o ho).2, length_map, ← hlength,
      hfits]
    rfl
  · simp only [Yield.leaves, Yield.items, leavesOf, leaves_grid, leavesOf_map_single,
      append_nil, Expr.flatten]
    rw [leaves_of_stands hstands, ← map_value_flattenChildren]

theorem stands_of_splice (htakes : place.takesSplice = true)
    (hos : Forall₂ (Child (ev.Shows plain site.origin place.inSplice b))
      (trimmed (xs.map some)) os)
    (ho : Rebuilt (.splice (xs.map some)) os o)
    (hy : ev.Runs env (.splice (xs.map some)) y) : o.Stands plain place y := by
  obtain ⟨e, he, rfl⟩ := ho
  rw [trimmed_map_some] at hos
  have hlength : xs.length = os.length := by simpa using hos.length_eq
  have he : (Expr.splice (xs.map some)).withChildren (keepMissing (xs.map some) os) = .ok e := he
  rw [keepMissing_map_some hlength] at he
  cases he
  obtain ⟨ys, hys, rfl⟩ := runs_splice.mp hy
  have hstands := stands_of_children hos henv hys
  have hconst := isConstant_of_stands hstands
  have hruns (hplace : place ≠ .element) : ev.Runs env
      (.splice (os.map fun o => some o.expr)) (.many (ys.flatMap Yield.items)) := by
    refine runs_splice.mpr ⟨ys, runs_of_stands ?_ hstands, rfl⟩
    cases place with
    | element => exact absurd rfl hplace
    | _ => decide
  refine stands_aggregate (allAggregate_map_expr fun o ho => (hconst o ho).1) ?_ hruns ?_
  · rw [isSorted, allSorted_map_expr fun o ho => (hconst o ho).2, htakes]
    rfl
  · rw [Yield.leaves, Yield.items, leavesOf_flatMap_items, leaves_of_stands hstands,
      ← map_value_flattenChildren, Expr.flatten]

/-! ## Names, switches, sections and counts -/

theorem stands_of_letIn (hv : ev.Shows plain site.origin .scalar b x v)
    (hr : ev.Shows plain site.origin .scalar
      (b.push name (if v.isConstant then some v else none)) z r)
    (ho : LetGives name v r o)
    (hy : ev.Runs env (.letIn name (some x) (some z)) y) : o.Stands plain .scalar y := by
  obtain ⟨u, hu, hy⟩ := runs_letIn_iff.mp hy
  have hvalue := hv env u henv hu
  rw [hvalue.constant, if_pos rfl] at hr
  rw [hvalue.fits.2] at hy
  have hstands := hr _ y (henv.push name hvalue.fits.1) hy
  cases ho with
  | known => exact hstands
  | left =>
    obtain ⟨_, _, heq, _⟩ := hstands.fits.1
    cases heq

theorem stands_of_name (ho : b.lookup name = .ok (some o))
    (hy : ev.Runs env (.letVar name t) y) : o.Stands plain .scalar y := by
  have hfind : env.find? name = some y := by
    rw [runs_iff] at hy
    cases hy
    assumption
  have hname : name ≠ "" := by
    rintro rfl
    simp [Env.find?] at hfind
  cases hfind.symm.trans (henv.names.named name o hname ho)
  exact (henv.fits name o ho).stands

theorem stands_of_switch (hx : ev.Shows plain site.origin .scalar b x (.known v u))
    (ho : Child (ev.Shows plain site.origin .scalar b)
      (chosenBranch cases otherwise (v.toInt leastWord)) o)
    (hy : ev.Runs env (.switch (some x) cases otherwise t) y) :
    o.Stands plain .scalar y := by
  obtain ⟨k, hk, hy⟩ := runs_switch_iff.mp hy
  rw [(hx env k henv hk).fits.2] at hy
  exact stands_of_childOr fits_blank.stands ho henv hy

theorem stands_of_parentSection
    (hr : ev.Shows plain site.origin .scalar b x r) (ho : ParentGives node r o)
    (hy : ev.Runs env (.parentSection s (some x)) y) : o.Stands plain .scalar y := by
  have hstands := hr _ y henv.outerRow (runs_parentSection_iff.mp hy)
  cases ho with
  | known => exact hstands
  | left =>
    obtain ⟨_, _, heq, _⟩ := hstands.fits.1
    cases heq

end Parts

theorem Expr.anySubSection_iff :
    Expr.anySubSection es = false ↔ ∀ x, some x ∈ es → x.hasSubSection = false := by
  induction es with
  | nil => simp [Expr.anySubSection]
  | cons e es ih =>
    cases e with
    | none => simp [Expr.anySubSection, Expr.optionSubSection, ih]
    | some e => simp [Expr.anySubSection, Expr.optionSubSection, ih]

theorem Expr.any_countItemsAll (hes : ∀ x, some x ∈ es →
      x.countItems.any (·.any isSubSection) = x.hasSubSection) :
    (countItemsAll es).any (·.any isSubSection) = anySubSection es := by
  induction es with
  | nil => rfl
  | cons e es ih =>
    have ih := ih fun x hx => hes x (mem_cons_of_mem _ hx)
    cases e with
    | none => simpa [countItemsAll, anySubSection, optionSubSection] using ih
    | some e => rw [countItemsAll, List.any_append, ih, hes e mem_cons_self]; rfl

/-- A count would have to look into the sub-sections among the formulas that are counted. -/
theorem Expr.any_countItems (e : Expr) :
    e.countItems.any (·.any isSubSection) = e.hasSubSection := by
  induction e using induction_on_parts with
  | step e ih =>
    cases e with
    | range _ _ elements | splice elements =>
      exact any_countItemsAll fun x hx => ih x (.part (by simpa [parts] using hx))
    | parentSection s inner =>
      cases inner with
      | none => rfl
      | some inner => exact ih inner (.part (by simp [parts]))
    | _ => rfl

/-- Without sub-sections nothing that is counted is one. -/
theorem sectionsIn_eq_nil (h : Expr.anySubSection es = false) :
    sectionsIn (countItemsOf es) = [] := by
  refine filter_eq_nil_iff.mpr fun x hx => ?_
  obtain ⟨e, he, hx⟩ := mem_flatMap.mp (mem_present.mp hx)
  have he := Expr.anySubSection_iff.mp h e (mem_present.mp he)
  rw [← e.any_countItems, List.any_eq_false] at he
  exact he _ hx

theorem stands_of_count (h : Expr.anySubSection es = false)
    (ho : CountGives static es o) (hy : ev.Runs env (.count static es) y) :
    o.Stands plain .scalar y := by
  have htrimmed : Expr.anySubSection (trimmed es) = false :=
    Expr.anySubSection_iff.mpr fun x hx => Expr.anySubSection_iff.mp h x (mem_of_mem_trimmed hx)
  cases ho with
  | known hn =>
    have hcount : wrap (Expr.countRunArgs ev.inputs (trimmed es)) = wrap (_ + 0) :=
      countedAs_of_countArgs hn
    rw [runs_count_iff.mp hy, wrap_add_congr (a := static) rfl hcount, Int.add_zero]
    exact stands_constant _ (fits_ofInt _)
  | left hn hsections =>
    obtain ⟨_, _, rfl⟩ := sectionsIn_of_countArgs hn
    exact absurd (sectionsIn_eq_nil htrimmed) hsections

end FormulaFold
