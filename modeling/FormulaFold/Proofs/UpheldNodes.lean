import FormulaFold.Proofs.SettledRuns
import FormulaFold.Proofs.UpheldTables

/-! # Nodes that are upheld

For each kind of node: if the outcomes of its parts are upheld, so is its own.  A part is run in the
environment of its node, in one where a name is bound, or in one that enters or leaves a section
row; the walk and the run meet in each of these.
-/
namespace FormulaFold

variable {t : DataType} {e x : Expr} {cols rows : Int} {s : Option String} {y : Yield}

/-- What a run has in common with a walk at a site.  Where failures are not kept, nothing is
rounded, for `INDEX`, `ROW` and `COLUMN` pass on values that a run would round again. -/
structure Evaluator.Serves (ev : Evaluator) (strict : Prop) (plain : Bool)
    (site : Site) : Prop where
  engine : site.engine = ev.engine
  book : site.book = ev.book
  precision : strict ∧ plain = false ∨ ev.engine.precision ≤ 0
  acyclic : strict → ev.book.Acyclic
  sorted : ev.book.Sorted plain
  inputs : ev.inputs.Fits plain ev.book

namespace Evaluator.Serves

variable {ev : Evaluator} {strict : Prop} {plain : Bool} {site : Site}
  (h : ev.Serves strict plain site)
include h

theorem precision_of_not_strict (hstrict : ¬strict) : ev.engine.precision ≤ 0 :=
  h.precision.resolve_left fun hs => hstrict hs.1

theorem precision_of_plain (hplain : plain = true) : ev.engine.precision ≤ 0 :=
  h.precision.resolve_left fun hs => by simp [hs.2] at hplain

/-- The values of a formula that stands for single values are settled where all values are plain. -/
theorem exists_one_of_runs (hplain : plain = true) {env : Env} (henv : env.Fits plain ev.book)
    (hsorted : e.isSorted plain .scalar = true)
    (hy : ev.Runs n visited env e y) : ∃ v, y = .one v ∧ v.isSettled = true := by
  subst hplain
  exact (settled_of_runs (h.precision_of_plain rfl) h.sorted h.inputs n visited env e .scalar y
    henv hsorted hy).exists_one

end Evaluator.Serves

variable {strict : Prop} {plain : Bool} {ev : Runner} {site : Site}
  {env : Env} {origin : Option Address} {b : Bindings} {o : Outcome}

theorem Runner.Admits.part {e : Expr} (h : ev.Admits strict plain e) {p : Expr}
    (hp : p ∈ e.parts) : ev.Admits strict plain p := h.inside (.part hp)

/-! ## Children -/

section Children

variable {es : Children} {os : List Outcome} (hmeets : ev.Meets strict plain origin b env)
  (hadmits : ∀ x, some x ∈ es → ev.Admits strict plain x)
include hmeets hadmits

theorem upheldAs_of_sound (hsorted : allSorted plain place es = true) (hplace : place ≠ .element)
    (h : Forall₂ (Child (ev.Sound strict plain origin b)) es os) :
    Forall₂ (Child (ev.UpheldAs strict plain place env)) es os :=
  forall₂_child_imp (fun e _ he h =>
    h.upheldAs hmeets (hadmits e he) (allSorted_iff.mp hsorted e he) hplace) h

theorem upheldLeaves_of_sound (hsorted : allSorted plain .element es = true)
    (h : Forall₂ (Child (ev.Sound strict plain origin b)) es os) :
    Forall₂ (Child (ev.UpheldLeaves strict env)) es os :=
  forall₂_child_imp (fun e _ he h =>
    h.leaves env hmeets (hadmits e he) (allSorted_iff.mp hsorted e he)) h

theorem upheldAs_of_sound_trimmed (hsorted : allSorted plain place es = true)
    (hplace : place ≠ .element)
    (h : Forall₂ (Child (ev.Sound strict plain origin b)) (trimmed es) os) :
    Forall₂ (Child (ev.UpheldAs strict plain place env)) (trimmed es) os :=
  upheldAs_of_sound hmeets (fun x hx => hadmits x (mem_of_mem_trimmed hx))
    (allSorted_trimmed hsorted) hplace h

omit hmeets hadmits in
theorem isSorted_of_sound (hb : b.Fits plain) (hsorted : allSorted plain place es = true)
    (h : Forall₂ (Child (ev.Sound strict plain origin b)) es os) :
    ∀ o ∈ os, o.expr.isSorted plain place = true :=
  isSorted_of_forall₂ hb hsorted (forall₂_child_imp (fun _ _ _ h => h.sorted) h)

end Children

/-! ## Operators and calls -/

section Imp

variable {quiet : Prop} {R S : Giving} {es : Children}

theorem IfGives.imp (hRS : ∀ e o, some e ∈ es → R e o → S e o)
    (h : IfGives quiet site node R c es o) : IfGives quiet site node S c es o := by
  cases h with
  | chosen hc hv ho =>
    exact .chosen hc hv (ho.imp fun x hx => hRS x _ (mem_of_getElem?_join hx))
  | other hc hv ho =>
    exact .other hc hv (ho.imp fun x hx => hRS x _ (mem_of_getElem?_join hx))
  | settled hc hos ho =>
    exact .settled hc (forall₂_child_imp (fun x o hx => hRS x o (mem_of_mem_trimmed hx)) hos) ho

theorem Undecided.imp
    (hRS : ∀ e o, some e ∈ es → R e o → S e o) (h : Undecided site fn decisive R es r) :
    Undecided site fn decisive S es r := by
  induction h with
  | nil => exact .nil
  | missing _ ih => exact .missing (ih fun e o he => hRS e o (mem_cons_of_mem _ he))
  | decided ho htruth => exact .decided (hRS _ _ mem_cons_self ho) htruth
  | dropped ho htruth _ ih =>
    exact .dropped (hRS _ _ mem_cons_self ho) htruth
      (ih fun e o he => hRS e o (mem_cons_of_mem _ he))
  | left ho htruth _ ih =>
    exact .left (hRS _ _ mem_cons_self ho) htruth
      (ih fun e o he => hRS e o (mem_cons_of_mem _ he))

theorem IndexGives.imp (hRS : ∀ e o, some e ∈ es → R e o → S e o)
    (helements : ∀ rows cols elements, some (.range rows cols elements) ∈ es →
      ∀ e o, some e ∈ elements → R e o → S e o)
    (h : IndexGives quiet site node R es o) : IndexGives quiet site node S es o := by
  have hmem {e : Expr} {rest : Children} (hes : trimmed es = rest) (he : some e ∈ rest) :
      some e ∈ es := mem_of_mem_trimmed (hes ▸ he)
  cases h with
  | one hes hi hk hshape hlow helement ho =>
    refine .one hes (hRS _ _ (hmem hes (by simp)) hi) hk hshape hlow helement (ho.imp ?_)
    rintro x rfl
    exact helements _ _ _ (hmem hes mem_cons_self) x _ (mem_of_getElem? helement)
  | two hes hi hk hj hl hrow hcol hplace helement ho =>
    refine .two hes (hRS _ _ (hmem hes (by simp)) hi) hk (hRS _ _ (hmem hes (by simp)) hj) hl
      hrow hcol hplace helement (ho.imp ?_)
    rintro x rfl
    exact helements _ _ _ (hmem hes mem_cons_self) x _ (mem_of_getElem? helement)
  | settled hos hone htwo ho =>
    exact .settled (forall₂_child_imp (fun x o hx => hRS x o (mem_of_mem_trimmed hx)) hos) hone
      htwo ho

theorem CallGives.imp (hRS : ∀ e o, some e ∈ args → R e o → S e o)
    (helements : ∀ rows cols elements, some (.range rows cols elements) ∈ args →
      ∀ e o, some e ∈ elements → R e o → S e o)
    (h : CallGives quiet site R fn args t o f) : CallGives quiet site S fn args t o f := by
  have htrimmed {e : Expr} (o : Outcome) (he : some e ∈ trimmed args) : R e o → S e o :=
    hRS e o (mem_of_mem_trimmed he)
  have hposition {position : Address → Int} (h : PositionGives quiet site R fn position args t o) :
      PositionGives quiet site S fn position args t o := by
    cases h with
    | known ha ho => exact .known ha ho
    | left ha hos ho hloud => exact .left ha (forall₂_child_imp (fun _ => htrimmed) hos) ho hloud
  unfold CallGives at h ⊢
  split at h
  · rcases h with ⟨condition, branches, c, rfl, hc, ho⟩ | ⟨hargs, os, hos, ho⟩
    · exact .inl ⟨condition, branches, c, rfl, hRS _ _ mem_cons_self hc,
        ho.imp fun e o he => hRS e o (mem_cons_of_mem _ he)⟩
    · exact .inr ⟨hargs, os, forall₂_child_imp (fun _ => htrimmed) hos, ho⟩
  · obtain ⟨r, hr, ho⟩ := h
    exact ⟨r, hr.imp fun _ => htrimmed, ho⟩
  · obtain ⟨r, hr, ho⟩ := h
    exact ⟨r, hr.imp fun _ => htrimmed, ho⟩
  · exact h.imp hRS helements
  · obtain ⟨os, hos, ho⟩ := h
    exact ⟨os, forall₂_child_imp (fun _ => htrimmed) hos, ho⟩
  · exact hposition h
  · exact hposition h
  · obtain ⟨os, hos, ho⟩ := h
    exact ⟨os, forall₂_child_imp (fun _ => htrimmed) hos, ho⟩

end Imp

section Calls

variable (hserves : ev.Serves strict plain site) (hmeets : ev.Meets strict plain site.origin b env)
  {args : Children}
include hserves hmeets

theorem upholds_operator {op : Op} {os : List Outcome}
    (hadmits : ev.Admits strict plain (.operator op args t))
    (hsorted : allSorted plain .argument args = true)
    (hos : Forall₂ (Child (ev.Sound strict plain site.origin b)) (trimmed args) os)
    (h : Settles False site (.operator op args t) op.compute os o) :
    ev.Upheld strict env (.operator op args t) o := by
  have hnode (args : Children) (y : Yield) :
      ev.Runs env (.operator op args t) y ↔
        ComputedYields ev.engine (ev.Runs env) op.compute args y := by
    rw [runs_iff]
    exact ⟨fun h => by cases h; assumption, .operator⟩
  have hos := upheldAs_of_sound_trimmed hmeets
    (fun x hx => hadmits.part (by simpa [parts] using hx)) hsorted (by simp) hos
  refine upholds_settles hserves.engine (fun _ _ hv => hv) (hnode args) (fun e he y => ?_)
    (upheld_of_upheldAs hos) (isSorted_of_upheldAs hos) h
  cases he
  exact hnode _ y

/-- The elements of a written range that `INDEX` selects from are settled, or there is none. -/
theorem settledElements_of_serves (hstrict : ¬strict) (hf : ofName? fn = some .index)
    (hsuits : (Expr.call fn args t).Suits strict plain)
    (hsorted : allSorted plain .argument args = true) {elements : Children}
    (hrange : some (.range rows cols elements) ∈ args.head?) :
    ev.SettledElements ev.depth ev.visited env elements := by
  obtain ⟨rest, rfl⟩ : ∃ rest, args = some (.range rows cols elements) :: rest := by
    cases args with
    | nil => cases hrange
    | cons x rest => exact ⟨rest, by simpa using hrange⟩
  cases hplain : plain with
  | false =>
    have := hsuits.ranges hplain
    simp [Expr.indexesRange, hf] at this
  | true =>
    simp only [allSorted, optionSorted, isSorted, and_eq_true, allSorted_iff] at hsorted
    intro x hx y hy
    obtain ⟨v, rfl, hv⟩ := hserves.exists_one_of_runs hplain hmeets.around (hsorted.1.2 x hx) hy
    exact ⟨v, rfl, Engine.adjust_of_isSettled (hserves.precision_of_not_strict hstrict) hv⟩

omit hserves hmeets in
/-- `AND`, `OR`, `INDEX`, `ROW` and `COLUMN` stand only where failures need not be kept. -/
theorem not_strict_of_suits (hf : ofName? fn = some f)
    (hmem : f ∈ [.and, .or, .index, .row, .column])
    (hsuits : (Expr.call fn args t).Suits strict plain) : ¬strict := by
  intro hs
  have hkeeps := hsuits.failures hs
  simp only [Expr.keepsFailures, hf, Bool.not_eq_true', List.contains_eq_mem,
    decide_eq_false_iff_not] at hkeeps
  exact hkeeps (by simpa using hmem)

omit hserves hmeets in
theorem call_position_fails {engine : Engine} {f : Builtin} (hf : ofName? fn = some f)
    (hmem : f = .row ∨ f = .column) (vs : List Value) (v : Value) : engine.call fn vs ≠ .ok v := by
  rcases hmem with rfl | rfl
  all_goals simp [Engine.call, hf, Builtin.compute]

omit hserves in
theorem upheldAs_of_callGives (hadmits : ev.Admits strict plain (.call fn args t))
    (hargs : allSorted plain (argumentPlace f) args = true)
    (h : CallGives False site (ev.Sound strict plain site.origin b) fn args t o f) :
    CallGives False site (ev.UpheldAs strict plain (argumentPlace f) env) fn args t o
      f := by
  have hplace : argumentPlace f ≠ .element := by
    unfold argumentPlace
    split <;> simp
  have hpart {x : Expr} (hx : some x ∈ args) : ev.Admits strict plain x :=
    hadmits.part (by simpa [parts] using hx)
  refine h.imp (fun x o hx h => ?_) (fun rows cols elements hrange x o hx h => ?_)
  · exact h.upheldAs hmeets (hpart hx) (allSorted_iff.mp hargs x hx) hplace
  · have hsorted := allSorted_iff.mp hargs _ hrange
    rw [isSorted, and_eq_true] at hsorted
    have hx' : x.isSorted plain .scalar = true := by
      generalize argumentPlace f = place at hplace hsorted
      cases place with
      | element => exact absurd rfl hplace
      | _ => exact allSorted_iff.mp hsorted.2 x hx
    have hx := h.upheldAs hmeets ((hpart hrange).part (by simpa [parts] using hx)) hx' (by simp)
    exact ⟨hx.1, Expr.isSorted_of_scalar hx.2 _⟩

/-- **A call is upheld.** -/
theorem upholds_callGives (hadmits : ev.Admits strict plain (.call fn args t))
    (hsorted : (Expr.call fn args t).isSorted plain .argument = true)
    (h : CallGives False site (ev.Sound strict plain site.origin b) fn args t o
      (ofName? fn)) : ev.Upheld strict env (.call fn args t) o := by
  rw [isSorted, and_eq_true] at hsorted
  obtain ⟨hfits, hargs⟩ := hsorted
  replace h := upheldAs_of_callGives hmeets hadmits hargs h
  generalize hf : ofName? fn = f at h hfits hargs
  have hnode (args : Children) (y : Yield) : ev.Runs env (.call fn args t) y ↔
      CallYields ev.engine (ev.Runs env) env fn args y f := by
    rw [runs_call_iff, hf]
  have hstrict {g : Builtin} (hg : f = some g) (hmem : g ∈ [.and, .or, .index, .row, .column]) :
      ¬strict := not_strict_of_suits (hf.trans hg) hmem hadmits.suits
  have hposition (hstrict : ¬strict) (k : Int) : ev.engine.Leaves (.number (Float.ofInt k)) :=
    Engine.adjust_of_isSettled (hserves.precision_of_not_strict hstrict) (Engine.isSettled_ofInt k)
  have hword (a : Address) (ha : some (.cell a) ∈ args) : a.isWord = true := by
    have hcell := allSorted_iff.mp hargs _ ha
    rwa [isSorted] at hcell
  unfold CallGives at h
  split at h
  · rcases h with ⟨condition, branches, c, rfl, hc, ho⟩ | ⟨hnone, _⟩
    · exact upholds_if hf hc.1 hc.2 (ho.imp fun _ _ _ h => h.1)
    · obtain ⟨condition, branches, rfl⟩ := exists_condition_of_fitsCall hfits
      exact absurd rfl (hnone condition branches)
  · obtain ⟨r, hr, ho⟩ := h
    exact upholds_bool (hstrict rfl (by simp)) (.inl hf) hserves.engine hnode
      (hr.imp fun _ _ _ h => h.1) ho
  · obtain ⟨r, hr, ho⟩ := h
    exact upholds_bool (hstrict rfl (by simp)) (.inr hf) hserves.engine hnode
      (hr.imp fun _ _ _ h => h.1) ho
  · have hstrict := hstrict rfl (by simp)
    exact upholds_index hstrict hserves.engine hf (fun rows cols elements hrange =>
      settledElements_of_serves hserves hmeets hstrict hf hadmits.suits hargs hrange) h
  · obtain ⟨os, hos, rfl, _⟩ := h
    exact upholds_concatenate hf (upheld_of_upheldAs hos) (fun _ => isSorted_of_upheldAs hos)
      (joinGives_concatenated fn t os)
  · have hstrict := hstrict rfl (by simp)
    refine upholds_position hstrict hserves.engine hmeets.origin
      (fun a _ => hposition hstrict _) hnode (call_position_fails hf (.inl rfl)) (fun a ha => ?_) h
    exact isFinite_ofInt (and_eq_true_iff.mp (hword a ha)).1
  · have hstrict := hstrict rfl (by simp)
    refine upholds_position hstrict hserves.engine hmeets.origin
      (fun a _ => hposition hstrict _) hnode (call_position_fails hf (.inr rfl)) (fun a ha => ?_) h
    exact isFinite_ofInt (and_eq_true_iff.mp (hword a ha)).2
  · obtain ⟨os, hos, ho⟩ := h
    have hplace : argumentPlace f = .argument := by
      unfold argumentPlace
      split
      · contradiction
      · rfl
    rw [hplace] at hos
    refine upholds_call hserves.engine (fun vs v hv => ?_) (fun args y => (hnode args y).trans ?_)
      hos ho
    · split at hv
      · cases hv
      · rwa [← hserves.engine]
    · unfold CallYields
      split
      all_goals first | contradiction | rfl

end Calls

/-! ## Names -/

section Names

variable (hmeets : ev.Meets strict plain origin b env)
include hmeets

omit hmeets in
theorem runs_letIn_iff {y : Expr} {z : Yield} :
    ev.Runs env (.letIn name (some x) (some y)) z ↔
      ∃ v, ev.Runs env x v ∧ ev.Runs (env.set name v) y z := by
  rw [runs_iff]
  constructor
  · rintro ⟨⟩
    exact ⟨_, ‹_›, ‹_›⟩
  · rintro ⟨v, hv, hz⟩
    exact .letIn hv hz

/-- **A bound name is upheld.**  The value may fail where it is not needed, so only a run that
succeeds goes on as it did. -/
theorem upholds_letIn (hserves : ev.Serves strict plain site) {y : Expr} {v : Outcome}
    (hadmits : ev.Admits strict plain (.letIn name (some x) (some y)))
    (hx : x.isSorted plain .scalar = true) (hy : y.isSorted plain .scalar = true)
    (hv : ev.Sound strict plain origin b x v)
    (hr : ev.Sound strict plain origin
      (b.push name (if v.isConstant then some v else none)) y r)
    (h : LetGives name v r o) :
    ev.Upheld strict env (.letIn name (some x) (some y)) o := by
  have hstrict : ¬strict := fun hs => by simpa [Expr.keepsFailures] using hadmits.suits.failures hs
  refine ⟨fun z hz => ?_, fun hs => absurd hs hstrict⟩
  obtain ⟨u, hu, hz⟩ := runs_letIn_iff.mp hz
  have hvalue := hv.upheldAs hmeets (hadmits.part (by simp [parts])) hx (by simp)
  have hu' := hvalue.1.forth u hu
  -- A constant value is bound in the walk, and the run binds the same one.
  have hbound (w : Outcome) (hw : (if v.isConstant then some v else none) = some w) :
      w.Fits plain ∧ u = w.yield := by
    split at hw
    · rename_i hconst
      cases hw
      exact ⟨fits_of_isConstant hvalue.2 hconst,
        (runs_of_isConstant hconst (Expr.isSorted_of_scalar hvalue.2 _)).mp hu'⟩
    · cases hw
  have hinner : ev.Meets strict plain origin (b.push name (if v.isConstant then some v else none))
      (env.set name u) :=
    { fits := hmeets.fits.push name fun w hw => (hbound w hw).1
      names := hmeets.names.push hstrict name fun w hw => (hbound w hw).2
      around := hmeets.around.set name fun hplain =>
        hserves.exists_one_of_runs hplain hmeets.around hx hu
      origin := by rw [Env.set_origin, hmeets.origin] }
  have hz' := (hr.upheldAs hinner (hadmits.part (by simp [parts])) hy (by simp)).1.forth z hz
  cases h with
  | known => exact runs_constant.mpr (runs_constant.mp hz')
  | left => exact runs_ofExpr.mpr (runs_letIn_iff.mpr ⟨u, hu', hz'⟩)

theorem upholds_letVar (h : b.lookup name = .ok (some o)) :
    ev.Upheld strict env (.letVar name t) o := by
  obtain ⟨v, t', rfl, _⟩ := hmeets.fits name o h
  have hnode (y : Yield) : ev.Runs env (.letVar name t) y ↔ env.find? name = some y := by
    rw [runs_iff]
    exact ⟨fun h => by cases h; assumption, .letVar⟩
  refine (Upholds.of_iff hnode).trans (.trans ?_ (.of_iff fun y => runs_constant.symm))
  by_cases hname : name = ""
  · subst hname
    exact ⟨fun y hy => by simp [Env.find?] at hy, fun hs => absurd h (hmeets.names.unnamed hs _)⟩
  · have hfind := hmeets.names.named name _ hname h
    exact .of_iff fun y => by rw [hfind]; simp [Outcome.yield, eq_comm]

end Names

/-! ## Ranges, splices and sections -/

section Several

variable {es : Children} {os : List Outcome} (hmeets : ev.Meets strict plain origin b env)
include hmeets

theorem upholds_range (hadmits : ev.Admits strict plain (.range rows cols es))
    (hsorted : (Expr.range rows cols es).isSorted plain .argument = true)
    (hos : Forall₂ (Child (ev.Sound strict plain origin b)) (trimmed es) os)
    (h : Rebuilt (.range rows cols es) os o) :
    ev.Upheld strict env (.range rows cols es) o := by
  rw [isSorted, and_eq_true] at hsorted
  have hes := upholds_keepMissing_trimmed (upheld_of_upheldAs (upheldAs_of_sound_trimmed hmeets
    (fun x hx => hadmits.part (by simpa [parts] using hx)) hsorted.2 (by decide) hos))
  rw [rebuilt_range h, length_keepMissing, rangeShape_of_fitsShape hsorted.1]
  exact (Upholds.of_iff fun y => runs_range).trans
    ((hes.exists_and fun _ _ => .refl _).trans (.of_iff fun y => runs_range.symm))

theorem upholds_splice (hadmits : ev.Admits strict plain (.splice es))
    (hsorted : (Expr.splice es).isSorted plain .argument = true)
    (hos : Forall₂ (Child (ev.Sound strict plain origin b)) (trimmed es) os)
    (h : Rebuilt (.splice es) os o) : ev.Upheld strict env (.splice es) o := by
  rw [isSorted, and_eq_true] at hsorted
  have hes := upholds_keepMissing_trimmed (upheld_of_upheldAs (upheldAs_of_sound_trimmed hmeets
    (fun x hx => hadmits.part (by simpa [parts] using hx)) hsorted.2 (by decide) hos))
  obtain ⟨e, he, rfl⟩ := h
  cases he
  exact (Upholds.of_iff fun y => runs_splice).trans
    ((hes.exists_and fun _ _ => .refl _).trans (.of_iff fun y => runs_splice.symm))

/-- The leaves of a range or a splice are those of its elements. -/
theorem upholds_elementLeaves (hadmits : ev.Admits strict plain e)
    (hparts : ∀ x, some x ∈ es → x ∈ e.parts) (hsorted : allSorted plain .element es = true)
    (hos : Forall₂ (Child (ev.Sound strict plain origin b)) (trimmed es) os) :
    Upholds strict (ev.ChildLeaves env es)
      (ev.ChildLeaves env (keepMissing es os)) :=
  upholds_becomesLeaves (becomes_keepMissing_trimmed (upheldLeaves_of_sound hmeets
    (fun x hx => hadmits.part (hparts x (mem_of_mem_trimmed hx))) (allSorted_trimmed hsorted) hos))

omit hmeets in
theorem runs_subSection_iff : ev.Runs env (.subSection s es) y ↔
      ∃ yss, Forall₂ (fun row ys => Forall₂
        (ChildYields (ev.Runs (env.enterRow row))) es ys) (ev.inputs.rows s) yss ∧
          y = .many (yss.flatMap fun ys => ys.flatMap Yield.items) := by
  rw [runs_iff]
  constructor
  · rintro ⟨⟩
    exact ⟨_, ‹_›, rfl⟩
  · rintro ⟨yss, hyss, rfl⟩
    exact .subSection hyss

/-- **A section is upheld** in every one of its rows. -/
theorem upholds_subSection (hserves : ev.Serves strict plain site)
    (hadmits : ev.Admits strict plain (.subSection s es))
    (hsorted : allSorted plain .scalar es = true)
    (hos : Forall₂ (Child (ev.Sound strict plain origin b)) (trimmed es) os)
    (h : Rebuilt (.subSection s es) os o) :
    ev.Upheld strict env (.subSection s es) o := by
  obtain ⟨e, he, rfl⟩ := h
  cases he
  refine (Upholds.of_iff fun y => runs_subSection_iff).trans
    (.trans ?_ (.of_iff fun y => runs_subSection_iff.symm))
  refine Upholds.exists_and (Upholds.forall₂ (forall₂_same.mpr fun row hrow => ?_))
    fun _ _ => .refl _
  exact upholds_keepMissing_trimmed (upheld_of_upheldAs (upheldAs_of_sound_trimmed
    (hmeets.enterRow (hserves.inputs.rows s row hrow))
    (fun x hx => hadmits.part (by simpa [parts] using hx)) hsorted (by simp) hos))

omit hmeets in
theorem runs_parentSection_iff :
    ev.Runs env (.parentSection s (some x)) y ↔ ev.Runs env.outerRow x y := by
  rw [runs_iff]
  exact ⟨fun h => by cases h; assumption, fun h => .parentSection h⟩

theorem upholds_parentSection
    (hadmits : ev.Admits strict plain (.parentSection s (some x)))
    (hsorted : x.isSorted plain .scalar = true) (hr : ev.Sound strict plain origin b x r)
    (h : ParentGives (.parentSection s (some x)) r o) :
    ev.Upheld strict env (.parentSection s (some x)) o := by
  have hr := (hr.upheldAs hmeets.outerRow (hadmits.part (by simp [parts])) hsorted (by simp)).1
  refine (Upholds.of_iff fun y => runs_parentSection_iff).trans (hr.trans (.of_iff fun y => ?_))
  cases h with
  | known => exact runs_constant.trans runs_constant.symm
  | left he =>
    cases he
    exact runs_parentSection_iff.symm

end Several

/-! ## Switches -/

section Switches

theorem becomes_chosenBranch {R : Giving}
    (hcases : Forall₂ (CaseBecomes R) cases cases') (hotherwise : Becomes R otherwise otherwise')
    (k : Int) : Becomes R (chosenBranch cases otherwise k) (chosenBranch cases' otherwise' k) := by
  induction hcases with
  | nil => exact hotherwise
  | @cons c c' rest rest' hc _ ih =>
    have hmatches : c'.matches k = c.matches k := by rw [Case.matches, Case.matches, hc.1]
    unfold chosenBranch at ih ⊢
    rw [List.find?_cons, List.find?_cons, hmatches]
    cases c.matches k with
    | true => exact hc.2
    | false => exact ih

theorem runs_switch_iff : ev.Runs env (.switch (some x) cases otherwise t) y ↔
      ∃ v, ev.Runs env x v ∧ ChildYields (ev.Runs env)
        (chosenBranch cases otherwise (v.toInt leastWord)) y := by
  rw [runs_iff]
  constructor
  · rintro ⟨⟩
    exact ⟨_, ‹_›, ‹_›⟩
  · rintro ⟨v, hv, hy⟩
    exact .switch hv hy

/-- A known selector chooses its branch. -/
theorem upholds_chosen (hx : ev.Upheld strict env x (.known v t'))
    (h : Child (ev.Upheld strict env)
      (chosenBranch cases otherwise (v.toInt leastWord)) o) :
    ev.Upheld strict env (.switch (some x) cases otherwise t) o := by
  have hselector : Upholds strict (ev.Runs env x) (· = .one v) :=
    hx.trans (.of_iff fun y => runs_constant)
  exact (Upholds.of_iff fun y => runs_switch_iff).trans
    (hselector.exists_eq.trans (upholds_child h))

theorem upholds_switchLeft (hx : ev.Upheld strict env x (.residual r))
    (hcases : Forall₂ (CaseBecomes (ev.Upheld strict env)) cases cases')
    (hotherwise : Becomes (ev.Upheld strict env) otherwise otherwise') :
    ev.Upheld strict env (.switch (some x) cases otherwise t)
      (.residual (.switch (some r) cases' otherwise' t)) :=
  (Upholds.of_iff fun _ => runs_switch_iff).trans
    ((hx.exists_and fun _ _ => upholds_becomes (becomes_chosenBranch hcases hotherwise _)).trans
      (.of_iff fun _ => runs_switch_iff.symm))

end Switches

/-! ## Folds -/

section Folds

variable (hmeets : ev.Meets strict plain site.origin b env)
include hmeets

/-- **A fold over a list is upheld** if it goes through its elements in order, or if their order
does not matter. -/
theorem upholds_listFold {node : Expr} {inits : Children} {rebuild : FoldState → Expr}
    (hnode : ListFold d node inits folded elements) (hadmits : ev.Admits strict plain node)
    (hsorted : node.isSortedFold plain = true)
    (horder : d.orderSensitive = true ∨
      ¬strict ∧ OrderFree (ev.LeafYields env d) (·.isArray = false) inits)
    (hrebuild : ∀ st : FoldState, st.Sized inits →
      ListFold d (rebuild st) st.resumed st.folded (st.held.flatten.map some))
    (hos : Forall₂ (Child (ev.Sound strict plain site.origin b)) elements os)
    (h : ElementsGive (ev.Sound strict plain site.origin) b d site.partialFolds node inits folded
      rebuild os o) : ev.Upheld strict env node o := by
  obtain ⟨hd, hinits, hes⟩ := hnode.sorted hsorted
  have hpart {x : Expr} (hx : some x ∈ elements ∨ x ∈ d.parts) : ev.Admits strict plain x :=
    hadmits.part (hnode.mem_parts hx)
  exact upholds_elements hmeets hd (fun x hx => hpart (.inr hx))
    (fun x hx => ⟨hinits x hx, hadmits.part (hnode.mem_parts_of_mem_inits hx)⟩) horder
    (upheldLeaves_of_sound hmeets (fun x hx => hpart (.inl hx)) hes hos)
    (isSorted_of_sound hmeets.fits hes hos) hnode hrebuild h

/-- **A fold over vectors is upheld.** -/
theorem upholds_foldVectors
    (hadmits : ev.Admits strict plain (.foldVectors d seeds folded elements t))
    (hsorted : (defSorted plain d && seedsSorted plain seeds &&
      allSorted plain .element elements) = true)
    (hos : Forall₂ (Child (ev.Sound strict plain site.origin b)) elements os)
    (hsensitive : d.orderSensitive = true) (hne : os ≠ [])
    (hlen : os.length = d.elementNames.length)
    (h : VectorsGive (ev.Sound strict plain site.origin) b d site.partialFolds
      (.foldVectors d seeds folded elements t) (d.start seeds) folded
      (fun st vectors => .foldVectors d st.seeds st.folded (vectors.map some) t) os o) :
    ev.Upheld strict env (.foldVectors d seeds folded elements t) o := by
  simp only [and_eq_true] at hsorted
  have hd := sorted_of_defSorted hsorted.1.1
  have hne : elements ≠ [] := by
    rwa [← length_pos_iff, hos.length_eq, length_pos_iff]
  refine upholds_vectors hmeets hd (fun x hx => hadmits.part (by simp [parts, hx]))
    (fun x hx => ⟨hd.start hsorted.1.2 x hx, hadmits.part ?_⟩) hsensitive
    (upheldLeaves_of_sound hmeets (fun x hx => hadmits.part (by simp [parts, hx])) hsorted.2 hos)
    (isSorted_of_sound hmeets.fits hsorted.2 hos) hne (hos.length_eq.trans hlen) h
  rcases FoldDef.mem_parts_of_mem_start _ hx with hx | hx <;> simp [parts, hx]

/-- **A fold over an array is upheld.** -/
theorem upholds_foldArray {array : Option Expr} {a : Outcome}
    (hadmits : ev.Admits strict plain (.foldArray d array t))
    (hsorted : (Expr.foldArray d array t).isSorted plain .argument = true)
    (ha : Child (ev.Sound strict plain site.origin b) array a)
    (h : ArrayGives (ev.Sound strict plain site.origin) b d (.foldArray d array t) d.inits
      a o) : ev.Upheld strict env (.foldArray d array t) o := by
  simp only [isSorted, and_eq_true] at hsorted
  refine upholds_array hmeets (sorted_of_defSorted hsorted.1)
    (fun x hx => hadmits.part (by simp [parts, hx]))
    (fun x hx => hadmits.part (by simp [parts, FoldDef.parts, hx]))
    (ha.imp fun x hx h => ?_) ?_ h
  · exact h.leaves env hmeets (hadmits.part (by simp [parts, hx]))
      (optionSorted_iff.mp hsorted.2 x hx)
  · exact isSorted_of_childOr hmeets.fits fits_blank hsorted.2 (ha.imp fun _ _ h => h.sorted)

/-- **A fold over a table is upheld** if it goes through the rows in order, or if their order does
not matter. -/
theorem upholds_foldTable {columns : Option (List String)} {filter : Option Expr} {column : Int}
    {table : Option Expr} {a : Outcome} (hadmits : ev.Admits strict plain
      (.foldTable d seeds folded columns filter column table t))
    (hsorted :
      (Expr.foldTable d seeds folded columns filter column table t).isSortedFold plain = true)
    (horder : d.orderSensitive = true ∨ ¬strict ∧ OrderFree
      (RowYields ev.Runs env d (columns.getD []) filter column)
      (·.length = (columns.getD []).length) (d.start seeds))
    (ha : Child (ev.Sound strict plain site.origin b) table a)
    (h : TableGives (ev.Sound strict plain site.origin) b d site.partialFolds
      (.foldTable d seeds folded columns filter column table t) (d.start seeds) folded
      (columns.getD []) filter column
      (fun st table => .foldTable d st.seeds st.folded columns filter column (some table) t) a o) :
    ev.Upheld strict env (.foldTable d seeds folded columns filter column table t) o := by
  simp only [Expr.isSortedFold, and_eq_true] at hsorted
  have hd := sorted_of_defSorted hsorted.1.1.1
  refine upholds_table hmeets hd (fun x hx => hadmits.part (by simp [parts, hx]))
    (fun x hx => ⟨hd.start hsorted.1.1.2 x hx, hadmits.part ?_⟩)
    (fun x hx => ⟨optionSorted_iff.mp hsorted.1.2 x hx, hadmits.part (by simp [parts, hx])⟩)
    horder (ha.imp fun x hx h => ?_) ?_ (fun hs rows cols elements heq => ?_) h
  · rcases FoldDef.mem_parts_of_mem_start _ hx with hx | hx <;> simp [parts, hx]
  · exact (h.upheldAs hmeets (hadmits.part (by simp [parts, hx]))
      (optionSorted_iff.mp hsorted.2 x hx) (by simp)).1
  · exact isSorted_of_childOr hmeets.fits fits_blank hsorted.2 (ha.imp fun _ _ h => h.sorted)
  · -- The outcome of the table has the shape of the table, which has rows.
    cases table with
    | none =>
      cases ha
      cases heq
    | some x =>
      obtain ⟨elements', rfl⟩ := ha.shaped hmeets.fits hsorted.2 rows cols elements heq
      simpa [Expr.keepsFailures] using hadmits.suits.failures hs

end Folds

end FormulaFold
