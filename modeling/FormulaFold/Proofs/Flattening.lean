import FormulaFold.Proofs.Commuting

/-! # The elements that a fold goes through

Folding takes the elements of a fold out of ranges and splices, at any depth, and leaves a known
value as it is.  A run takes the single values out of arrays too.  **A fold that is computed ahead
of the run has the value of the run if there is no array among the values that it goes through**
(`evaluate_optimize_flattened`); the items of the one array of a fold over an array are taken out on
both sides.  It does not matter whether the order of the elements does: with nothing held, they are
taken in order.  An array among the elements counts as one element ahead of the run and as many in
the run (`evaluate_optimize_array`).
-/
namespace FormulaFold

variable {strict : Prop} {plain : Bool} {ev : Runner} {env : Env} {origin : Option Address}
  {b : Bindings} {d : FoldDef Expr} {inits : Children} {folded : Nat} {os : List Outcome}

/-! ## Folds that are done whole -/

section Whole

variable {R : Bindings → Giving} {st st' : FoldState} {node : Expr} {v : Value}
  {t : DataType}

/-- A tuple after which nothing is held is one of known values that was folded. -/
theorem folded_of_tupleGives (h : TupleGives R b d st tuple st') (hheld : st'.held = []) :
    (st.stopped || !tuple.all (·.isKnown)) = false ∧ StepGives R b d st tuple [] (some st') := by
  cases h with
  | held => exact absurd hheld (held_hold _ _)
  | undecided _ hpass | dropped _ hpass => cases hpass
  | @tried r hknown _ hr =>
    cases r with
    | none => exact absurd hheld (held_hold _ _)
    | some st' => exact ⟨hknown, hr⟩

/-- A fold that held nothing took every element. -/
theorem wholeGives_of_tuplesGive (htuples : tuples = os.map ([·]))
    (h : TuplesGive R b d st tuples st') (hheld : st'.held = []) :
    WholeGives R b d st os (some st') := by
  induction h generalizing os with
  | nil =>
    obtain rfl := map_eq_nil_iff.mp htuples.symm
    exact .nil
  | @cons st st₁ st' tuple rest htuple hrest ih =>
    obtain ⟨o, os, rfl, rfl, rfl⟩ := map_eq_cons_iff.mp htuples.symm
    obtain ⟨hknown, hstep⟩ := folded_of_tupleGives htuple (known_of_itemsGive hrest hheld).1
    exact .cons (by simpa using all_isKnown_of_not_held hknown) hstep (ih rfl hheld)

theorem ofExpr_ne_known (he : e.isFold = true) : ofExpr e ≠ .known v t := by
  intro heq
  cases e with
  | constant => cases he
  | _ => cases heq

theorem isFold_of_withChildren {e : Expr} {children : Children}
    (hnode : node.isFold = true) (h : node.withChildren children = .ok e) : e.isFold = true := by
  cases node with
  | fold | reduce | foldVectors =>
    cases h
    rfl
  | foldArray | foldTable =>
    obtain _ | ⟨child, _ | ⟨_, _⟩⟩ := children <;> cases h
    rfl
  | _ => cases hnode

theorem not_rebuilt_known (hnode : node.isFold = true) : ¬Rebuilt node os (.known v t) := by
  rintro ⟨e, he, heq⟩
  exact ofExpr_ne_known (isFold_of_withChildren hnode he) heq.symm

/-- A fold over a list that has become a known value was done whole. -/
theorem ElementsGive.done {partialFolds : Bool} {rebuild : FoldState → Expr}
    (hnode : node.isFold = true) (hrebuild : ∀ st, (rebuild st).isFold = true)
    (h : ElementsGive R b d partialFolds node inits folded rebuild os (.known v t)) :
    ∃ st st', StartGives (R b) inits folded (some st) ∧
      WholeGives R b d st (flattenOutcomes os) (some st') ∧ ResultGives R b d st' (.known v t) := by
  cases h with
  | notStarted _ ho => exact absurd ho (not_rebuilt_known hnode)
  | @folded st st' _ hstart htuples ho =>
    generalize heq : Outcome.known v t = o at ho
    cases ho with
    | result hheld ho =>
      exact ⟨st, st', hstart, wholeGives_of_tuplesGive rfl htuples hheld, ho⟩
    | whole _ _ ho =>
      subst heq
      exact absurd ho (not_rebuilt_known hnode)
    | rebuilt => exact absurd heq.symm (ofExpr_ne_known (hrebuild st'))

end Whole

/-! ## Folds over single values -/

/-- Whether a value is an array of single values. -/
def Value.isFlatArray (plain : Bool) : Value → Bool
  | .array _ _ values => values.all (·.fits plain)
  | _ => false

/-- Whether a fold over a list or an array goes through single values: the formulas in it are sorted
and no constant among its elements is an array, but the one array that a fold over an array goes
through may be written as a constant. -/
def Expr.isFlatFold (plain : Bool) : Expr → Bool
  | .foldArray d (some (.constant v _)) _ =>
    defSorted plain d && (v.fits plain || v.isFlatArray plain)
  | .foldArray d array _ => defSorted plain d && optionSorted plain .element array
  | .foldTable .. => false
  | e => e.isSortedFold plain

theorem Expr.isFlatFold_foldArray (h : (Expr.foldArray d array t).isFlatFold plain = true) :
    defSorted plain d = true ∧ (optionSorted plain .element array = true ∨
      ∃ rows cols values u, array = some (.constant (.array rows cols values) u) ∧
        ∀ v ∈ values, v.fits plain = true) := by
  by_cases hc : ∃ v u, array = some (.constant v u)
  · obtain ⟨v, u, rfl⟩ := hc
    simp only [isFlatFold, and_eq_true, Bool.or_eq_true] at h
    refine ⟨h.1, h.2.imp (fun hv => hv) fun hv => ?_⟩
    cases v with
    | array rows cols values => exact ⟨rows, cols, values, u, rfl, all_eq_true.mp hv⟩
    | _ => cases hv
  · rw [isFlatFold, and_eq_true] at h
    · exact ⟨h.1, .inl h.2⟩
    · rintro v u rfl
      exact hc ⟨v, u, rfl⟩

theorem leavesOf_of_fits (h : ∀ v ∈ vs, v.fits plain = true) :
    leavesOf vs = vs := by
  induction vs with
  | nil => rfl
  | cons v vs ih =>
    have h := forall_mem_cons.mp h
    rw [leavesOf, ih h.2, Value.leaves_of_isArray (Value.isArray_of_fits h.1)]
    rfl

section Nodes

variable {site : Site} {v : Value} {t : DataType} (hmeets : ev.Meets strict plain site.origin b env)
include hmeets

/-- The elements of a list that is folded whole are those that a run goes through. -/
theorem upholds_flattened (hes : allSorted plain .element es = true)
    (hadmits : ∀ x, some x ∈ es → ev.Admits strict plain x)
    (hos : Forall₂ (Child (ev.Sound strict plain site.origin b)) es os)
    (hfits : ∀ o ∈ flattenOutcomes os, o.Fits plain) :
    Upholds strict (ev.ChildLeaves env es) (· = (flattenOutcomes os).map (·.value)) :=
  (upholds_childLeaves (upheldLeaves_of_sound hmeets hadmits hes hos)).trans
    (.of_iff fun _ => leavesYield_flattenOutcomes.symm.trans (outcomeLeaves_of_fits hfits))

/-- **A fold over a list that is done whole is upheld.** -/
theorem upholds_listFold_done {node : Expr} (hnode : ListFold d node inits folded es)
    (hadmits : ev.Admits strict plain node) (hsorted : node.isSortedFold plain = true)
    (hfold : node.isFold = true) {rebuild : FoldState → Expr}
    (hrebuild : ∀ st, (rebuild st).isFold = true)
    (hos : Forall₂ (Child (ev.Sound strict plain site.origin b)) es os)
    (h : ElementsGive (ev.Sound strict plain site.origin) b d site.partialFolds node inits
      folded rebuild os (.known v t)) :
    ev.Upheld strict env node (.known v t) := by
  obtain ⟨hd, hinits, hes⟩ := hnode.sorted hsorted
  obtain ⟨st, st', hstart, hwhole, ho⟩ := h.done hfold hrebuild
  have hflat := opens_isSorted.of_mem_flattenOutcomes (isSorted_of_sound hmeets.fits hes hos)
  have hpart {x : Expr} (hx : some x ∈ es ∨ x ∈ d.parts) : ev.Admits strict plain x :=
    hadmits.part (hnode.mem_parts hx)
  exact upholds_done hmeets hd (fun x hx => hpart (.inr hx))
    (fun x hx => ⟨hinits x hx, hadmits.part (hnode.mem_parts_of_mem_inits hx)⟩) hflat
    (upholds_flattened hmeets hes (fun x hx => hpart (.inl hx)) hos) hnode.runs_iff hstart hwhole ho

omit hmeets in
/-- The leaves of an array that is written as a constant are its items. -/
theorem childLeaves_array {rows cols : Int} {values vs : List Value}
    (hvalues : ∀ v ∈ values, v.fits plain = true) :
    ev.ChildLeaves env [some (.constant (.array rows cols values) t)] vs ↔
      vs = (values.map (Outcome.constant · .unknown)).map (·.value) := by
  have hleaves : (Yield.one (.array rows cols values)).leaves = values := by
    simp [Yield.leaves, Yield.items, leavesOf, Value.leaves, leavesOf_of_fits hvalues]
  have hmap : (values.map (Outcome.constant · .unknown)).map (·.value) = values := by
    simp [Function.comp_def, Outcome.constant, Outcome.value]
  rw [hmap]
  refine leavesYield_singleton.trans ⟨?_, ?_⟩
  · rintro ⟨y, hy, rfl⟩
    rw [runs_constant.mp hy, hleaves]
  · rintro rfl
    exact ⟨_, runs_constant.mpr rfl, hleaves.symm⟩

/-- A fold over an array that is written as a constant goes through its items. -/
theorem upholds_foldArray_constant {rows cols : Int} {values : List Value} {u : DataType}
    (hvalues : ∀ v ∈ values, v.fits plain = true)
    (hadmits : ev.Admits strict plain
      (.foldArray d (some (.constant (.array rows cols values) u)) t))
    (hd : d.Sorted plain)
    (h : ArrayGives (ev.Sound strict plain site.origin) b d
      (.foldArray d (some (.constant (.array rows cols values) u)) t) d.inits
      (.constant (.array rows cols values) u) (.known v t')) :
    ev.Upheld strict env (.foldArray d (some (.constant (.array rows cols values) u)) t)
      (.known v t') := by
  cases h with
  | sized _ ho | notStarted _ _ ho | stuck _ _ _ ho => exact absurd ho (not_rebuilt_known rfl)
  | folded helements hstart hwhole ho =>
    obtain rfl := Option.some.inj helements
    refine upholds_done hmeets hd (fun x hx => hadmits.part (by simp [parts, hx]))
      (fun x hx => ⟨hd.inits x hx, hadmits.part (by simp [parts, FoldDef.parts, hx])⟩)
      (fun o ho => ?_) (fun _ => .of_iff fun vs => childLeaves_array hvalues) (runs_foldArray _)
      hstart hwhole ho
    obtain ⟨w, hw, rfl⟩ := mem_map.mp ho
    exact (fits_constant _ (hvalues w hw)).isSorted _

omit hmeets in
theorem ArrayGives.imp (hRS : ∀ b e o, e ∈ d.parts → R b e o → S b e o)
    (hinits : ∀ e o, some e ∈ inits → R b e o → S b e o)
    (h : ArrayGives R b d node inits a o) : ArrayGives S b d node inits a o := by
  have hsteps (b : Bindings) (e : Expr) (o : Outcome) (he : e ∈ d.steps) : R b e o → S b e o :=
    hRS b e o (FoldDef.mem_parts_of_mem_steps he)
  cases h with
  | sized ha ho => exact .sized ha ho
  | notStarted ha hstart ho => exact .notStarted ha (hstart.imp hinits) ho
  | stuck ha hstart hwhole ho => exact .stuck ha (hstart.imp hinits) (hwhole.imp hsteps) ho
  | folded ha hstart hwhole ho =>
    exact .folded ha (hstart.imp hinits) (hwhole.imp hsteps) (ho.imp hRS)

/-- **A fold over single values that has become a known value is upheld.** -/
theorem upholds_flatFold {L U : Memo} {entered : Address → Giving} {R : Bindings → Giving}
    (hR : ∀ b e o, R b e o → ev.Sound strict plain site.origin b e o)
    (hconstant : ∀ b v t o, R b (.constant v t) o → o = .constant v t) {e : Expr}
    (hadmits : ev.Admits strict plain e) (he : e.isFlatFold plain = true)
    (hsound : NodeGives False site (CellGives site L U entered)
      (ev.Sound strict plain site.origin) b e (.known v t'))
    (h : NodeGives False site (CellGives site L U entered) R b e (.known v t')) :
    ev.Upheld strict env e (.known v t') := by
  cases e with
  | fold form d seeds folded elements t =>
    cases hsound with
    | fold hos ho =>
      exact upholds_listFold_done hmeets .fold hadmits he rfl (fun _ => rfl) hos ho
  | reduce d seed folded elements t =>
    cases hsound with
    | reduce hos ho =>
      exact upholds_listFold_done hmeets .reduce hadmits he rfl (fun _ => rfl) hos ho
  | foldArray d array t =>
    obtain ⟨hd, harray | ⟨rows, cols, values, u, rfl, hvalues⟩⟩ := Expr.isFlatFold_foldArray he
    · have he : (Expr.foldArray d array t).isSorted plain .argument = true := by
        rw [isSorted, hd, harray]
        rfl
      cases hsound with
      | foldArray ha ho => exact upholds_foldArray hmeets hadmits he ha ho
    · -- Sound outcomes of an array are other arrays too, but a constant is left as it is.
      cases h with
      | foldArray ha ho =>
        obtain rfl := hconstant _ _ _ _ ha
        exact upholds_foldArray_constant hmeets hvalues hadmits (sorted_of_defSorted hd)
          (ho.imp (fun b p o _ => hR b p o) (fun p o _ => hR b p o))
  | _ => cases he

end Nodes

/-- **A fold that is computed ahead of the run goes through the elements of the run.**  If a fold
over single values becomes a known value, that is its value; nothing is rounded, and no formula
selects from a written range or all values are settled. -/
theorem evaluate_optimize_flattened (ev : Evaluator) (opt : Optimizer)
    (hengine : opt.engine = ev.engine) (hprecision : ev.engine.precision ≤ 0) {plain : Bool}
    (hbook : ev.book.Sorted plain) (hinputs : ev.inputs.Fits plain ev.book) {e : Expr}
    (he : e.isFlatFold plain = true) {origin : Option Address}
    (hranges : plain = false → ev.book.Throughout (fun x => x.indexesRange = false) e)
    {history : List (Optimizer × Optimizer.Call)}
    (hhistory : ∀ call ∈ history, call.1.engine = ev.engine) {c : Value} {t : DataType}
    {s' : WalkState}
    (hr : opt.optimize ev.book (some e) origin (.after ev.book history) = .ok (.known c t) s')
    {v : Value} (hv : ev.evaluate (some e) origin [] = .ok v []) : c = v := by
  have hserves : ev.Serves False plain (opt.site ev.book origin) :=
    ⟨hengine, rfl, .inr hprecision, False.elim, hbook, hinputs⟩
  have hrecalls := recalls_of_optimize hserves (earned_after ev.book hengine hhistory) hr
  have hmeets : ev.Meets False plain origin .empty (.start origin) :=
    Evaluator.meets_empty (by simp) origin
  have hupheld := upholds_flatFold hmeets
    (fun _ p _ h => Runner.sound_of_gives hserves hrecalls p h)
    (fun b w u o h => by
      cases gives_walkDeep (fun _ _ _ _ h => h) h
      rfl)
    (.start False.elim (.of_indexesRange hranges)) he
    (gives_walkDeep (fun _ p _ _ h => Runner.sound_of_gives hserves hrecalls p h)
      (gives_of_optimize hr))
    (gives_walkDeep (fun _ _ _ _ h => h) (gives_of_optimize hr))
  exact (evaluate_of_upheld hupheld hv).2 c t rfl

namespace KeptExample

open Sample

/-- A mark for every item of an array. -/
def tallied (array : Value) : Expr :=
  .foldArray (marks (text "")) (some (.constant array .unknown)) .string

def pair : Value := .array 1 2 [.text "a", .text "b"]

/-- An element in a range of a range, next to a reference. -/
def nested : Expr :=
  .range 1 2 [some (.range 1 1 [some (text "a")]), some (.cell (cellAt 2))]

end KeptExample

open Sample KeptExample in
/-- The items of an array and the elements of nested ranges are marked ahead of the run as in it. -/
theorem evaluate_optimize_flattened_nested :
    ((evaluator [known]).evaluate (some (tallied pair)) none [] = .ok (.text "ii") [] ∧
      (∃ t s', (optimizer true).optimize (evaluator [known]).book (some (tallied pair)) none
        .initial = .ok (.known (.text "ii") t) s') ∧
      ∀ c t s', (optimizer true).optimize (evaluator [known]).book (some (tallied pair)) none
        .initial = .ok (.known c t) s' → c = .text "ii") ∧
    ((evaluator [known]).evaluate (some (tally (text "") [] 0 [nested])) none [] =
        .ok (.text "ii") [] ∧
      (∃ t s', (optimizer true).optimize (evaluator [known]).book
        (some (tally (text "") [] 0 [nested])) none .initial = .ok (.known (.text "ii") t) s') ∧
      ∀ c t s', (optimizer true).optimize (evaluator [known]).book
        (some (tally (text "") [] 0 [nested])) none .initial = .ok (.known c t) s' →
          c = .text "ii") := by
  have hbook : (evaluator [known]).book.Sorted true := Workbook.sorted_of_cells (by decide)
  refine ⟨⟨rfl, ⟨_, _, rfl⟩, fun c t s' hr => ?_⟩, ⟨rfl, ⟨_, _, rfl⟩, fun c t s' hr => ?_⟩⟩
  · exact evaluate_optimize_flattened _ (optimizer true) rfl (Int.le_refl 0) hbook
      (fits_inputs true _) (by decide) (by simp) (List.forall_mem_nil _) hr rfl
  · exact evaluate_optimize_flattened _ (optimizer true) rfl (Int.le_refl 0) hbook
      (fits_inputs true _) (by decide) (by simp) (List.forall_mem_nil _) hr rfl

open Sample KeptExample in
/-- **An array among the elements is one element ahead of the run.**  The fold over a single array
of two items is computed with one mark, and evaluates to two marks. -/
theorem evaluate_optimize_array :
    (∃ s', (optimizer true).optimize (evaluator []).book
      (some (tally (text "") [] 0 [.constant pair .unknown])) none .initial =
        .ok (.known (.text "i") .string) s') ∧
    (evaluator []).evaluate (some (tally (text "") [] 0 [.constant pair .unknown])) none [] =
      .ok (.text "ii") [] :=
  ⟨⟨_, rfl⟩, rfl⟩

end FormulaFold
