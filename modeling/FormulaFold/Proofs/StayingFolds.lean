import FormulaFold.Proofs.StayingCalls
import FormulaFold.Proofs.UpheldTables
import FormulaFold.Proofs.UpheldVectors

/-! # Folds that stay as they are

A fold stays if it does not start, or if it holds elements without having gained anything
(`Idle`).
-/
namespace FormulaFold

open Walk

variable {P : WalkState → Prop} {site : Site} {b : Bindings} {w : Expr → Action} {node : Expr}
  {d : FoldDef Expr} {inits es : Children} {folded : Nat} {o : Outcome}

/-! ## Steps -/

/-- What the walk of a formula is sure to give. -/
abbrev Sure (P : WalkState → Prop) (w : Expr → Action) (b : Bindings) (e : Expr) (o : Outcome) :
    Prop := Comes P b (w e) o

theorem comes_runConstants (h : ConstantsGive (Sure P w b) es r) :
    Comes P b (runConstants (es.map (Option.map w))) r := by
  induction h with
  | nil => exact comes_pure _
  | missing => exact comes_pure _
  | left ho hconst => exact ho.bind (comes_if_pos (by simp [hconst]) (comes_pure _))
  | cons ho hconst _ ih =>
    exact ho.bind (comes_if_neg (by simp [hconst]) (ih.bind (comes_pure _)))

theorem comes_start? (h : StartGives (Sure P w b) inits folded r) :
    Comes P b ((planOf w site node d inits).start? folded) r := by
  cases h with
  | first hinits =>
    subst hinits
    exact comes_pure _
  | inits hinits hr =>
    rw [start?_of_ne hinits]
    exact (comes_runConstants hr).bind (comes_pure _)

section Framed

variable {E : Memo → Prop} {bound : Prop} (hP : Lenient P) (hw : ∀ e b, Frames book E bound b (w e))
include hP hw

theorem comes_step? (h : StepGives (Sure P w) b d st elements extra r) :
    Comes P b ((planOf w site node d inits).step? st elements extra) r := by
  unfold FoldPlan.step?
  cases h with
  | first haccs hlen helements =>
    refine comes_if_neg (not_not.mpr hlen) ?_
    rw [haccs, helements]
    exact comes_pure _
  | @next accs r haccs hlen hnames hr =>
    refine comes_if_neg (not_not.mpr hlen) ?_
    rw [haccs]
    have hscope : ((planOf w site node d inits).stepScope st accs elements extra).1.length =
        ((planOf w site node d inits).stepScope st accs elements extra).2.length := by
      simp only [FoldPlan.stepScope, planOf, FoldDef.map_accumulatorNames,
        FoldDef.map_elementNames, length_append, length_map]
      omega
    have heq : (planOf w site node d inits).d.steps.map some =
        (d.steps.map some).map (Option.map w) := by simp [planOf, Function.comp_def]
    have hzip := (stepScope_zip st accs elements extra hlen hscope).2
    rw [← hzip] at hr
    have hframes (b : Bindings) : Frames book E bound b
        (runConstants ((planOf w site node d inits).d.steps.map some)) := by
      rw [heq]
      exact (holds_runConstants (J := framing book E bound False) (A := True)
        (R := fun _ _ => True) fun e _ => holds_framing (hw e _)).frames
    refine (comes_bindingAll hP hscope (hframes _) ?_).bind (comes_pure _)
    rw [heq]
    exact comes_runConstants hr

theorem comes_foldTuples (h : TuplesGive (Sure P w) b d st tuples st') :
    Comes P b ((planOf w site node d inits).foldTuples st tuples) st' := by
  induction h with
  | nil => exact comes_pure _
  | @cons st _ _ tuple _ htuple _ ih =>
    rw [foldTuples_cons]
    refine Comes.bind ?_ ih
    cases htuple with
    | held hheld => exact comes_if_pos hheld (comes_pure _)
    | undecided _ hpass | dropped _ hpass => cases hpass
    | tried hheld _ hr =>
      exact comes_if_neg (by simp [hheld]) ((comes_step? hP hw hr).bind (comes_pure _))

theorem comes_passes? (hrow : row.length = columns.length)
    (h : PassGives (Sure P w) b columns filter row r) :
    Comes P b ((⟨columns, filter.map w, column⟩ : TablePlan).passes? row) r := by
  cases h with
  | all hfilter =>
    subst hfilter
    exact comes_pure _
  | @tested e o hfilter ho =>
    subst hfilter
    refine (comes_bindingAll hP hrow.symm (hw e _) ho).bind ?_
    cases o with
    | residual x => exact comes_pure _
    | known v t =>
      simp only [Outcome.truth?]
      cases hv : v.toBool with
      | ok r => exact comes_pure _
      | error f => exact comes_if_pos (failsAsExpected_toBool v f hv) (comes_pure _)

theorem comes_foldRows (hrows : ∀ row ∈ rows, row.length = columns.length)
    (h : RowsGive (Sure P w) b d columns filter column st rows st') :
    Comes P b (foldRows (planOf w site node d inits) ⟨columns, filter.map w, column⟩ st rows)
      st' := by
  induction h with
  | nil => exact comes_pure _
  | @cons st _ _ row _ hrow _ ih =>
    have hrows := forall_mem_cons.mp hrows
    rw [foldRows_cons]
    refine Comes.bind ?_ (ih hrows.2)
    cases hrow with
    | held hheld => exact comes_if_pos hheld (comes_pure _)
    | undecided hheld hpass | dropped hheld hpass =>
      exact comes_if_neg (by simp [hheld])
        ((comes_passes? hP hw hrows.1 hpass).bind (comes_pure _))
    | tried hheld hpass hr =>
      exact comes_if_neg (by simp [hheld]) ((comes_passes? hP hw hrows.1 hpass).bind
        ((comes_step? hP hw hr).bind (comes_pure _)))

theorem comes_foldWhole? (h : WholeGives (Sure P w) b d st os r) :
    Comes P b (foldWhole? (planOf w site node d inits) st os) r := by
  induction h with
  | nil => exact comes_pure _
  | unknown ho => exact comes_if_pos (by simp [ho]) (comes_pure _)
  | stuck ho hstep =>
    exact comes_if_neg (by simp [ho]) ((comes_step? hP hw hstep).bind (comes_pure _))
  | cons ho hstep _ ih =>
    exact comes_if_neg (by simp [ho]) ((comes_step? hP hw hstep).bind ih)

end Framed

/-! ## Folds -/

/-- A fold that comes to nothing: it does not start, or it holds elements without having gained
anything. -/
inductive Idle (partialFolds : Bool) (start : Option FoldState → Prop)
    (run : FoldState → FoldState → Prop) : Prop
  | notStarted (hstart : start none) : Idle partialFolds start run
  | held {st st' : FoldState} (hstart : start (some st)) (hrun : run st st')
      (hheld : st'.held ≠ []) (hprogress : (!st'.progress || !partialFolds) = true) :
      Idle partialFolds start run

theorem Idle.imp {start start' : Option FoldState → Prop}
    {run run' : FoldState → FoldState → Prop} (hstart : ∀ r, start r → start' r)
    (hrun : ∀ st st', run st st' → run' st st') (h : Idle partialFolds start run) :
    Idle partialFolds start' run' := by
  cases h with
  | notStarted h => exact .notStarted (hstart _ h)
  | held h h' hheld hprogress => exact .held (hstart _ h) (hrun _ _ h') hheld hprogress

section Idle

variable (S : Bindings → Giving) (partialFolds : Bool) (b : Bindings) (d : FoldDef Expr)
  (inits : Children) (folded : Nat)

/-- A fold over tuples that comes to nothing. -/
abbrev IdleTuples (tuples : List (List Outcome)) : Prop :=
  Idle partialFolds (StartGives (S b) inits folded) (TuplesGive S b d · tuples ·)

/-- A fold over the elements of its children that comes to nothing. -/
abbrev IdleList (os : List Outcome) : Prop :=
  IdleTuples S partialFolds b d inits folded ((flattenOutcomes os).map ([·]))

/-- A fold over an array that comes to nothing, if the elements of the array are there. -/
abbrev IdleArray (a : Outcome) : Prop :=
  ∀ elements, arrayElements? a = some elements → StartGives (S b) d.inits 0 none ∨
    ∃ st, StartGives (S b) d.inits 0 (some st) ∧ WholeGives S b d st elements none

/-- A fold over vectors that comes to nothing, if the elements of the vectors are there. -/
abbrev IdleVectors (os : List Outcome) : Prop :=
  ∀ vectors, vectorElements? none 1 os = some (.ok vectors) →
    IdleTuples S partialFolds b d inits folded (columnsOf (vectors.headD []).length vectors)

/-- A fold over a table that comes to nothing, if the rows of the table are there. -/
abbrev IdleTable (columns : List String) (filter : Option Expr) (column : Int) (a : Outcome) :
    Prop :=
  ∀ rows cols elements, a = .residual (.range rows cols elements) →
    cols = columns.length ∧ 0 ≤ column ∧ column < cols ∧
    Idle partialFolds (StartGives (S b) inits folded) fun st st' =>
      (elements.length : Int) = wrap (rows * cols) ∧
        rows ≤ (rowsOf cols.toNat elements.length (elements.map ofChild)).length ∧
        RowsGive S b d columns filter column st
          ((rowsOf cols.toNat elements.length (elements.map ofChild)).take rows.toNat) st'

variable {S partialFolds b d inits folded}

theorem IdleTuples.imp {S' : Bindings → Giving}
    (hS : ∀ b p o, some p ∈ inits ∨ p ∈ d.steps → S b p o → S' b p o)
    (h : IdleTuples S partialFolds b d inits folded tuples) :
    IdleTuples S' partialFolds b d inits folded tuples :=
  Idle.imp (fun _ h => h.imp fun p o hp => hS b p o (.inl hp))
    (fun _ _ h => h.imp fun b p o hp => hS b p o (.inr hp)) h

end Idle

theorem comes_complete {rebuild : FoldState → Expr} (hheld : st.held ≠ [])
    (hprogress : (!st.progress || !site.partialFolds) = true) (hwhole : Comes P b whole o) :
    Comes P b ((planOf w site node d inits).complete st whole rebuild) o :=
  comes_if_neg (by simpa using hheld) (comes_if_pos hprogress hwhole)

section Stays

variable {enter : Address → Expr → Action}

/-- A node that takes its own children stays once they are walked, those left out at the end
included. -/
theorem comes_residual_all (hchildren : ∀ y, some y ∈ x.children → Stays P site enter b y)
    (hfix : x.withChildren x.children = .ok x) (htype : (site.book.typeOf? x).isSome) :
    Comes P b (site.residual x (x.children.map ofChild)) (.ofExpr x) := by
  refine comes_residual ?_ htype
  rwa [keepMissing_map_ofChild fun y hy => (hchildren y hy).expr]

variable {E : Memo → Prop} {bound : Prop} (hP : Lenient P)
  (hframes : ∀ (e : Expr) b, Frames book E bound b (e.walk site enter))
include hP hframes

theorem comes_foldElements {rebuild : FoldState → Expr}
    (hes : ∀ y, some y ∈ es → Stays P site enter b y)
    (hwhole : Comes P b (site.residual node (es.map ofChild)) o)
    (hidle : IdleList (Sure P (walk site enter)) site.partialFolds b d inits folded
      (es.map ofChild)) :
    Comes P b (foldElements (planOf (walk site enter) site node d inits) folded
      (es.map (Option.map (walk site enter))) rebuild) o := by
  refine (comes_runAll (forall₂_stays hes)).bind ?_
  cases hidle with
  | notStarted hstart => exact (comes_start? hstart).bind hwhole
  | held hstart hrun hheld hprogress =>
    exact (comes_start? hstart).bind ((comes_foldTuples hP hframes hrun).bind
      (comes_complete hheld hprogress hwhole))

theorem ListFold.stays (h : ListFold d e inits folded es)
    (hes : ∀ y, some y ∈ es → Stays P site enter b y)
    (hidle : IdleList (Sure P (walk site enter)) site.partialFolds b d inits folded
      (es.map ofChild)) : Stays P site enter b e := by
  cases h with
  | fold =>
    refine .mk rfl rfl ?_
    simp only [walk, walkDef_eq, walkSeeds_eq, walkAll_eq, resume_eq]
    exact comes_foldElements hP hframes hes (comes_residual_all hes rfl rfl) hidle
  | @reduce seed =>
    refine .mk rfl rfl ?_
    have hplan (node : Expr) : (⟨site, node, d.map (walk site enter),
        [seed.map (walk site enter)]⟩ : FoldPlan) =
          planOf (walk site enter) site node d [seed] := rfl
    simp only [walk, walkDef_eq, walkAll_eq, walkOption_eq, hplan]
    exact comes_foldElements hP hframes hes (comes_residual_all hes rfl rfl) hidle

theorem stays_foldArray (harray : ∀ y, array = some y → Stays P site enter b y)
    (hidle : IdleArray (Sure P (walk site enter)) b d (.ofChild array)) :
    Stays P site enter b (.foldArray d array t) := by
  refine .mk rfl rfl ?_
  have hchildren (y : Expr) (hy : some y ∈ [array]) : Stays P site enter b y :=
    harray y (mem_singleton.mp hy).symm
  have hwhole : Comes P b (site.residual (.foldArray d array t) [.ofChild array])
      (.residual (.foldArray d array t)) :=
    comes_residual_all (x := .foldArray d array t) hchildren rfl rfl
  have hrun : Comes P b (runAll [array.map (walk site enter)]) [.ofChild array] :=
    comes_runAll (forall₂_stays hchildren)
  have hplan (node : Expr) : FoldPlan.resume site node (d.map (walk site enter)) [] =
      planOf (walk site enter) site node d d.inits :=
    resume_eq _ (walk site enter) node d []
  simp only [walk, walkDef_eq, walkOption_eq, hplan]
  unfold foldArrayForm
  refine hrun.bind ?_
  dsimp only [List.headD_cons]
  cases helements : arrayElements? (.ofChild array) with
  | none => exact hwhole
  | some elements =>
    rcases hidle elements helements with hstart | ⟨st, hstart, hstuck⟩
    · exact (comes_start? hstart).bind hwhole
    · exact (comes_start? hstart).bind ((comes_foldWhole? hP hframes hstuck).bind hwhole)

theorem stays_foldVectors (hne : es ≠ []) (hlen : es.length = d.elementNames.length)
    (hes : ∀ y, some y ∈ es → Stays P site enter b y)
    (hsame : ∀ m, vectorElements? none 1 (es.map ofChild) ≠ some (.error m))
    (hidle : IdleVectors (Sure P (walk site enter)) site.partialFolds b d (d.start seeds) folded
      (es.map ofChild)) :
    Stays P site enter b (.foldVectors d seeds folded es t) := by
  refine .mk rfl rfl ?_
  have hwhole : Comes P b (site.residual (.foldVectors d seeds folded es t)
      (es.map ofChild)) (.residual (.foldVectors d seeds folded es t)) :=
    comes_residual_all (x := .foldVectors d seeds folded es t) hes rfl rfl
  simp only [walk, walkDef_eq, walkSeeds_eq, walkAll_eq, resume_eq]
  unfold foldVectorsForm
  refine (comes_runAll (forall₂_stays hes)).bind (comes_if_neg ?_ ?_)
  · simpa [planOf, hlen] using hne
  dsimp only
  cases hvectors : vectorElements? none 1 (es.map ofChild) with
  | none => exact hwhole
  | some r =>
    cases r with
    | error m => exact absurd hvectors (hsame m)
    | ok vectors =>
      cases hidle vectors hvectors with
      | notStarted hstart => exact (comes_start? hstart).bind hwhole
      | held hstart hrun hheld hprogress =>
        exact (comes_start? hstart).bind ((comes_foldTuples hP hframes hrun).bind
          (comes_complete hheld hprogress hwhole))

theorem stays_foldTable (htable : ∀ y, table = some y → Stays P site enter b y)
    (hidle : IdleTable (Sure P (walk site enter)) site.partialFolds b d (d.start seeds) folded
      (columns.getD []) filter column (ofChild table)) :
    Stays P site enter b (.foldTable d seeds folded columns filter column table t) := by
  refine .mk rfl rfl ?_
  have hchildren (y : Expr) (hy : some y ∈ [table]) : Stays P site enter b y :=
    htable y (mem_singleton.mp hy).symm
  have hwhole : Comes P b (site.residual
      (.foldTable d seeds folded columns filter column table t) [.ofChild table])
      (.residual (.foldTable d seeds folded columns filter column table t)) :=
    comes_residual_all (x := .foldTable d seeds folded columns filter column table t) hchildren
      rfl rfl
  simp only [walk, walkDef_eq, walkSeeds_eq, walkOption_eq, resume_eq]
  have hrun : Comes P b (runAll [table.map (walk site enter)]) [.ofChild table] :=
    comes_runAll (forall₂_stays hchildren)
  rw [foldTableForm_eq]
  refine hrun.bind ?_
  dsimp only [FoldPlan.foldTabled, List.headD_cons]
  split
  · rename_i rows cols elements heq
    obtain ⟨hcols, hlow, hhigh, hidle⟩ := hidle rows cols elements heq
    have hrow (row : List Outcome) (hmem : row ∈ (rowsOf cols.toNat elements.length
        (elements.map ofChild)).take rows.toNat) :
        row.length = (columns.getD []).length := by
      rw [length_of_mem_rowsOf (mem_of_mem_take hmem), hcols]
      rfl
    unfold foldRange
    refine comes_if_neg (not_not.mpr hcols) (comes_if_neg (by dsimp only; omega) ?_)
    cases hidle with
    | notStarted hstart => exact (comes_start? hstart).bind hwhole
    | held hstart hrun hheld hprogress =>
      obtain ⟨hsize, hall, hrun⟩ := hrun
      refine (comes_start? hstart).bind (comes_if_neg (not_not.mpr hsize) ?_)
      refine (comes_foldRows hP hframes hrow hrun).bind (comes_if_neg (by omega) ?_)
      exact comes_complete hheld hprogress hwhole
  · exact hwhole

end Stays

end FormulaFold
