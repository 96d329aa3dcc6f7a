import FormulaFold.Proofs.UpheldVectors

/-! # Folds over tables that are upheld

A fold over a table goes through its rows and passes over those that its filter drops.  The rows
that are held form a smaller table (`upholds_table`).

A table without rows has no columns in a run, which then fails.  Such tables must not occur where
failures have to be kept.
-/
namespace FormulaFold

variable {elements : Children}

/-! ## Rows -/

section Rows

variable {α : Type} {width n : Nat}

/-- Rows that are joined are cut apart again. -/
theorem rowsOf_flatten (hwidth : 0 < width) {rows : List (List α)}
    (h : ∀ row ∈ rows, row.length = width) (hn : rows.length ≤ n) :
    rowsOf width n rows.flatten = rows := by
  induction rows generalizing n with
  | nil =>
    cases n with
    | zero => rfl
    | succ n => rw [List.flatten_nil, rowsOf, if_pos (by simpa using hwidth)]
  | cons row rows ih =>
    have h := forall_mem_cons.mp h
    cases n with
    | zero => cases hn
    | succ n =>
      rw [List.flatten_cons, rowsOf, if_neg (by simp [h.1]), List.take_left' h.1,
        List.drop_left' h.1, ih h.2 (Nat.le_of_succ_le_succ hn)]

/-- A list that is cut into rows without a rest. -/
theorem flatten_rowsOf (hlength : xs.length = k * width) (hn : k ≤ n) :
    (rowsOf width n xs).take k = rowsOf width k xs ∧ (rowsOf width k xs).length = k ∧
      (rowsOf width k xs).flatten = xs := by
  induction k generalizing n xs with
  | zero =>
    rw [Nat.zero_mul] at hlength
    rw [length_eq_zero_iff.mp hlength]
    simp [rowsOf]
  | succ k ih =>
    obtain ⟨n, rfl⟩ : ∃ m, n = m + 1 := ⟨n - 1, by omega⟩
    rw [Nat.succ_mul] at hlength
    have hdrop : (xs.drop width).length = k * width := by rw [List.length_drop, hlength]; omega
    obtain ⟨htake, hcount, hflatten⟩ := ih hdrop (Nat.le_of_succ_le_succ hn)
    have hlt : ¬xs.length < width := by omega
    simp [rowsOf, hlt, htake, hcount, hflatten]

end Rows

variable {strict : Prop} {plain : Bool} {ev : Runner}
  {env : Env} {origin : Option Address} {b : Bindings} {d : FoldDef Expr}
  {inits : Children} {filter : Option Expr}

/-- What a row yields in a run. -/
abbrev Runner.RowRuns (ev : Runner) (env : Env) :
    List Outcome → List Value → Prop :=
  Forall₂ fun o v => ∃ y, ev.Runs env o.expr y ∧ v = y.single

section Tables

/-- **What a fold over a table yields**, said of the rows of the table. -/
theorem tableYields_iff
    (helements : ∀ ys, Forall₂ (ChildYields (ev.Runs env)) elements ys ↔
      Forall₂ (fun o : Outcome => ev.Runs env o.expr) rows.flatten ys)
    (hwidth : ∀ row ∈ rows, row.length = columns.length) (hne : rows ≠ [])
    (hcolumn : 0 ≤ column ∧ column < columns.length) :
    TableYields ev.Runs env d inits folded columns filter column
        (some (.range rows.length columns.length elements)) y ↔
      ∃ st, StartYields (ev.Runs env) inits folded st ∧
        ∃ st', (∃ vss, Forall₂ (ev.RowRuns env) rows vss ∧
            Folds (RowYields ev.Runs env d columns filter column) st vss st') ∧
          ResultYields ev.Runs env d st' y := by
  have hcols : 0 < columns.length := by omega
  have hrows : 0 < rows.length := length_pos_iff.mpr hne
  have hgrid (vs : List Value) : Value.grid rows.length columns.length vs =
      .array rows.length columns.length vs := if_neg (by omega)
  have hcount {vss : List (List Value)} (h : ∀ vs ∈ vss, vs.length = columns.length) :
      vss.flatten.length = vss.length * columns.length := by
    rw [List.length_flatten, map_congr_left h]
    simp
  have hle {vss : List (List Value)} (h : ∀ vs ∈ vss, vs.length = columns.length) :
      vss.length ≤ vss.flatten.length := by
    rw [hcount h]
    exact Nat.le_mul_of_pos_right _ hcols
  -- The rows of the values are the values of the rows.
  have hcut {vss : List (List Value)} (h : Forall₂ (ev.RowRuns env) rows vss) :
      rowsOf columns.length vss.flatten.length vss.flatten = vss ∧ vss.length = rows.length := by
    have hlengths : ∀ vs ∈ vss, vs.length = columns.length := by
      intro vs hvs
      obtain ⟨row, hrow, hruns⟩ := exists_of_forall₂_of_mem h hvs
      rw [← hruns.length_eq, hwidth row hrow]
    exact ⟨rowsOf_flatten hcols hlengths (hle hlengths), h.length_eq.symm⟩
  have hflatten {values : List Value} (h : ev.RowRuns env rows.flatten values) :
      ∃ vss, Forall₂ (ev.RowRuns env) rows vss ∧ values = vss.flatten := by
    have hlength : values.length = rows.length * columns.length := by
      rw [← h.length_eq, List.length_flatten, map_congr_left hwidth]
      simp
    have hlong : rows.length ≤ values.length := by
      rw [hlength]
      exact Nat.le_mul_of_pos_right _ hcols
    obtain ⟨_, _, hjoin⟩ := flatten_rowsOf hlength (Nat.le_refl _)
    refine ⟨_, ?_, hjoin.symm⟩
    have hforall := forall₂_rowsOf columns.length rows.length h
    rwa [rowsOf_flatten hcols hwidth (Nat.le_refl _)] at hforall
  constructor
  · rintro ⟨ht, hcols', _, hstart, hfolds, _, hy⟩
    obtain ⟨ys, hys, heq⟩ := runs_range.mp ht
    rw [hgrid] at heq
    cases heq
    obtain ⟨vss, hvss, heq⟩ := hflatten (forall₂_exists.mpr ⟨ys, (helements ys).mp hys, rfl⟩)
    obtain ⟨hrowsOf, hlength⟩ := hcut hvss
    refine ⟨_, hstart, _, ⟨vss, hvss, ?_⟩, hy⟩
    rwa [heq, Int.toNat_natCast, Int.toNat_natCast, hrowsOf, ← hlength, List.take_length] at hfolds
  · rintro ⟨st, hstart, st', ⟨vss, hvss, hfolds⟩, hy⟩
    obtain ⟨hrowsOf, hlength⟩ := hcut hvss
    obtain ⟨ys, hys, heq⟩ := forall₂_exists.mp (List.rel_flatten hvss)
    have ht : ev.Runs env (.range rows.length columns.length elements)
        (.one (.array rows.length columns.length vss.flatten)) :=
      runs_range.mpr ⟨ys, (helements ys).mpr hys, by rw [hgrid, heq]⟩
    refine .mk ht rfl hcolumn hstart ?_ ?_ hy
    · rwa [Int.toNat_natCast, Int.toNat_natCast, hrowsOf, ← hlength, List.take_length]
    · rw [Int.toNat_natCast, hrowsOf, hlength]

theorem spreads_rows {vss : List (List Value)} :
    Spreads (fun row ws => ∃ vs, ev.RowRuns env row vs ∧ ws = [vs]) rows vss ↔
      Forall₂ (ev.RowRuns env) rows vss := by
  have hjoin (vss : List (List Value)) : (vss.map ([·])).flatten = vss := by
    rw [← List.flatMap_def]
    exact List.flatMap_singleton' vss
  constructor
  · rintro ⟨wss, hwss, rfl⟩
    obtain ⟨vss, hvss, rfl⟩ := forall₂_exists.mp hwss
    rwa [hjoin]
  · intro h
    exact ⟨_, forall₂_exists.mpr ⟨vss, h, rfl⟩, (hjoin vss).symm⟩

/-- A known row yields its values. -/
theorem rowRuns_of_fits {row : List Outcome} (hrow : ∀ o ∈ row, o.Fits plain) {vs : List Value} :
    ev.RowRuns env row vs ↔ vs = row.map (·.value) := by
  have hruns (ys : List Yield) : Forall₂ (fun o => ev.Runs env o.expr) row ys ↔
      ys = row.map Outcome.yield :=
    runs_constants (fun o ho => (hrow o ho).isConstant)
      (fun o ho => (hrow o ho).isSorted .argument) ys
  refine forall₂_exists.trans ?_
  simp only [hruns, exists_eq_left, map_single_yield hrow]

end Tables

/-! ## Rows that are taken and held -/

section Taking

theorem FoldDef.map_rowElements {ε α β : Type} (d : FoldDef ε) (column : Int) (f : α → β)
    (row : List α) : (d.rowElements column row).map f = d.rowElements column (row.map f) := by
  unfold FoldDef.rowElements
  split
  · rfl
  · rw [getElem?_map]
    cases row[column.toNat]? <;> rfl

variable (hmeets : ev.Meets strict plain origin b env)
  (hfilter : ∀ x, filter = some x → x.isSorted plain .scalar = true ∧
    ev.Admits strict plain x)
include hmeets hfilter

/-- Whether a known row passes the filter is the same in a run. -/
theorem upholds_pass (hrow : ∀ o ∈ row, o.Fits plain) (hwidth : row.length = columns.length)
    {r : Option Bool} {p : Bool} (hr : r = some p)
    (h : PassGives (ev.Sound strict plain origin) b columns filter row r) :
    Upholds strict (PassYields ev.Runs env columns filter (row.map (·.value)))
      (· = p) := by
  cases h with
  | all hnone =>
    cases hr
    refine .of_iff fun p => ⟨?_, ?_⟩
    · rintro (_ | ⟨he, _⟩)
      · rfl
      · cases hnone.symm.trans he
    · rintro rfl
      exact .all hnone
  | @tested e x he ho =>
    have hpairs : ∀ pair ∈ columns.zip row, pair.2.Fits plain := fun pair hpair =>
      hrow _ (of_mem_zip hpair).2
    have hupheld := upheldScalar_of_sound hmeets hpairs (hfilter e he).2 (hfilter e he).1 ho
    rw [Bindings.valuesOf_zip] at hupheld
    cases x with
    | residual x => cases hr
    | known v t =>
      have htruth : v.toBool = .ok p := by
        simp only [Outcome.truth?] at hr
        cases htruth : v.toBool with
        | ok c =>
          rw [htruth] at hr
          cases hr
          rfl
        | error f =>
          rw [htruth] at hr
          cases hr
      constructor
      · rintro c (hnone | ⟨he', _, hy, hc⟩)
        · cases he.symm.trans hnone
        · cases he.symm.trans he'
          rw [runs_constant.mp (hupheld.1.forth _ hy), Yield.toBool, htruth] at hc
          cases hc
          rfl
      · rintro hs _ rfl
        exact .tested he (by simpa using hwidth.symm)
          (hupheld.1.back hs _ (runs_constant.mpr rfl)) htruth

variable (hd : d.Sorted plain) (hparts : ∀ x ∈ d.parts, ev.Admits strict plain x)
include hd hparts

/-- **Rows are taken or dropped as a run does it.** -/
theorem takes_of_rowsGive {rows : List (List Outcome)}
    (hknown : ∀ row ∈ rows, ∀ o ∈ row, o.isKnown = true → o.Fits plain)
    (hwidth : ∀ row ∈ rows, row.length = columns.length) (hst : st.Sets plain inits)
    (h : RowsGive (ev.Sound strict plain origin) b d columns filter column st rows st') :
    Folds (FoldState.Takes strict d.orderSensitive (List.map (·.expr))
        (fun st row => RowYields ev.Runs env d columns filter column st
          (row.map (·.value)))
        (fun row => ∀ o ∈ row, o.Fits plain)) st rows st' ∧
      st'.Sets plain inits := by
  refine h.imp_keeping (fun _ row _ hrow hst h => takes_of_itemGives (f := id) hmeets hd hparts
    (hknown row hrow) (fun hfits => ⟨fun o ho => hfits o (d.mem_of_mem_rowElements ho),
      fun _ hpair => hfits _ (of_mem_zip hpair).2⟩) (fun hfits hpass rs => ?_)
    (fun hfits hpass rs rs' hstep => ?_) hst h) hst
  · have hpass := upholds_pass hmeets hfilter hfits (hwidth row hrow) rfl hpass
    constructor
    · rintro _ (_ | ⟨htrue, _⟩)
      · rfl
      · cases hpass.forth _ htrue
    · rintro hs _ rfl
      exact .dropped (hpass.back hs _ rfl)
  · have hpass := upholds_pass hmeets hfilter hfits (hwidth row hrow) rfl hpass
    rw [Bindings.valuesOf_zip, FoldDef.map_rowElements] at hstep
    constructor
    · rintro _ (hfalse | ⟨_, hy⟩)
      · cases hpass.forth _ hfalse
      · exact hstep.forth _ hy
    · rintro hs _ rfl
      exact .taken (hpass.back hs _ rfl) (hstep.back hs _ rfl)

end Taking

/-! ## Tables that are folded -/

section Folding

theorem upholds_tableYields {M : Env → Yielding}
    (h : Upholds strict (ChildYields (M env) table) (ChildYields (M env) table')) :
    Upholds strict (TableYields M env d inits folded columns filter column table)
      (TableYields M env d inits folded columns filter column table') := by
  constructor
  · rintro y ⟨htable, hcols, hcolumn, hstart, hfolds, hall, hy⟩
    exact .mk (h.forth _ htable) hcols hcolumn hstart hfolds hall hy
  · rintro hs y ⟨htable, hcols, hcolumn, hstart, hfolds, hall, hy⟩
    exact .mk (h.back hs _ htable) hcols hcolumn hstart hfolds hall hy

theorem childYields_ofChild {ys : List Yield} :
    Forall₂ (ChildYields (ev.Runs env)) elements ys ↔
      Forall₂ (fun o : Outcome => ev.Runs env o.expr)
        (elements.map ofChild) ys := by
  rw [forall₂_map_left_iff]
  simp only [runs_ofChild]

/-- The rows that are held, as a table again. -/
theorem flatten_map_expr (rows : List (List Outcome)) :
    ((rows.map (List.map (·.expr))).flatten).map some = rows.flatten.map fun o => some o.expr := by
  rw [← List.map_flatten, map_map]
  rfl

/-- A table without rows has no columns in a run. -/
theorem not_tableYields_of_no_rows (hlength : elements = []) (hcolumn : 0 ≤ column) :
    ¬TableYields ev.Runs env d inits folded columns filter column
      (some (.range 0 cols elements)) y := by
  subst hlength
  rintro ⟨htable, hcols, hcolumn', _⟩
  obtain ⟨ys, ⟨⟩, heq⟩ := runs_range.mp htable
  rw [Value.grid, if_pos (.inl (Int.le_refl 0))] at heq
  cases heq
  simp at hcolumn'
  omega

/-- The rows of a table that is written out. -/
theorem exists_rows_of_fitsShape {rows : Int} (hshape : fitsShape rows cols elements.length = true)
    (hcols : 0 < cols) (hrows : rows ≠ 0) :
    ∃ table : List (List Outcome), elements.map ofChild = table.flatten ∧
      (table.length : Int) = rows ∧ table ≠ [] ∧ (∀ row ∈ table, (row.length : Int) = cols) ∧
      (rowsOf cols.toNat elements.length (elements.map ofChild)).take rows.toNat = table := by
  simp only [fitsShape, and_eq_true, beq_iff_eq] at hshape
  have hpos : 0 < rows := by
    by_contra hneg
    have := Int.mul_neg_of_neg_of_pos (by omega : rows < 0) hcols
    omega
  have hlength : (elements.map ofChild).length = rows.toNat * cols.toNat := by
    refine Int.natCast_inj.mp ?_
    rw [length_map, Int.natCast_mul, Int.toNat_of_nonneg (by omega),
      Int.toNat_of_nonneg (by omega), hshape.1]
  have hle : rows.toNat ≤ elements.length := by
    rw [length_map] at hlength
    rw [hlength]
    exact Nat.le_mul_of_pos_right _ (by omega)
  obtain ⟨htake, hcount, hflatten⟩ := flatten_rowsOf hlength hle
  refine ⟨_, hflatten.symm, by omega, ?_, fun row hrow => ?_, htake⟩
  · intro hnil
    rw [hnil] at hcount
    simp at hcount
    omega
  · rw [length_of_mem_rowsOf hrow]
    omega

variable {seeds : List Expr} {names : Option (List String)} {t : DataType}

theorem runs_foldTable (y : Yield) :
    ev.Runs env (.foldTable d seeds folded names filter column table t) y ↔
      TableYields ev.Runs env d (d.start seeds) folded (names.getD []) filter column table y := by
  rw [runs_iff]
  exact ⟨fun h => by cases h; assumption, .foldTable⟩

variable (hmeets : ev.Meets strict plain origin b env) (hd : d.Sorted plain)
  (hparts : ∀ x ∈ d.parts, ev.Admits strict plain x)
  (hinits : ∀ x, some x ∈ d.start seeds → x.isSorted plain .scalar = true ∧
    ev.Admits strict plain x)
  (hfilter : ∀ x, filter = some x → x.isSorted plain .scalar = true ∧
    ev.Admits strict plain x)
include hmeets hd hparts hinits hfilter

/-- **A fold over a table is upheld** if the table is.  Rows that are not folded in order must lead
to the same accumulators in any order. -/
theorem upholds_table {partialFolds : Bool}
    (horder : d.orderSensitive = true ∨
      ¬strict ∧ OrderFree (RowYields ev.Runs env d (names.getD []) filter column)
        (·.length = (names.getD []).length) (d.start seeds))
    (ha : Child (ev.Upheld strict env) table a) (hsorted : a.expr.isSorted plain .argument = true)
    (hempty : strict → ∀ rows cols elements, a.expr = .range rows cols elements → rows ≠ 0)
    (h : TableGives (ev.Sound strict plain origin) b d partialFolds
      (.foldTable d seeds folded names filter column table t) (d.start seeds) folded
      (names.getD []) filter column
      (fun st table => .foldTable d st.seeds st.folded names filter column (some table) t) a o) :
    ev.Upheld strict env (.foldTable d seeds folded names filter column table t) o := by
  have hwhole (o : Outcome)
      (ho : Rebuilt (.foldTable d seeds folded names filter column table t) [a] o) :
      ev.Upheld strict env (.foldTable d seeds folded names filter column table t) o := by
    obtain ⟨_, ⟨⟩, rfl⟩ := ho
    refine (Upholds.of_iff runs_foldTable).trans ((upholds_tableYields ?_).trans
      (.of_iff fun y => (runs_foldTable y).symm.trans runs_ofExpr.symm))
    cases table with
    | none => exact .refl _
    | some x => exact ha
  cases h with
  | sized _ ho | notStarted _ _ _ ho => exact hwhole o ho
  | @folded rows cols elements st st' _ heq hcols hcolumn hstart _ _ hrows ho =>
    subst heq
    have htable :
        Upholds strict (ev.Runs env (.foldTable d seeds folded names filter column table t))
        (TableYields ev.Runs env d (d.start seeds) folded (names.getD []) filter column
          (some (.range rows cols elements))) := by
      refine (Upholds.of_iff runs_foldTable).trans (upholds_tableYields ?_)
      cases table with
      | none => cases ha
      | some x => exact ha
    rw [Outcome.expr, isSorted, and_eq_true] at hsorted
    by_cases hzero : rows = 0
    · subst hzero
      have hnil : elements = [] := by
        have hshape := hsorted.1
        simp only [Place.takesRange, fitsShape, and_eq_true, beq_iff_eq, Int.zero_mul] at hshape
        exact length_eq_zero_iff.mp (by omega)
      constructor
      · intro y hy
        exact absurd (htable.forth y hy) (not_tableYields_of_no_rows hnil hcolumn.1)
      · intro hs
        exact absurd rfl (hempty hs 0 cols elements rfl)
    · obtain ⟨orows, helements, hlength, hne, hwidth, htake⟩ :=
        exists_rows_of_fitsShape hsorted.1 (by omega) hzero
      subst hlength hcols
      have hwidth (row : List Outcome) (hrow : row ∈ orows) :
          row.length = (names.getD []).length := by
        exact_mod_cast hwidth row hrow
      have hscalar : ∀ row ∈ orows, ∀ o ∈ row, o.expr.isSorted plain .scalar = true := by
        intro row hrow o ho
        have hmem : o ∈ elements.map ofChild := by
          rw [helements]
          exact List.mem_flatten.mpr ⟨row, hrow, ho⟩
        obtain ⟨e, he, rfl⟩ := mem_map.mp hmem
        exact isSorted_ofChild (optionSorted_iff.mpr fun y hy =>
          allSorted_iff.mp hsorted.2 y (hy ▸ he))
      rw [htake] at hrows
      have hst := sets_of_startGives hmeets (fun x hx => (hinits x hx).1) hstart
      obtain ⟨htakes, hst'⟩ := takes_of_rowsGive hmeets hfilter hd hparts
        (fun row hrow o ho => fits_of_isKnown (hscalar row hrow o ho)) hwidth hst hrows
      obtain ⟨taken, held, hparted⟩ := exists_parts htakes
      have hheld : st'.held = held.map (List.map (·.expr)) := by
        rw [hparted.held, held_of_startGives hstart rfl, nil_append]
      let cont (y : Yield) : Prop := ∃ st₂, (∃ vss,
        Forall₂ (ev.RowRuns env) held vss ∧
          Folds (RowYields ev.Runs env d (names.getD []) filter column) st'.run vss st₂) ∧
            ResultYields ev.Runs env d st₂ y
      have hcont : Upholds strict
          (ev.Runs env (.foldTable d seeds folded names filter column table t)) cont := by
        have hknown (row : List Outcome) (hrow : ∀ o ∈ row, o.Fits plain)
            (ws : List (List Value)) : (∃ vs, ev.RowRuns env row vs ∧ ws = [vs]) ↔
              ws = [row.map (·.value)] := by
          simp only [rowRuns_of_fits hrow, exists_eq_left]
        have hlengths (vss : List (List Value)) (hvss : Spreads (fun row ws => ∃ vs,
            ev.RowRuns env row vs ∧ ws = [vs]) orows vss) (vs : List Value)
            (hvs : vs ∈ vss) : vs.length = (names.getD []).length := by
          obtain ⟨row, hrow, hruns⟩ := exists_of_forall₂_of_mem (spreads_rows.mp hvss) hvs
          rw [← hruns.length_eq, hwidth row hrow]
        have hfolds := hparted.upholds
          (RowYields ev.Runs env d (names.getD []) filter column) (List.map Outcome.value) hknown
          (horder.imp_right fun h => ⟨h.1, fun us ws st'' hus =>
            h.2 st hst.sized us ws st'' (hlengths us hus)⟩)
        refine htable.trans ((Upholds.of_iff fun y => tableYields_iff
          (fun ys => helements ▸ childYields_ofChild) hwidth hne hcolumn).trans
          ((upholds_startGives hmeets hinits hstart).exists_eq.trans
            (.exists_and (.trans (.of_iff fun st₂ => ?_) (hfolds.trans (.of_iff fun st₂ => ?_)))
              fun _ _ => .refl _)))
        · exact exists_congr fun vss => and_congr_left fun _ => spreads_rows.symm
        · exact exists_congr fun vss => and_congr_left fun _ => spreads_rows
      refine upholds_complete hmeets hd hparts hst'.fits hcont (fun hnil y => ?_) (fun hne y => ?_)
        hwhole ho
      · have hnil : held = [] := map_eq_nil_iff.mp (hheld.symm.trans hnil)
        subst hnil
        constructor
        · rintro ⟨st₂, ⟨_, ⟨⟩, ⟨⟩⟩, hy⟩
          exact hy
        · intro hy
          exact ⟨_, ⟨[], .nil, .nil⟩, hy⟩
      · have hwidth' (row : List Outcome) (hrow : row ∈ held) :
            row.length = (names.getD []).length :=
          hwidth row (hparted.perm.mem_iff.mpr (List.mem_append_right _ hrow))
        rw [hheld, map_eq_nil_iff.ne] at hne
        rw [runs_foldTable, hst'.sized.start_eq, hheld, flatten_map_expr, length_map,
          tableYields_iff (fun ys => forall₂_map_left_iff) hwidth' hne hcolumn]
        simp only [startYields_resumed hst', exists_eq_left]
        rfl

end Folding

end FormulaFold
