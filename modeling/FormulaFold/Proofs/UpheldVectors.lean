import FormulaFold.Proofs.UpheldLists

/-! # Folds over vectors that are upheld

A fold over vectors goes through their leaves position by position.  The positions at which all
vectors are known come first; what is left of the vectors after them forms a smaller fold
(`upholds_vectors`).
-/
namespace FormulaFold

open List

variable {vectors : List (List Outcome)} {v : List Outcome} {m width : Nat}

/-! ## Columns -/

section Columns

variable {α β : Type} {rows : List (List α)}

theorem columnsOf_add (m k : Nat) (rows : List (List α)) :
    columnsOf (m + k) rows = columnsOf m rows ++ columnsOf k (rows.map (List.drop m)) := by
  simp [columnsOf, range_add, filterMap_map, Function.comp_def]

theorem columnsOf_map (f : α → β) (width : Nat) (rows : List (List α)) :
    columnsOf width (rows.map (List.map f)) = (columnsOf width rows).map (List.map f) := by
  simp [columnsOf, filterMap_map, Function.comp_def, map_filterMap]

theorem columnsOf_take (m : Nat) (rows : List (List α)) :
    columnsOf m (rows.map (List.take m)) = columnsOf m rows := by
  refine map_congr_left fun i hi => ?_
  rw [filterMap_map]
  refine filterMap_congr fun row _ => ?_
  rw [Function.comp_apply, getElem?_take_of_lt (mem_range.mp hi)]

theorem length_columnsOf (width : Nat) (rows : List (List α)) :
    (columnsOf width rows).length = width := by
  simp [columnsOf]

theorem getElem?_filterMap_getElem? {i : Nat} (h : ∀ row ∈ rows, i < row.length) (j : Nat) :
    (rows.filterMap (·[i]?))[j]? = rows[j]?.bind (·[i]?) := by
  induction rows generalizing j with
  | nil => rfl
  | cons row rows ih =>
    have h := forall_mem_cons.mp h
    simp only [filterMap_cons, getElem?_eq_getElem h.1]
    cases j with
    | zero => simp [getElem?_eq_getElem h.1]
    | succ j => simp [ih h.2]

theorem filterMap_range_getElem? (l : List α) : (List.range l.length).filterMap (l[·]?) = l := by
  induction l with
  | nil => rfl
  | cons a l ih =>
    simp only [length_cons, range_succ_eq_map, filterMap_cons, getElem?_cons_zero,
      filterMap_map, Function.comp_def, Nat.succ_eq_add_one, getElem?_cons_succ, ih]

/-- The first columns, and the columns after them. -/
theorem exists_of_columnsOf_eq_append
    (h : columnsOf width rows = first ++ rest) : ∃ m, m ≤ width ∧ first = columnsOf m rows ∧
      rest = columnsOf (width - m) (rows.map (List.drop m)) := by
  have hle : first.length ≤ width := by
    have hlength := congrArg List.length h
    rw [length_columnsOf, length_append] at hlength
    omega
  refine ⟨first.length, hle, append_inj (h.symm.trans ?_) (length_columnsOf _ _).symm⟩
  rw [← columnsOf_add, Nat.add_sub_cancel' hle]

/-- The columns of columns are the rows. -/
theorem columnsOf_columnsOf (h : ∀ row ∈ rows, row.length = width) :
    columnsOf rows.length (columnsOf width rows) = rows := by
  refine ext_getElem (length_columnsOf _ _) fun j _ hj => ?_
  have hrow := h rows[j] (getElem_mem hj)
  simp only [columnsOf, getElem_map, getElem_range, filterMap_map]
  rw [← hrow]
  refine (filterMap_congr fun i hi => ?_).trans (filterMap_range_getElem? rows[j])
  have hlt : ∀ row ∈ rows, i < row.length := fun row hmem => by
    rw [h row hmem, ← hrow]
    exact mem_range.mp hi
  rw [Function.comp_apply, getElem?_filterMap_getElem? hlt, getElem?_eq_getElem hj,
    bind_some]

theorem columnsOf_columnsOf_drop (h : ∀ row ∈ rows, row.length = width) (m : Nat) :
    columnsOf rows.length (columnsOf (width - m) (rows.map (List.drop m))) =
      rows.map (List.drop m) := by
  have hdropped : ∀ row ∈ rows.map (List.drop m), row.length = width - m := by
    intro row hrow
    obtain ⟨v, hv, rfl⟩ := mem_map.mp hrow
    rw [length_drop, h v hv]
  have hcolumns := columnsOf_columnsOf hdropped
  rwa [length_map] at hcolumns

theorem length_of_mem_columnsOf (h : ∀ row ∈ rows, row.length = width) {column : List α}
    (hcolumn : column ∈ columnsOf width rows) : column.length = rows.length := by
  obtain ⟨i, hi, rfl⟩ := mem_map.mp hcolumn
  induction rows with
  | nil => rfl
  | cons row rows ih =>
    have h := forall_mem_cons.mp h
    have hlt : i < row.length := h.1.symm ▸ mem_range.mp hi
    simp only [filterMap_cons, getElem?_eq_getElem hlt, length_cons,
      ih h.2 (mem_map.mpr ⟨i, hi, rfl⟩)]

end Columns

/-! ## Columns of leaves -/

section Leaves

variable {α β γ : Type} {strict : Prop} {plain : Bool} {ev : Runner} {n : Nat}
  {env : Env}

theorem forall₂_exists {R : α → β → Prop} {g : β → γ} :
    Forall₂ (fun x z => ∃ y, R x y ∧ z = g y) xs zs ↔
      ∃ ys, Forall₂ R xs ys ∧ zs = ys.map g := by
  constructor
  · intro h
    induction h with
    | nil => exact ⟨[], .nil, rfl⟩
    | cons h _ ih =>
      obtain ⟨y, hy, rfl⟩ := h
      obtain ⟨ys, hys, rfl⟩ := ih
      exact ⟨y :: ys, .cons hy hys, rfl⟩
  · rintro ⟨ys, hys, rfl⟩
    exact forall₂_map_right_iff.mpr (hys.imp fun x y hy => ⟨y, hy, rfl⟩)

/-- The columns of vectors, given the leaves of each.  The vectors have to be of equal length. -/
def ColumnsYield (L : α → List Value → Prop) (xs : List α) (columns : List (List Value)) : Prop :=
  ∃ lss k, Forall₂ L xs lss ∧ (∀ ls ∈ lss, ls.length = k) ∧ columns = columnsOf k lss

theorem upholds_columns {L : α → List Value → Prop} {L' : β → List Value → Prop}
    (h : Forall₂ (fun x x' => Upholds strict (L x) (L' x')) xs xs') :
    Upholds strict (ColumnsYield L xs) (ColumnsYield L' xs') := by
  have hlists := Upholds.forall₂ h
  constructor
  · rintro columns ⟨lss, k, hlss, hk⟩
    exact ⟨lss, k, hlists.forth lss hlss, hk⟩
  · rintro hs columns ⟨lss, k, hlss, hk⟩
    exact ⟨lss, k, hlists.back hs lss hlss, hk⟩

theorem columnsYield_congr {L : α → List Value → Prop} {L' : β → List Value → Prop}
    (h : Forall₂ (fun x x' => ∀ ls, L x ls ↔ L' x' ls) xs xs') :
    ColumnsYield L xs columns ↔ ColumnsYield L' xs' columns := by
  have hupholds : Upholds True (ColumnsYield L xs) (ColumnsYield L' xs') :=
    upholds_columns (h.imp fun _ _ => .of_iff)
  exact ⟨hupholds.forth columns, hupholds.back trivial columns⟩

theorem columnsYield_map {L : β → List Value → Prop} {f : α → β} :
    ColumnsYield L (xs.map f) columns ↔ ColumnsYield (fun x => L (f x)) xs columns := by
  simp only [ColumnsYield, forall₂_map_left_iff]

/-- The leaves of a vector that is known up to a position. -/
theorem outcomeLeaves_drop (hv : ∀ o ∈ v.take m, o.Fits plain) {ls : List Value} :
    ev.OutcomeLeaves env v ls ↔
      ∃ rest, ev.OutcomeLeaves env (v.drop m) rest ∧
        ls = (v.take m).map (·.value) ++ rest := by
  have hsplit : ev.OutcomeLeaves env (v.take m ++ v.drop m) ls ↔ _ := leavesYield_append
  rw [take_append_drop] at hsplit
  refine hsplit.trans ⟨?_, ?_⟩
  · rintro ⟨known, rest, hknown, hrest, rfl⟩
    rw [(outcomeLeaves_of_fits hv).mp hknown]
    exact ⟨rest, hrest, rfl⟩
  · rintro ⟨rest, hrest, rfl⟩
    exact ⟨_, rest, (outcomeLeaves_of_fits hv).mpr rfl, hrest, rfl⟩

theorem columnsYield_nil (hne : vectors ≠ []) (h : ∀ v ∈ vectors, v = []) :
    ColumnsYield (ev.OutcomeLeaves env) vectors columns ↔ columns = [] := by
  have hempty : Forall₂ (ev.OutcomeLeaves env) vectors (vectors.map fun _ => []) :=
    forall₂_map_right_iff.mpr (forall₂_same.mpr fun v hv => by
      rw [h v hv]
      exact leavesYield_nil.mpr rfl)
  constructor
  · rintro ⟨lss, k, hlss, hk, rfl⟩
    cases hlss with
    | nil => exact absurd rfl hne
    | cons hls _ =>
      rw [h _ mem_cons_self] at hls
      rw [← hk _ mem_cons_self, leavesYield_nil.mp hls]
      rfl
  · rintro rfl
    exact ⟨_, 0, hempty, by simp, rfl⟩

variable (hvectors : ∀ v ∈ vectors, m ≤ v.length ∧ ∀ o ∈ v.take m, o.Fits plain)
include hvectors

/-- The columns of vectors that are known up to a position start with the known ones. -/
theorem columnsOf_leaves {lss : List (List Value)}
    (h : Forall₂ (ev.OutcomeLeaves env) vectors lss) (k : Nat) :
    columnsOf (m + k) lss =
      (columnsOf m vectors).map (List.map (·.value)) ++ columnsOf k (lss.map (List.drop m)) := by
  have htake : lss.map (List.take m) = (vectors.map (List.take m)).map (List.map (·.value)) := by
    induction h with
    | nil => rfl
    | cons hls _ ih =>
      have hall := forall_mem_cons.mp hvectors
      obtain ⟨rest, _, rfl⟩ := (outcomeLeaves_drop hall.1.2).mp hls
      simp only [map_cons, ih hall.2]
      rw [take_left' (by simpa using hall.1.1)]
  rw [columnsOf_add, ← columnsOf_take, htake, columnsOf_map, columnsOf_take]

/-- **Vectors that are known up to a position have the known columns first**, and then those of what
is left of them. -/
theorem columnsYield_drop (hne : vectors ≠ []) :
    ColumnsYield (ev.OutcomeLeaves env) vectors columns ↔
      ∃ rest, ColumnsYield (ev.OutcomeLeaves env) (vectors.map (List.drop m)) rest ∧
        columns = (columnsOf m vectors).map (List.map (·.value)) ++ rest := by
  have hdrop {v : List Outcome} (hv : v ∈ vectors) (rest : List Value) :
      ((v.take m).map (·.value) ++ rest).drop m = rest :=
    drop_left' (by simpa using (hvectors v hv).1)
  constructor
  · rintro ⟨lss, k, hlss, hk, rfl⟩
    have hrest : Forall₂ (ev.OutcomeLeaves env) (vectors.map (List.drop m))
        (lss.map (List.drop m)) := by
      rw [forall₂_map_left_iff, forall₂_map_right_iff]
      refine forall₂_imp_of_mem (fun v hv ls hls => ?_) hlss
      obtain ⟨rest, hrest, rfl⟩ := (outcomeLeaves_drop (hvectors v hv).2).mp hls
      rwa [hdrop hv]
    have hle : m ≤ k := by
      cases hlss with
      | nil => exact absurd rfl hne
      | cons hls _ =>
        obtain ⟨rest, _, rfl⟩ := (outcomeLeaves_drop (hvectors _ mem_cons_self).2).mp hls
        rw [← hk _ mem_cons_self]
        simp only [length_append, length_map, length_take]
        have := (hvectors _ mem_cons_self).1
        omega
    refine ⟨columnsOf (k - m) (lss.map (List.drop m)), ⟨_, _, hrest, fun ls hls => ?_, rfl⟩, ?_⟩
    · obtain ⟨ls, hmem, rfl⟩ := mem_map.mp hls
      rw [length_drop, hk ls hmem]
    · rw [← columnsOf_leaves hvectors hlss, Nat.add_sub_cancel' hle]
  · rintro ⟨_, ⟨rss, k, hrss, hk, rfl⟩, rfl⟩
    rw [forall₂_map_left_iff] at hrss
    have hextended := forall₂_imp_of_mem (fun v hv rest hrest =>
      (⟨_, (outcomeLeaves_drop (hvectors v hv).2).mpr ⟨rest, hrest, rfl⟩, (hdrop hv rest).symm⟩ :
        ∃ ls, ev.OutcomeLeaves env v ls ∧ rest = ls.drop m)) hrss
    obtain ⟨lss, hlss, rfl⟩ := forall₂_exists.mp hextended
    refine ⟨lss, m + k, hlss, fun ls hls => ?_, (columnsOf_leaves hvectors hlss k).symm⟩
    obtain ⟨v, hv, hleaves⟩ := exists_of_forall₂_of_mem hlss hls
    obtain ⟨rest, _, rfl⟩ := (outcomeLeaves_drop (hvectors v hv).2).mp hleaves
    have hlength := hk _ (mem_map.mpr ⟨_, hls, rfl⟩)
    rw [hdrop hv] at hlength
    have := (hvectors v hv).1
    simp only [length_append, length_map, length_take]
    omega

end Leaves

/-! ## Vectors -/

section Vectors

variable {strict : Prop} {plain : Bool} {ev : Runner}
  {env : Env} {o : Outcome} {d : FoldDef Expr} {inits es : Children} {folded : Nat}
  {os : List Outcome}

/-- Where a run gets to that goes through the columns of vectors, given the leaves of each. -/
abbrev Runner.FoldsColumns {α : Type} (ev : Runner)
    (env : Env) (d : FoldDef Expr) (L : α → List Value → Prop) (xs : List α) (st st' : RunFold) :
    Prop :=
  ∃ columns, ColumnsYield L xs columns ∧ ElementsYield ev.Runs env d st columns st'

theorem vectorsYield_iff {y : Yield} : VectorsYield ev.Runs env d inits folded es y ↔
    (es ≠ [] ∧ es.length = d.elementNames.length) ∧
      ∃ st, StartYields (ev.Runs env) inits folded st ∧
        ∃ st', ev.FoldsColumns env d (fun e => ev.ChildLeaves env [e]) es st st' ∧
          ResultYields ev.Runs env d st' y := by
  have hleaves (lss : List (List Value)) :
      Forall₂ (fun e => ev.ChildLeaves env [e]) es lss ↔
        ∃ ys, Forall₂ (ChildYields (ev.Runs env)) es ys ∧ lss = ys.map Yield.leaves := by
    rw [← forall₂_exists]
    have hchild : (fun e => ev.ChildLeaves env [e]) = fun e ls =>
        ∃ y, ChildYields (ev.Runs env) e y ∧ ls = y.leaves :=
      funext fun e => funext fun ls => propext leavesYield_singleton
    rw [hchild]
  constructor
  · rintro ⟨hne, hlen, hys, hn, hstart, hfolds, hy⟩
    refine ⟨⟨hne, hlen⟩, _, hstart, _, ⟨_, ⟨_, _, (hleaves _).mpr ⟨_, hys, rfl⟩, ?_, rfl⟩, hfolds⟩,
      hy⟩
    exact forall_mem_map.mpr hn
  · rintro ⟨⟨hne, hlen⟩, st, hstart, st', ⟨_, ⟨_, k, hlss, hk, rfl⟩, hfolds⟩, hy⟩
    obtain ⟨ys, hys, rfl⟩ := (hleaves _).mp hlss
    exact .mk hne hlen hys (forall_mem_map.mp hk) hstart hfolds hy

/-- The columns of what is left of vectors. -/
theorem columnsYield_vector {columns : List (List Value)} :
    ColumnsYield (fun e => ev.ChildLeaves env [e])
        (vectors.map fun v => some (Expr.vector (v.map (·.expr)))) columns ↔
      ColumnsYield (ev.OutcomeLeaves env) vectors columns := by
  refine columnsYield_map.trans (columnsYield_congr (forall₂_same.mpr fun v _ ls => ?_))
  refine childLeaves_some.trans (leavesYield_range.trans ?_)
  rw [map_map]
  exact childLeaves_map_expr

/-- A known column is known in every vector. -/
theorem fits_of_columns (h : ∀ column ∈ columnsOf m vectors, ∀ o ∈ column, o.Fits plain)
    (hv : v ∈ vectors) : ∀ o ∈ v.take m, o.Fits plain := by
  intro o ho
  obtain ⟨i, hi, rfl⟩ := mem_iff_getElem.mp ho
  have hlt : i < m ∧ i < v.length := by simpa using hi
  refine h _ (mem_map.mpr ⟨i, mem_range.mpr hlt.1, rfl⟩) _
    (mem_filterMap.mpr ⟨v, hv, ?_⟩)
  rw [getElem_take, getElem?_eq_getElem hlt.2]

/-- The columns of vectors in a run: first those that are known, then those of what is left. -/
theorem upholds_columns_drop
    (hos : Forall₂ (Child (ev.UpheldLeaves strict env)) es os)
    (helements : Forall₂ (fun o v => o.elements?.map flattenOutcomes = some v) os vectors)
    (hne : vectors ≠ []) (hknown : ∀ v ∈ vectors, m ≤ v.length ∧ ∀ o ∈ v.take m, o.Fits plain) :
    Upholds strict (ColumnsYield (fun e => ev.ChildLeaves env [e]) es)
      (fun columns => ∃ rest,
        ColumnsYield (ev.OutcomeLeaves env) (vectors.map (List.drop m)) rest ∧
          columns = (columnsOf m vectors).map (List.map (·.value)) ++ rest) := by
  refine (upholds_columns (hos.imp fun e o ho => upholds_childLeaves (.cons ho .nil))).trans
    (.of_iff fun columns => (columnsYield_congr ?_).trans (columnsYield_drop hknown hne))
  refine helements.imp fun o v hv ls => ?_
  obtain ⟨elements, helements, rfl⟩ := map_eq_some_iff.mp hv
  exact (outcomeLeaves_elements? helements).symm

variable {seeds : List Expr} {t : DataType}

theorem runs_foldVectors (hne : es ≠ []) (hlen : es.length = d.elementNames.length) (y : Yield) :
    ev.Runs env (.foldVectors d seeds folded es t) y ↔
      ∃ st, StartYields (ev.Runs env) (d.start seeds) folded st ∧
        ∃ st', ev.FoldsColumns env d (fun e => ev.ChildLeaves env [e]) es st st' ∧
          ResultYields ev.Runs env d st' y := by
  rw [runs_iff]
  refine Iff.trans ⟨fun h => by cases h; assumption, .foldVectors⟩ (vectorsYield_iff.trans ?_)
  exact and_iff_right ⟨hne, hlen⟩

/-- A fold over vectors that is left around its vectors. -/
theorem upholds_rebuiltVectors (hne : es ≠ []) (hlen : es.length = d.elementNames.length)
    (hos : Forall₂ (Child (ev.UpheldLeaves strict env)) es os)
    (ho : Rebuilt (.foldVectors d seeds folded es t) os o) :
    ev.Upheld strict env (.foldVectors d seeds folded es t) o := by
  obtain ⟨_, ⟨⟩, rfl⟩ := ho
  have hkept : (keepMissing es os).length = es.length := length_keepMissing ..
  have hne' : keepMissing es os ≠ [] := by
    rwa [← length_pos_iff, hkept, length_pos_iff]
  refine (Upholds.of_iff (runs_foldVectors hne hlen)).trans (.trans ?_ (.of_iff fun y =>
    (runs_foldVectors hne' (hkept.trans hlen) y).symm.trans runs_ofExpr.symm))
  have hcolumns : Upholds strict (ColumnsYield (fun e => ev.ChildLeaves env [e]) es)
      (ColumnsYield (fun e => ev.ChildLeaves env [e]) (keepMissing es os)) :=
    upholds_columns ((becomes_keepMissing hos).imp fun _ _ h =>
      upholds_becomesLeaves (.cons h .nil))
  exact .exists_and (.refl _) fun st _ => .exists_and (.exists_and hcolumns fun _ _ => .refl _)
    fun _ _ => .refl _

/-- What a fold yields that goes on with what is left of vectors. -/
theorem runs_leftVectors_iff {st : FoldState} {y : Yield} (hst : st.Sets plain (d.start seeds))
    (hne : vectors ≠ []) (hlen : vectors.length = d.elementNames.length) :
    ev.Runs env (.foldVectors d st.seeds st.folded
        ((vectors.map fun v => Expr.vector (v.map (·.expr))).map some) t) y ↔
      ∃ st', ev.FoldsColumns env d (ev.OutcomeLeaves env) vectors st.run st' ∧
        ResultYields ev.Runs env d st' y := by
  rw [runs_foldVectors (by simpa using hne) (by simpa using hlen), hst.sized.start_eq, map_map]
  simp only [startYields_resumed hst, exists_eq_left]
  exact exists_congr fun st' => and_congr_left fun _ => exists_congr fun columns =>
    and_congr_left fun _ => columnsYield_vector

section Left

variable {st : FoldState}
  (helements : Forall₂ (fun o v => o.elements?.map flattenOutcomes = some v) os vectors)
  (hne : vectors ≠ []) (hk : ∀ v ∈ vectors, v.length = k)
  (hparted : st.Parts strict d.orderSensitive (List.map (·.expr))
    (fun st column => StepYields ev.Runs env d st (column.map (·.value)) [])
    (fun column => ∀ o ∈ column, o.Fits plain) (columnsOf k vectors) taken held st')
include helements hne hk hparted

/-- If the order matters, the columns that were taken come first, and what is left of the vectors
has the others. -/
theorem upholds_left_of_ordered
    (hos : Forall₂ (Child (ev.UpheldLeaves strict env)) es os)
    (hsensitive : d.orderSensitive = true) :
    Upholds strict
      (ev.FoldsColumns env d (fun e => ev.ChildLeaves env [e]) es st.run)
      (ev.FoldsColumns env d (ev.OutcomeLeaves env)
        (columnsOf vectors.length held) st'.run) := by
  obtain ⟨m, hm, rfl, rfl⟩ := exists_of_columnsOf_eq_append (hparted.ordered hsensitive)
  have hknown (v : List Outcome) (hv : v ∈ vectors) :
      m ≤ v.length ∧ ∀ o ∈ v.take m, o.Fits plain :=
    ⟨(hk v hv).symm ▸ hm, fits_of_columns hparted.known hv⟩
  rw [columnsOf_columnsOf_drop hk]
  refine (Upholds.exists_and (upholds_columns_drop hos helements hne hknown)
    fun _ _ => .refl _).trans (.trans (.of_iff fun st₂ => ?_)
      (hparted.upholds_rest (fun st es => StepYields ev.Runs env d st es [])
        (List.map Outcome.value) _))
  constructor
  · rintro ⟨_, ⟨rest, hrest, rfl⟩, hfolds⟩
    exact ⟨rest, hrest, hfolds⟩
  · rintro ⟨rest, hrest, hfolds⟩
    exact ⟨_, ⟨rest, hrest, rfl⟩, hfolds⟩

end Left

variable (hmeets : ev.Meets strict plain origin b env) (hd : d.Sorted plain)
  (hparts : ∀ x ∈ d.parts, ev.Admits strict plain x)
  (hinits : ∀ x, some x ∈ d.start seeds → x.isSorted plain .scalar = true ∧
    ev.Admits strict plain x)
include hmeets hd hparts hinits

/-- The columns of vectors that a fold takes, and those that it holds. -/
theorem exists_parts_of_vectors {st st' : FoldState} (hne : es ≠ [])
    (hos : Forall₂ (Child (ev.UpheldLeaves strict env)) es os)
    (hsorted : ∀ o ∈ os, o.expr.isSorted plain .element = true)
    (hvectors : vectorElements? none 1 os = some (.ok vectors))
    (hstart : StartGives (ev.Sound strict plain origin b) (d.start seeds) folded (some st))
    (htuples : TuplesGive (ev.Sound strict plain origin) b d st
      (columnsOf (vectors.headD []).length vectors) st') :
    ∃ k taken held,
      Forall₂ (fun o v => o.elements?.map flattenOutcomes = some v) os vectors ∧
      vectors ≠ [] ∧ vectors.length = es.length ∧ (∀ v ∈ vectors, v.length = k) ∧
      st'.Sets plain (d.start seeds) ∧
      st.Parts strict d.orderSensitive (List.map (·.expr))
        (fun st column => StepYields ev.Runs env d st (column.map (·.value)) [])
        (fun column => ∀ o ∈ column, o.Fits plain) (columnsOf k vectors) taken held st' ∧
      st'.held = held.map (List.map (·.expr)) := by
  have hst := sets_of_startGives hmeets (fun x hx => (hinits x hx).1) hstart
  obtain ⟨helements, k, _, hk⟩ := vectorElements?_eq_ok hvectors
  have hcount : vectors.length = es.length := (hos.length_eq.trans helements.length_eq).symm
  have hne' : vectors ≠ [] := by rwa [← length_pos_iff, hcount, length_pos_iff]
  have hhead : (vectors.headD []).length = k := by
    obtain ⟨v, rest, rfl⟩ := exists_cons_of_ne_nil hne'
    exact hk v mem_cons_self
  rw [hhead, ← map_id (columnsOf k vectors)] at htuples
  obtain ⟨htakes, hst'⟩ := takes_of_tuplesGive hmeets hd hparts (fun tuple htuple x hx =>
    fits_of_isKnown (opens_isSorted.of_mem_columns hsorted hvectors k tuple htuple x hx)) hst
      htuples
  obtain ⟨taken, held, hparted⟩ := exists_parts htakes
  refine ⟨k, taken, held, helements, hne', hcount, hk, hst', hparted, ?_⟩
  exact hparted.held.trans (by rw [held_of_startGives hstart rfl]; rfl)

/-- **A fold over vectors is upheld** if the vectors are. -/
theorem upholds_vectors (hsensitive : d.orderSensitive = true)
    (hos : Forall₂ (Child (ev.UpheldLeaves strict env)) es os)
    (hsorted : ∀ o ∈ os, o.expr.isSorted plain .element = true) (hne : es ≠ [])
    (hlen : es.length = d.elementNames.length)
    (h : VectorsGive (ev.Sound strict plain origin) b d partialFolds
      (.foldVectors d seeds folded es t) (d.start seeds) folded
      (fun st vectors => .foldVectors d st.seeds st.folded (vectors.map some) t) os o) :
    ev.Upheld strict env (.foldVectors d seeds folded es t) o := by
  have hwhole (o : Outcome) : Rebuilt (.foldVectors d seeds folded es t) os o →
      ev.Upheld strict env (.foldVectors d seeds folded es t) o :=
    upholds_rebuiltVectors hne hlen hos
  cases h with
  | sized _ ho | notStarted _ _ ho => exact hwhole o ho
  | @folded vectors st st' _ hvectors hstart htuples ho =>
    obtain ⟨k, taken, held, helements, hne', hcount, hk, hst', hparted, hheld⟩ :=
      exists_parts_of_vectors hmeets hd hparts hinits hne hos hsorted hvectors hstart htuples
    have hfolds := upholds_left_of_ordered helements hne' hk hparted hos hsensitive
    have hleft : columnsOf vectors.length held ≠ [] := by
      rwa [← length_pos_iff, length_columnsOf, length_pos_iff]
    let cont (y : Yield) : Prop := ∃ st₂, ev.FoldsColumns env d
      (ev.OutcomeLeaves env) (columnsOf vectors.length held) st'.run st₂ ∧
        ResultYields ev.Runs env d st₂ y
    have hcont : Upholds strict (ev.Runs env (.foldVectors d seeds folded es t)) cont :=
      (Upholds.of_iff (runs_foldVectors hne hlen)).trans
        ((upholds_startGives hmeets hinits hstart).exists_eq.trans (.exists_and hfolds
          fun _ _ => .refl _))
    refine upholds_complete hmeets hd hparts hst'.fits hcont (fun hnil y => ?_)
      (fun _ y => ?_) hwhole ho
    · have hall (v : List Outcome) (hv : v ∈ columnsOf vectors.length held) : v = [] := by
        rw [map_eq_nil_iff.mp (hheld.symm.trans hnil)] at hv
        obtain ⟨_, _, rfl⟩ := mem_map.mp hv
        rfl
      constructor
      · rintro ⟨st₂, ⟨columns, hcolumns, hfolds⟩, hy⟩
        cases (columnsYield_nil hleft hall).mp hcolumns
        cases hfolds
        exact hy
      · intro hy
        exact ⟨_, ⟨[], (columnsYield_nil hleft hall).mpr rfl, .nil⟩, hy⟩
    · have hvector : (columnsOf vectors.length held).map (fun v => Expr.vector (v.map (·.expr))) =
          (columnsOf vectors.length st'.held).map Expr.vector := by
        rw [hheld, columnsOf_map, map_map]
        rfl
      rw [← hvector]
      exact (runs_leftVectors_iff hst' hleft ((length_columnsOf _ _).trans
        (hcount.trans hlen))).symm

end Vectors

end FormulaFold
