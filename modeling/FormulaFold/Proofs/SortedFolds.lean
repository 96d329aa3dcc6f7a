import FormulaFold.Proofs.Sorting

/-! # The sorts of the outcomes of folds

The accumulators of a fold are known values, what it holds is sorted, and the rows that the fold of
a table holds form a table again.  With that **the outcome of every sorted formula is sorted**
(`isSorted_of_gives`).
-/
namespace FormulaFold

open Walk

variable {b : Bindings}

/-! ## Folds -/

section Folds

variable {R : Bindings → Giving} {d : FoldDef Expr} {st : FoldState}

theorem held_of_startGives {R : Giving}
    (h : StartGives R inits folded r) (hr : r = some st) : st.held = [] := by
  obtain ⟨_, rfl⟩ := exists_start_of_startGives h hr
  rfl

/-- The known elements of an array may stand in a formula. -/
theorem fits_of_arrayElements? (ha : a.expr.isSorted plain .element = true)
    (h : arrayElements? a = some elements) : ∀ x ∈ elements, x.isKnown = true → x.Fits plain := by
  intro x hx hknown
  unfold arrayElements? at h
  split at h
  · cases h
    exact fits_of_isKnown (opens_isSorted.of_mem_flattenOutcomes
      (opens_isSorted.of_elements? ha ‹_›) x hx) hknown
  · exact absurd (Value.isArray_of_fits (by simpa [Outcome.expr, isSorted] using ha))
      (by simp [Value.isArray])
  · cases h
    rw [mem_singleton.mp hx]
    exact fits_of_isKnown ha rfl
  · cases h

theorem isSorted_seeds {Q : Expr → Prop} (hst : st.All (Outcome.Fits plain) Q) :
    ∀ x ∈ st.seeds, x.isSorted plain .scalar = true :=
  hst.seeds (K := fun x => x.isSorted plain .scalar = true) fun _ h => h.isSorted _

theorem accumulates_fits (hb : b.Fits plain) (hd : d.Sorted plain) :
    d.Accumulates (Outcome.Fits plain) (SortedIn plain) b where
  steps _ hpairs e he _ ho hconst :=
    fits_of_isConstant (ho (hb.pushAll hpairs) .scalar (hd.steps e he)) hconst
  number := fits_number

theorem carries_isSorted (hb : b.Fits plain) (hd : d.Sorted plain)
    (hinits : ∀ x, some x ∈ inits → x.isSorted plain .scalar = true) (p place : Place) :
    d.Carries (SortedIn plain) b inits (Outcome.Fits plain) (fun x => x.isSorted plain p = true)
      fun o => o.expr.isSorted plain place = true where
  accumulates := accumulates_fits hb hd
  inits e _ he ho hconst := fits_of_isConstant (ho hb .scalar (hinits e he)) hconst
  known _ := fits_of_isKnown
  blank := fits_blank.isSorted _
  first _ h := h.isSorted _
  whenEmpty e _ he ho := Expr.isSorted_of_scalar (ho hb .scalar (hd.whenEmpty e he)) place
  merge _ e _ _ hpairs he ho :=
    Expr.isSorted_of_scalar (ho (hb.pushAll hpairs) .scalar (hd.merge e he)) place

/-- The rows that a fold of a table holds form a table again. -/
theorem fitsShape_held (hshape : fitsShape rows cols elements.length = true) (hcols : 0 < cols)
    (hheld : st.held = []) (h : RowsGive R b d columns filter column st
      ((rowsOf cols.toNat elements.length elements).take rows.toNat) st') :
    fitsShape st'.held.length cols st'.held.flatten.length = true := by
  obtain ⟨kept, _, ⟨hsub, _⟩, _, hkept, _⟩ := exists_remainder_of_folds
    (fun _ row _ => handles_of_itemGives (x := row) rfl rfl fun _ => trivial) h
  rw [hheld, nil_append] at hkept
  have hlength : ∀ tuple ∈ st'.held, tuple.length = cols.toNat := by
    rw [hkept]
    intro tuple htuple
    obtain ⟨row, hrow, rfl⟩ := mem_map.mp htuple
    rw [length_map]
    exact length_of_mem_rowsOf (mem_of_mem_take (hsub.subset hrow))
  have hflatten : st'.held.flatten.length = st'.held.length * cols.toNat := by
    rw [List.length_flatten, map_congr_left hlength]
    simp
  have hcount : (st'.held.length : Int) ≤ rows.toNat := by
    rw [hkept, length_map]
    exact_mod_cast Nat.le_trans hsub.length_le (List.length_take_le _ _)
  simp only [fitsShape, and_eq_true, beq_iff_eq] at hshape ⊢
  have hrows : 0 ≤ rows := by
    by_contra hneg
    have := Int.mul_neg_of_neg_of_pos (Int.not_le.mp hneg) hcols
    omega
  have hle : (st'.held.length : Int) * cols ≤ rows * cols :=
    Int.mul_le_mul_of_nonneg_right (by omega) (Int.le_of_lt hcols)
  have hnonneg : 0 ≤ (st'.held.length : Int) * cols :=
    Int.mul_nonneg (by omega) (Int.le_of_lt hcols)
  refine ⟨?_, ?_⟩
  · rw [hflatten, Int.natCast_mul, Int.toNat_of_nonneg (Int.le_of_lt hcols)]
  · have hword := hshape.2
    simp only [fitsWord, and_eq_true, decide_eq_true_eq] at hword ⊢
    omega

/-- The table that the fold of a table carries on with. -/
theorem isSorted_held {R : Giving} {S : Bindings → Giving}
    (ha : (Expr.range rows cols elements).isSorted plain .argument = true) (hcols : 0 < cols)
    (hstart : StartGives R inits folded (some st))
    (hrows : RowsGive S b d columns filter column st
      ((rowsOf cols.toNat elements.length (elements.map ofChild)).take rows.toNat) st')
    {P : Outcome → Prop} (hst : st'.All P fun x => x.isSorted plain .scalar = true) :
    (Expr.range st'.held.length cols ((st'.held.flatten).map some)).isSorted plain .argument =
      true := by
  rw [isSorted, and_eq_true] at ha ⊢
  refine ⟨?_, allSorted_iff.mpr hst.flatten⟩
  have hshape : fitsShape rows cols (elements.map ofChild).length = true := by
    rw [length_map]
    exact ha.1
  rw [← length_map ofChild] at hrows
  rw [Place.takesRange, length_map]
  exact fitsShape_held hshape hcols (held_of_startGives hstart rfl) hrows

end Folds

/-! ## Walks -/

theorem length_keepMissing (es : Children) (os : List Outcome) :
    (keepMissing es os).length = es.length := by
  induction es generalizing os with
  | nil => rfl
  | cons e es ih => cases os <;> simp [keepMissing, ih]

theorem wrap_of_fitsWord (h : fitsWord n = true) : wrap n = n := by
  simp only [fitsWord, and_eq_true, decide_eq_true_eq] at h
  exact Int.bmod_eq_of_le (by omega) (by omega)

/-- A range keeps its shape if it has one. -/
theorem rangeShape_of_fitsShape (h : fitsShape rows cols length = true) :
    rangeShape rows cols length = (rows, cols) := by
  simp only [fitsShape, and_eq_true, beq_iff_eq] at h
  rw [rangeShape, if_pos]
  rw [wrap_of_fitsWord h.2, h.1]

theorem isSorted_of_nodeGives (hprecision : plain = true → site.engine.precision ≤ 0)
    (hU : U.Fits plain) {entered : Address → Giving}
    (h : NodeGives False site (CellGives site L U entered) (SortedIn plain) b e o) :
    SortedIn plain b e o := by
  intro hb place he
  have hkept {es : Children} {os : List Outcome} {p : Place}
      (hes : allSorted plain p es = true)
      (hos : Forall₂ (Child (SortedIn plain b)) (trimmed es) os) :
      allSorted plain p (keepMissing es os) = true :=
    allSorted_keepMissing (isSorted_of_forall₂ hb (allSorted_trimmed hes) hos)
  have hsingle {a : Outcome} {p : Place} {e : Option Expr} (ha : a.expr.isSorted plain p = true) :
      optionSorted plain p (e.map fun _ => a.expr) = true := by
    cases e with
    | none => rfl
    | some e => exact ha
  cases h with
  | constant => exact isSorted_ofExpr he
  | operator hos ho =>
    rw [isSorted] at he
    refine isSorted_of_settles (fun _ v hv => ?_) (fun e he' => ?_) ho
    · exact Engine.fits_adjust hprecision (Op.isArray_of_compute hv)
    · cases he'
      rw [isSorted]
      exact hkept he hos
  | call ho => exact isSorted_of_callGives hprecision hb he ho
  | cell ho =>
    rw [isSorted] at he
    exact isSorted_of_cellGives hU he ho
  | @range rows cols elements os o hos ho =>
    rw [isSorted, and_eq_true] at he
    rw [rebuilt_range ho, length_keepMissing, Outcome.expr, isSorted, and_eq_true,
      length_keepMissing]
    refine ⟨?_, hkept he.2 hos⟩
    cases place with
    | scalar => cases he.1
    | spliced | argument =>
      rw [rangeShape_of_fitsShape he.1]
      exact he.1
    | element => rfl
  | splice hos ho =>
    rw [isSorted, and_eq_true] at he
    refine isSorted_of_rebuilt (fun e he' => ?_) ho
    cases he'
    rw [isSorted, and_eq_true]
    exact ⟨he.1, hkept he.2 hos⟩
  | subSection hos ho =>
    rw [isSorted, and_eq_true] at he
    refine isSorted_of_rebuilt (fun e he' => ?_) ho
    cases he'
    rw [isSorted, and_eq_true]
    exact ⟨he.1, hkept he.2 hos⟩
  | letIn hv hr ho =>
    simp only [isSorted, optionSorted, and_eq_true] at he
    have hv := hv hb .scalar he.1
    have hbody := hr (hb.push _ fun x hx => by
      split at hx
      · cases hx
        exact fits_of_isConstant hv ‹_›
      · cases hx) .scalar he.2
    cases ho with
    | known => exact Expr.isSorted_of_scalar hbody place
    | left =>
      refine isSorted_ofExpr ?_
      simp only [isSorted, optionSorted, and_eq_true]
      exact ⟨hv, hbody⟩
  | letVar ho => exact (hb _ _ ho).isSorted place
  | letVarLeft => exact he
  | switch _ ho =>
    refine Expr.isSorted_of_scalar (isSorted_of_childOr hb fits_blank ?_ ho) place
    exact optionSorted_iff.mpr fun x hx =>
      (Expr.sorted_branch he (mem_branches_of_chosenBranch hx)).1
  | switchLeft hx hcases hotherwise =>
    simp only [isSorted, and_eq_true, optionSorted, casesSorted_iff] at he
    simp only [Outcome.expr, isSorted, and_eq_true, optionSorted, casesSorted_iff]
    refine ⟨⟨hx hb _ he.1.1, fun c' hc' x hx' => ?_⟩, optionSorted_of_becomes hb he.2 hotherwise⟩
    obtain ⟨c, hc, _, hbranch⟩ := exists_of_forall₂_of_mem hcases hc'
    exact optionSorted_iff.mp (optionSorted_of_becomes hb
      (optionSorted_iff.mpr (he.1.2 c hc)) hbranch) x hx'
  | switchCase => cases he
  | fold hos ho =>
    simp only [isSorted, and_eq_true] at he
    have hd := sorted_of_defSorted he.1.1.2
    have hos := isSorted_of_forall₂ hb he.2 hos
    refine (carries_isSorted hb hd (hd.start he.1.2) .element place).elements opens_isSorted hos
      (fun o => isSorted_of_rebuilt fun e he' => ?_) (fun _ _ st _ _ _ hst => isSorted_ofExpr ?_) ho
    · cases he'
      simp only [isSorted, and_eq_true]
      exact ⟨he.1, allSorted_keepMissing hos⟩
    · simp only [isSorted, and_eq_true]
      exact ⟨⟨he.1.1, seedsSorted_iff.mpr (isSorted_seeds hst)⟩,
        allSorted_iff.mpr hst.flatten⟩
  | reduce hos ho =>
    simp only [isSorted, and_eq_true] at he
    have hos := isSorted_of_forall₂ hb he.2 hos
    refine (carries_isSorted hb (sorted_of_defSorted he.1.1.2) (fun x hx => ?_) .element
      place).elements opens_isSorted hos (fun o => isSorted_of_rebuilt fun e he' => ?_)
      (fun _ _ st _ _ _ hst => isSorted_ofExpr ?_) ho
    · exact optionSorted_iff.mp he.1.2 x (mem_singleton.mp hx).symm
    · cases he'
      simp only [isSorted, and_eq_true]
      exact ⟨he.1, allSorted_keepMissing hos⟩
    · simp only [isSorted, and_eq_true]
      refine ⟨⟨he.1.1, optionSorted_iff.mpr fun x hx => ?_⟩, allSorted_iff.mpr hst.flatten⟩
      exact isSorted_seeds hst x (List.mem_of_head? hx)
  | foldArray ha ho =>
    simp only [isSorted, and_eq_true] at he
    have hd := sorted_of_defSorted he.1
    have ha := isSorted_of_childOr hb fits_blank he.2 ha
    refine (carries_isSorted hb hd hd.inits .element place).array
      (fun _ => fits_of_arrayElements? ha) (fun o => isSorted_of_rebuilt fun e he' => ?_) ho
    cases he'
    simp only [isSorted, and_eq_true]
    exact ⟨he.1, hsingle ha⟩
  | foldVectors hos _ _ ho =>
    simp only [isSorted, and_eq_true] at he
    have hd := sorted_of_defSorted he.1.1.2
    have hos := isSorted_of_forall₂ hb he.2 hos
    refine (carries_isSorted hb hd (hd.start he.1.2) .element place).vectors opens_isSorted hos
      (fun o => isSorted_of_rebuilt fun e he' => ?_)
      (fun _ _ st _ n _ _ hst => isSorted_ofExpr ?_) ho
    · cases he'
      simp only [isSorted, and_eq_true]
      exact ⟨he.1, allSorted_keepMissing hos⟩
    · simp only [isSorted, and_eq_true]
      refine ⟨⟨he.1.1, seedsSorted_iff.mpr (isSorted_seeds hst)⟩,
        allSorted_iff.mpr (hst.vectors (fun xs hxs => ?_) n)⟩
      rw [Expr.vector, isSorted]
      exact allSorted_map_some hxs
  | foldTable ha ho =>
    simp only [isSorted, and_eq_true] at he
    have hd := sorted_of_defSorted he.1.1.1.2
    have ha := isSorted_of_childOr hb fits_blank he.2 ha
    refine (carries_isSorted hb hd (hd.start he.1.1.2) .scalar place).table
      (fun rows cols elements heq => ?_) (fun o => isSorted_of_rebuilt fun e he' => ?_)
      (fun _ rows cols elements st st' heq _ hcols hstart hrows hst => isSorted_ofExpr ?_) ho
    · subst heq
      rw [Outcome.expr, isSorted, and_eq_true] at ha
      intro x hx
      obtain ⟨e, he, rfl⟩ := mem_map.mp hx
      exact isSorted_ofChild (optionSorted_iff.mpr fun y hy => allSorted_iff.mp ha.2 y (hy ▸ he))
    · cases he'
      simp only [isSorted, and_eq_true]
      exact ⟨he.1, hsingle ha⟩
    · subst heq
      simp only [isSorted, and_eq_true]
      refine ⟨⟨⟨he.1.1.1, seedsSorted_iff.mpr (isSorted_seeds hst)⟩, he.1.2⟩, ?_⟩
      exact isSorted_held ha hcols hstart hrows hst
  | parentSection hr ho =>
    simp only [isSorted, optionSorted] at he
    have hr := hr hb .scalar he
    cases ho with
    | known => exact Expr.isSorted_of_scalar hr place
    | left he' =>
      cases he'
      refine isSorted_ofExpr ?_
      simp only [isSorted]
      exact hr
  | count ho =>
    cases ho with
    | known => exact (fits_constant _ (fits_ofInt _)).isSorted place
    | left =>
      refine isSorted_ofExpr ?_
      rw [isSorted]

/-- **The outcome of a sorted formula is sorted.** -/
theorem isSorted_of_gives {opt : Optimizer} (hprecision : plain = true → opt.engine.precision ≤ 0)
    {book : Workbook} (hU : U.Fits plain) {n : Nat} {origin : Option Address} (e : Expr)
    (h : Gives L U b (opt.walkDeep book n origin e) o) : SortedIn plain b e o := by
  induction e using induction_on_parts generalizing b o with
  | step e ih =>
    exact isSorted_of_nodeGives hprecision hU (gives_walkDeep (fun b p o hp h => ih p hp h) h)

end FormulaFold
