import FormulaFold.Proofs.Lasting
import FormulaFold.Proofs.Sorts

/-! # The sorts of outcomes

What a walk makes of a sorted formula may stand where the formula stands: single values stay single
values and known values are no arrays.  This module shows it of what has no fold in it, given that
it holds of the parts (`SortedIn`).
-/
namespace FormulaFold

open Walk

variable {b : Bindings} {es : Children} {xs : List Expr} {e : Option Expr} {o : Outcome}
  {place : Place} {plain : Bool}

/-! ## Known values -/

/-- The outcome is a known value that may stand in a formula. -/
def Outcome.Fits (plain : Bool) (o : Outcome) : Prop :=
  ∃ v t, o = .known v t ∧ v.fits plain = true

theorem Outcome.Fits.isSorted (h : o.Fits plain) (place : Place) :
    o.expr.isSorted plain place = true := by
  obtain ⟨v, t, rfl, hv⟩ := h
  simpa [Outcome.expr, Expr.isSorted_constant] using hv

theorem Outcome.Fits.isConstant (h : o.Fits plain) : o.isConstant = true := by
  obtain ⟨v, t, rfl, _⟩ := h
  rfl

theorem fits_constant (t : DataType) (h : v.fits plain = true) :
    (Outcome.constant v t).Fits plain := ⟨v, _, rfl, h⟩

theorem fits_ofInt (n : Int) : (Value.number (Float.ofInt n)).fits plain = true := by
  simp [Value.fits, Value.isArray, Engine.isSettled_ofInt]

theorem fits_number (n : Nat) :
    (Outcome.constant (.number (Float.ofNat n)) .numeric).Fits plain :=
  fits_constant _ (fits_ofInt n)

theorem fits_blank : Outcome.blank.Fits plain :=
  fits_constant _ (by simp [Value.fits, Value.isArray, Value.isSettled])

theorem fits_of_isKnown (h : o.expr.isSorted plain place = true) (hknown : o.isKnown = true) :
    o.Fits plain := by
  cases o with
  | known v t => exact ⟨v, t, rfl, by simpa [Outcome.expr, Expr.isSorted_constant] using h⟩
  | residual e => cases hknown

/-- A constant that stands for a single value is known. -/
theorem fits_of_isConstant {o : Outcome} (h : o.expr.isSorted plain .scalar = true)
    (hconst : o.isConstant = true) : o.Fits plain := by
  cases o with
  | known v t => exact fits_of_isKnown h rfl
  | residual e =>
    cases e with
    | range | splice => simp [Outcome.expr, Expr.isSorted, Place.takesRange, Place.takesSplice] at h
    | _ => cases hconst

/-! ## Places -/

theorem Expr.isSorted_of_scalar {e : Expr} (h : e.isSorted plain .scalar = true) (place : Place) :
    e.isSorted plain place = true := by
  cases e with
  | range | splice | subSection =>
    simp [isSorted, Place.takesRange, Place.takesSplice, Place.takesSeveral] at h
  | letVar | count => rw [isSorted]
  | _ =>
    rw [isSorted] at h ⊢
    exact h

/-- What may stand anywhere may stand among the elements of a fold. -/
theorem Expr.isSorted_element (e : Expr) : ∀ place, e.isSorted plain place = true →
    e.isSorted plain .element = true := by
  induction e using induction_on_parts with
  | step e ih =>
    intro place h
    cases e with
    | range rows cols es =>
      simp only [isSorted, and_eq_true, allSorted_iff] at h ⊢
      exact ⟨rfl, fun x hx => ih x (.part (by simpa [parts] using hx)) _ (h.2 x hx)⟩
    | splice es =>
      simp only [isSorted, and_eq_true, allSorted_iff] at h ⊢
      exact ⟨rfl, fun x hx => ih x (.part (by simpa [parts] using hx)) _ (h.2 x hx)⟩
    | subSection s es =>
      simp only [isSorted, and_eq_true] at h ⊢
      exact ⟨rfl, h.2⟩
    | letVar | count => rw [isSorted]
    | _ =>
      rw [isSorted] at h ⊢
      exact h

theorem isSorted_ofExpr {e : Expr} (h : e.isSorted plain place = true) :
    (ofExpr e).expr.isSorted plain place = true := by
  cases e with
  | constant v t =>
    simpa [ofExpr, Outcome.constant, Outcome.expr, Expr.isSorted_constant] using h
  | _ => exact h

theorem isSorted_ofChild (h : optionSorted plain place e = true) :
    (ofChild e).expr.isSorted plain place = true := by
  cases e with
  | none => exact fits_blank.isSorted place
  | some e => exact isSorted_ofExpr h

/-! ## Elements -/

theorem opens_isSorted : Opens fun o => o.expr.isSorted plain .element = true where
  blank := fits_blank.isSorted _
  ofExpr _ h := isSorted_ofExpr h
  range h x hx := by
    rw [Outcome.expr, Expr.isSorted, and_eq_true] at h
    exact isSorted_ofExpr (allSorted_iff.mp h.2 x hx)
  splice h x hx := by
    rw [Outcome.expr, Expr.isSorted, and_eq_true] at h
    exact isSorted_ofExpr (allSorted_iff.mp h.2 x hx)

/-! ## Computed values -/

/-- The value may be an argument of a computation: one that may stand in a formula, or an array of
such values. -/
def Value.Flat (plain : Bool) (v : Value) : Prop :=
  v.fits plain = true ∨ ∃ rows cols vs, v = .array rows cols vs ∧ ∀ u ∈ vs, u.fits plain = true

theorem flat_grid (h : ∀ u ∈ vs, u.fits plain = true) : (Value.grid rows cols vs).Flat plain := by
  unfold Value.grid
  split
  · exact .inr ⟨_, _, _, rfl, h⟩
  · exact .inr ⟨_, _, _, rfl, h⟩

theorem fits_of_mem_materializeAll (hagg : Expr.allAggregate es = true)
    (h : allSorted plain .scalar es = true) :
    ∀ v ∈ materializeAll es, v.fits plain = true := by
  induction es with
  | nil => simp [materializeAll]
  | cons e es ih =>
    simp only [allSorted, and_eq_true] at h
    cases e with
    | none => cases hagg
    | some e =>
      cases e with
      | constant v t =>
        rw [Expr.allAggregate] at hagg
        simp only [materializeAll, Expr.materialize, forall_mem_cons]
        exact ⟨by simpa [optionSorted, Expr.isSorted] using h.1, ih hagg h.2⟩
      | range | splice =>
        simp [optionSorted, Expr.isSorted, Place.takesRange, Place.takesSplice] at h
      | _ => simp [Expr.allAggregate, Expr.isAggregate] at hagg

theorem flat_of_mem_spliceAll (hagg : Expr.allAggregate es = true)
    (h : allSorted plain .spliced es = true) : ∀ v ∈ Expr.spliceAll es, v.Flat plain := by
  induction es with
  | nil => simp [Expr.spliceAll]
  | cons e es ih =>
    simp only [allSorted, and_eq_true] at h
    cases e with
    | none => cases hagg
    | some e =>
      cases e with
      | constant v t =>
        rw [Expr.allAggregate] at hagg
        simp only [Expr.spliceAll, Expr.spliceValues, Expr.materialize, singleton_append,
          forall_mem_cons]
        exact ⟨.inl (by simpa [optionSorted, Expr.isSorted] using h.1), ih hagg h.2⟩
      | range rows cols elements =>
        simp only [Expr.allAggregate, Expr.isAggregate, and_eq_true] at hagg
        simp only [optionSorted, Expr.isSorted, and_eq_true] at h
        simp only [Expr.spliceAll, Expr.spliceValues, Expr.materialize, singleton_append,
          forall_mem_cons]
        exact ⟨flat_grid (fits_of_mem_materializeAll hagg.1 h.1.2), ih hagg.2 h.2⟩
      | splice => simp [optionSorted, Expr.isSorted, Place.takesSplice] at h
      | _ => simp [Expr.allAggregate, Expr.isAggregate] at hagg

theorem flat_of_mem_values (hconst : ∀ o ∈ os, o.isConstant = true)
    (h : ∀ o ∈ os, o.expr.isSorted plain .argument = true) :
    ∀ v ∈ Outcome.values os, v.Flat plain := by
  intro v hv
  obtain ⟨o, ho, hv⟩ := mem_flatMap.mp hv
  have hconst := hconst o ho
  have h := h o ho
  cases o with
  | known u t =>
    rw [mem_singleton.mp hv]
    exact .inl (by simpa [Outcome.expr, Expr.isSorted] using h)
  | residual e =>
    simp only [Outcome.isConstant] at hconst
    simp only [Outcome.expr] at h
    cases e with
    | range rows cols elements =>
      simp only [Expr.isAggregate] at hconst
      simp only [Expr.isSorted, and_eq_true] at h
      rw [Outcome.arguments, Expr.spliceValues, mem_singleton] at hv
      · rw [hv, Expr.materialize]
        exact flat_grid (fits_of_mem_materializeAll hconst h.2)
      · simp
    | splice elements =>
      simp only [Expr.isAggregate] at hconst
      simp only [Expr.isSorted, and_eq_true] at h
      exact flat_of_mem_spliceAll hconst h.2 v hv
    | _ => cases hconst

theorem fits_of_select (hargs : ∀ v ∈ args, v.Flat plain) (h : Builtin.select args = .ok v) :
    v.fits plain = true := by
  obtain ⟨source, hsource, ⟨harray, rfl⟩ | ⟨rows, cols, values, rfl, hv⟩⟩ :=
    Builtin.mem_of_select h
  · rcases hargs v hsource with hv | ⟨_, _, _, rfl, _⟩
    · exact hv
    · cases harray
  · rcases hargs _ hsource with harray | ⟨_, _, _, heq, hvs⟩
    · exact absurd (Value.isArray_of_fits harray) (by simp [Value.isArray])
    · cases heq
      exact hvs v hv

/-- What a function other than `IF` computes may stand in a formula. -/
theorem fits_of_call {engine : Engine} (hprecision : plain = true → engine.precision ≤ 0)
    (hif : ofName? fn ≠ some .ifElse) (hargs : ∀ v ∈ args, v.Flat plain)
    (h : engine.call fn args = .ok v) : (engine.adjust v).fits plain = true := by
  unfold Engine.call at h
  split at h
  · rename_i f hf
    refine Engine.fits_adjust hprecision ?_
    by_cases hindex : f = .index
    · subst hindex
      exact Value.isArray_of_fits (fits_of_select hargs h)
    · exact Builtin.isArray_of_compute (fun heq => hif (heq ▸ hf)) hindex h
  · cases h

section Kept

variable {site : Site}

theorem fits_of_kept? {r : Except Failure Value} (h : site.kept? node r = some o)
    (hr : ∀ v, r = .ok v → (site.engine.adjust v).fits plain = true) : o.Fits plain := by
  obtain ⟨v, hv, rfl⟩ := exists_of_kept? h
  exact fits_constant _ (hr v hv)

end Kept

/-! ## Children -/

/-- Every name that is not bound as undefined is bound to a known value. -/
def Bindings.Fits (plain : Bool) (b : Bindings) : Prop :=
  ∀ x o, b.lookup x = .ok (some o) → o.Fits plain

namespace Bindings

theorem fits_empty : Bindings.empty.Fits plain := by
  intro x o h
  simp [lookup, empty] at h

theorem Fits.push (hb : b.Fits plain) (name : String) {o : Option Outcome}
    (ho : ∀ x, o = some x → x.Fits plain) : (b.push name o).Fits plain := by
  intro x y h
  rw [lookup_push] at h
  split at h
  · cases h
    exact ho y rfl
  · exact hb x y h

theorem Fits.pushAll (hb : b.Fits plain) {pairs : Pairs}
    (hpairs : ∀ pair ∈ pairs, pair.2.Fits plain) : (b.pushAll pairs).Fits plain := by
  intro x o h
  by_cases hx : x ≠ "" ∧ x ∈ pairs.map (·.1)
  · obtain ⟨pair, hpair, hlookup⟩ := exists_lookup_pushAll_of_mem (b := b) hx
    rw [hlookup] at h
    cases h
    exact hpairs pair hpair
  · rw [lookup_pushAll_of_not_mem hx] at h
    exact hb x o h

end Bindings

/-- What is shown of the walks of the parts. -/
def SortedIn (plain : Bool) (b : Bindings) (e : Expr) (o : Outcome) : Prop :=
  b.Fits plain → ∀ place, e.isSorted plain place = true → o.expr.isSorted plain place = true

section Children

variable (hb : b.Fits plain)
include hb

theorem isSorted_of_childOr (hmissing : missing.Fits plain)
    (he : optionSorted plain place e = true) (h : ChildOr missing (SortedIn plain b) e o) :
    o.expr.isSorted plain place = true := by
  cases e with
  | none =>
    rw [show o = missing from h]
    exact hmissing.isSorted place
  | some e => exact h hb place he

theorem isSorted_of_forall₂ (hes : allSorted plain place es = true)
    (h : Forall₂ (Child (SortedIn plain b)) es os) :
    ∀ o ∈ os, o.expr.isSorted plain place = true := by
  intro o ho
  obtain ⟨e, he, ho⟩ := exists_of_forall₂_of_mem h ho
  refine isSorted_of_childOr hb fits_blank (optionSorted_iff.mpr fun x hx => ?_) ho
  exact allSorted_iff.mp hes x (hx ▸ he)

theorem optionSorted_of_becomes (he : optionSorted plain place e = true)
    (h : Becomes (SortedIn plain b) e e') : optionSorted plain place e' = true := by
  cases h with
  | none => rfl
  | some h =>
    obtain ⟨o, ho, rfl⟩ := h
    exact ho hb place he

omit hb

theorem allSorted_trimmed (h : allSorted plain place es = true) :
    allSorted plain place (trimmed es) = true :=
  allSorted_iff.mpr fun x hx => allSorted_iff.mp h x (mem_of_mem_trimmed hx)

theorem allSorted_keepMissing (h : ∀ o ∈ os, o.expr.isSorted plain place = true) :
    allSorted plain place (keepMissing es os) = true :=
  allSorted_iff.mpr (left_of_mem_keepMissing h)

theorem allSorted_map_some (h : ∀ x ∈ xs, x.isSorted plain place = true) :
    allSorted plain place (xs.map some) = true :=
  allSorted_iff.mpr fun x hx => h x (by simpa using hx)

theorem optionSorted_join_getElem? {i : Nat} (h : allSorted plain place es = true) :
    optionSorted plain place es[i]?.join = true :=
  optionSorted_iff.mpr fun x hx => allSorted_iff.mp h x (mem_of_getElem?_join hx)

end Children

/-! ## Calls and cells -/

section Calls

variable {site : Site} (hprecision : plain = true → site.engine.precision ≤ 0) (hb : b.Fits plain)

theorem isSorted_of_settles {compute : Computation}
    (hkept : (∀ o ∈ os, o.isConstant = true) → ∀ v, compute (Outcome.values os) = .ok v →
      (site.engine.adjust v).fits plain = true)
    (hleft : ∀ e, node.withChildren (keepMissing node.children os) = .ok e →
      e.isSorted plain place = true)
    (h : Settles False site node compute os o) : o.expr.isSorted plain place = true := by
  cases h with
  | kept hconst hk => exact (fits_of_kept? hk (hkept (by simpa using hconst))).isSorted place
  | left _ he => exact isSorted_ofExpr (hleft _ he)

theorem isSorted_of_rebuilt
    (hleft : ∀ e, node.withChildren (keepMissing node.children os) = .ok e →
      e.isSorted plain place = true)
    (h : Rebuilt node os o) : o.expr.isSorted plain place = true := by
  obtain ⟨e, he, rfl⟩ := h
  exact isSorted_ofExpr (hleft e he)

include hprecision in
theorem isSorted_of_joins (hos : ∀ o ∈ os, o.expr.isSorted plain .argument = true)
    (h : Joins site node os xs) : ∀ x ∈ xs, x.isSorted plain .argument = true := by
  induction h with
  | nil => simp
  | left _ ih =>
    have hos := forall_mem_cons.mp hos
    exact forall_mem_cons.mpr ⟨hos.1, ih hos.2⟩
  | joined hconst hkept _ ih =>
    have hos := forall_mem_append.mp hos
    refine forall_mem_cons.mpr ⟨?_, ih hos.2⟩
    refine (fits_of_kept? hkept fun v => fits_of_call hprecision (by decide) ?_).isSorted _
    exact flat_of_mem_values hconst hos.1

theorem isSorted_call (hf : ofName? fn = f)
    (hfits : fitsCall args f = true) (hargs : allSorted plain (argumentPlace f) args = true) :
    (Expr.call fn args t).isSorted plain place = true := by
  rw [Expr.isSorted, hf, hfits, hargs]
  rfl

include hprecision in
theorem isSorted_of_joinGives (hf : ofName? fn = some .concatenate)
    (hos : ∀ o ∈ os, o.expr.isSorted plain .argument = true) (h : JoinGives site node fn t os o) :
    o.expr.isSorted plain place = true := by
  cases h with
  | computed hconst hv =>
    have hfits := fits_of_call hprecision (by decide) (flat_of_mem_values hconst hos) hv
    simpa [Outcome.expr, Expr.isSorted] using hfits
  | left hjoins =>
    exact isSorted_ofExpr (isSorted_call hf rfl
      (allSorted_map_some (isSorted_of_joins hprecision hos hjoins)))

include hprecision hb in
theorem isSorted_of_callGives (hcall : (Expr.call fn args t).isSorted plain place = true)
    (h : CallGives False site (SortedIn plain b) fn args t o (ofName? fn)) :
    o.expr.isSorted plain place = true := by
  rw [Expr.isSorted, and_eq_true] at hcall
  obtain ⟨hfits, hargs⟩ := hcall
  generalize hf : ofName? fn = f at h hfits hargs
  have hos {es : Children} {p : Place} (hes : allSorted plain p es = true)
      {os : List Outcome} (hos : Forall₂ (Child (SortedIn plain b)) (trimmed es) os) :=
    isSorted_of_forall₂ hb (allSorted_trimmed hes) hos
  -- A function that is computed from its arguments, among the forms that are.
  have hsettles {compute : Computation} (hif : f ≠ some .ifElse)
      (hcompute : ∀ vs v, compute vs = .ok v → ∃ fn', ofName? fn' ≠ some .ifElse ∧
        site.engine.call fn' vs = .ok v) {os : List Outcome}
      (h : Forall₂ (Child (SortedIn plain b)) (trimmed args) os)
      (ho : Settles False site (.call fn args t) compute os o) :
        o.expr.isSorted plain place = true := by
    have hplace : argumentPlace f = .argument := by
      unfold argumentPlace
      split
      · exact absurd rfl hif
      · rfl
    rw [hplace] at hargs
    refine isSorted_of_settles (fun hconst v hv => ?_) (fun e he => ?_) ho
    · obtain ⟨fn', hfn', hv⟩ := hcompute _ v hv
      exact fits_of_call hprecision hfn' (flat_of_mem_values hconst (hos hargs h)) hv
    · cases he
      refine isSorted_call hf ?_ (hplace ▸ allSorted_keepMissing (hos hargs h))
      unfold fitsCall
      split
      · exact absurd rfl hif
      · rfl
  have hposition {position : Address → Int} (hplace : argumentPlace f = .argument)
      (hfits : ∀ args, fitsCall args f = true)
      (h : PositionGives False site (SortedIn plain b) fn position args t o) :
      o.expr.isSorted plain place = true := by
    rw [hplace] at hargs
    cases h with
    | known _ ho =>
      refine (fits_of_kept? ho ?_).isSorted place
      rintro v ⟨⟩
      exact Engine.fits_adjust hprecision rfl
    | left _ h ho =>
      refine isSorted_of_rebuilt (fun e he => ?_) ho
      cases he
      exact isSorted_call hf (hfits _) (hplace ▸ allSorted_keepMissing (hos hargs h))
  have hbool {decisive : Bool} (hplace : argumentPlace f = .argument)
      (hfits : ∀ args, fitsCall args f = true)
      (h : ∃ r, Undecided site fn decisive (SortedIn plain b) (trimmed args) r ∧
        BoolGives fn t decisive r o) : o.expr.isSorted plain place = true := by
    rw [hplace] at hargs
    obtain ⟨r, hr, ho⟩ := h
    have hr := left_of_undecided (K := fun x => x.isSorted plain .argument = true)
      (fun x o hx ho => ho hb _ (allSorted_iff.mp hargs x (mem_of_mem_trimmed hx))) hr
    cases ho with
    | decided | dropped =>
      exact (fits_constant _ (by simp [Value.fits, Value.isArray, Value.isSettled])).isSorted place
    | left =>
      exact isSorted_ofExpr (isSorted_call hf (hfits _)
        (hplace ▸ allSorted_map_some (hr _ rfl)))
  unfold CallGives at h
  split at h
  · rcases h with ⟨condition, branches, c, rfl, hc, ho⟩ | ⟨hnone, _⟩
    · simp only [argumentPlace, allSorted, and_eq_true, optionSorted] at hargs
      have hbranch {missing : Outcome} (hmissing : missing.Fits plain) {i : Nat}
          (h : ChildOr missing (SortedIn plain b) branches[i]?.join o) :
          o.expr.isSorted plain place = true :=
        Expr.isSorted_of_scalar (isSorted_of_childOr hb hmissing
          (optionSorted_join_getElem? hargs.2) h) place
      cases ho with
      | chosen _ _ ho | other _ _ ho =>
        exact hbranch (fits_constant _ (by rw [Value.fits]; cases plain <;> rfl)) ho
      | settled hknown h ho =>
        have hc := hc hb .scalar hargs.1
        refine isSorted_of_settles (fun hconst v hv => ?_) (fun e he => ?_) ho
        · obtain ⟨u, t', rfl, _⟩ := fits_of_isConstant hc (hconst c mem_cons_self)
          obtain ⟨fault, hfault⟩ := hknown u t' rfl
          obtain ⟨r, hr⟩ := Engine.exists_toBool_of_call_ifElse hv
          rw [hfault] at hr
          cases hr
        · cases he
          refine isSorted_call hf rfl ?_
          exact allSorted_keepMissing (forall_mem_cons.mpr ⟨hc, hos hargs.2 h⟩)
    · obtain ⟨condition, branches, rfl⟩ := exists_condition_of_fitsCall hfits
      exact absurd rfl (hnone condition branches)
  · exact hbool rfl (fun _ => rfl) h
  · exact hbool rfl (fun _ => rfl) h
  · have hrange {rows cols : Int} {elements : Children} {i : Nat} {element : Option Expr}
        (hmem : some (.range rows cols elements) ∈ trimmed args)
        (helement : elements[i]? = some element) (h : Child (SortedIn plain b) element o) :
        o.expr.isSorted plain place = true := by
      have hsorted := allSorted_iff.mp hargs _ (mem_of_mem_trimmed hmem)
      rw [Expr.isSorted, and_eq_true] at hsorted
      refine Expr.isSorted_of_scalar (isSorted_of_childOr hb fits_blank ?_ h) place
      exact optionSorted_iff.mpr fun x hx =>
        allSorted_iff.mp hsorted.2 x (hx ▸ mem_of_getElem? helement)
    cases h with
    | one hes _ _ _ _ helement ho => exact hrange (hes ▸ mem_cons_self) helement ho
    | two hes _ _ _ _ _ _ _ helement ho => exact hrange (hes ▸ mem_cons_self) helement ho
    | settled hos _ _ ho =>
      exact hsettles (by simp) (fun vs v hv => ⟨_, by decide, hv⟩) hos ho
  · obtain ⟨os, h, rfl, _⟩ := h
    exact isSorted_of_joinGives hprecision hf (hos hargs h) (joinGives_concatenated fn t os)
  · exact hposition rfl (fun _ => rfl) h
  · exact hposition rfl (fun _ => rfl) h
  · rename_i hif _ _ _ _ _ _
    obtain ⟨os, hos, ho⟩ := h
    refine hsettles (fun heq => hif heq) (fun vs v hv => ⟨fn, fun heq => ?_, ?_⟩) hos ho
    · exact hif (hf.symm.trans heq)
    · split at hv
      · cases hv
      · exact hv

/-- Every constant that is remembered may stand in a formula. -/
def Memo.Fits (plain : Bool) (m : Memo) : Prop :=
  ∀ a c, m.find? a = some c → c.value.fits plain = true

theorem isSorted_of_cellGives (hU : U.Fits plain)
    {R : Address → Giving} (ha : a.isWord = true) (h : CellGives site L U R a o) :
    o.expr.isSorted plain place = true := by
  have hcell : (Expr.cell a).isSorted plain place = true := by
    rw [Expr.isSorted]
    exact ha
  cases h with
  | input | left => exact isSorted_ofExpr hcell
  | remembered _ hc => exact (fits_constant _ (hU a _ hc)).isSorted place
  | literal _ _ _ hc =>
    have hv := hU a _ hc
    unfold Site.literalOf at hv ⊢
    dsimp only at hv ⊢
    split at hv
    · rw [if_pos ‹_›]
      exact fits_blank.isSorted place
    · rw [if_neg ‹_›]
      exact (fits_constant _ hv).isSorted place
  | entered _ _ _ _ hc => exact Outcome.Fits.isSorted ⟨_, _, rfl, hU a _ hc⟩ place

end Calls

end FormulaFold
