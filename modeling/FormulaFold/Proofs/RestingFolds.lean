import FormulaFold.Proofs.Resting

/-! # What a walk leaves of a fold

A fold that is left as a whole is idle for the reason it was idle before.  A smaller fold starts
with what was accumulated and holds all its elements again, and these are elements of what is left
of the elements of the fold.  With that **what is left of every formula stays as it is**
(`Second.rests`).
-/
namespace FormulaFold

open Walk

variable {v : List Outcome} {x : Option Expr} {o : Outcome} {P : WalkState → Prop} {site : Site}
  {enter : Address → Expr → Action} {R : Bindings → Giving} {Q : Expr → Prop}

/-- A known value that may stand in a formula. -/
abbrev Outcome.Firm (o : Outcome) : Prop := o.Fits false ∧ o.Typed

theorem Outcome.Firm.stays (h : o.Firm) (b : Bindings) : Stays P site enter b o.expr := by
  obtain ⟨⟨v, t, rfl, _⟩, htyped⟩ := h
  exact stays_known htyped rfl

/-- The walk of a known value is sure to give it. -/
theorem Outcome.Firm.comes (h : o.Firm) (b : Bindings) :
    Sure P (walk site enter) b o.expr o := by
  have hcomes : Comes P b (o.expr.walk site enter) (.ofExpr o.expr) := (h.stays b).comes
  rwa [show Outcome.ofExpr o.expr = o from h.2] at hcomes

/-- What is left of a child of a fold: it stays, and so do its elements. -/
structure Remains (P : WalkState → Prop) (site : Site) (enter : Address → Expr → Action)
    (Q : Expr → Prop) (b : Bindings) (o : Outcome) : Prop where
  typed : o.Typed
  sorted : o.expr.isSorted false .element = true
  size : o.flatten.length < 2 ^ 63
  elements : ∀ y ∈ o.flatten, Q y.expr → Stays P site enter b y.expr
  stays : Q o.expr → Stays P site enter b o.expr

namespace Remains

variable {b : Bindings}

theorem firm (h : Remains P site enter Q b o) (hknown : o.isKnown = true) : o.Firm :=
  ⟨fits_of_isKnown h.sorted hknown, h.typed⟩

theorem of_mem_flattenOutcomes (hos : ∀ o ∈ os, Remains P site enter Q b o) :
    ∀ y ∈ flattenOutcomes os, Remains P site enter Q b y := by
  intro y hy
  have hflat : y.flatten = [y] := flatten_of_mem_flattenOutcomes hy
  have hstays : Q y.expr → Stays P site enter b y.expr := by
    obtain ⟨o, ho, hy⟩ := mem_flatMap.mp hy
    exact (hos o ho).elements y hy
  refine ⟨opens_typed.of_mem_flattenOutcomes (fun o ho => (hos o ho).typed) y hy,
    opens_isSorted.of_mem_flattenOutcomes (fun o ho => (hos o ho).sorted) y hy, ?_, ?_, hstays⟩
  · rw [hflat, List.length_singleton]
    decide
  · rw [hflat]
    simpa using hstays

end Remains

/-! ## Folds over lists -/

namespace ListFold

variable {d : FoldDef Expr} {x : Expr} {inits : Children}
  (h : ListFold d e inits folded es)
include h

theorem ofExpr : Outcome.ofExpr e = .residual e := by
  cases h <;> rfl

theorem mem_liveParts (hx : some x ∈ es) : x ∈ e.liveParts := by
  cases h <;> simp [liveParts, hx]

theorem mem_probes (hx : some x ∈ inits ∨ x ∈ d.steps) : x ∈ e.probes := by
  cases h with
  | fold => rcases hx with hx | hx <;> simp [Expr.probes, hx]
  | reduce => rcases hx with hx | hx <;> simp_all [Expr.probes]

end ListFold

namespace Second

variable (h₂ : Second P site enter R Q) {b : Bindings} {node : Expr} {d : FoldDef Expr}
  {st : FoldState} {inits : Children}
include h₂

theorem sure (hQ : Q e) (hp : p ∈ e.probes) (h : Rested P site enter R Q b p o) :
    Sure P (walk site enter) b p o := h₂.probe _ hQ p hp b o h.1

section Folds

variable (hb : b.Fits false) (htypes : b.Typed) (hd : d.Sorted false)
include hb htypes

/-! ## Accumulators -/

include hd in
theorem accumulates_firm : d.Accumulates Outcome.Firm (Rested P site enter R Q) b where
  steps pairs hpairs x hx o ho hconst := by
    have hfits := hb.pushAll fun pair hpair => (hpairs pair hpair).1
    have htyped := htypes.pushAll fun pair hpair => (hpairs pair hpair).2
    exact ⟨fits_of_isConstant (h₂.sorted _ _ _ ho.1 hfits .scalar (hd.steps x hx)) hconst,
      h₂.typed _ _ _ ho.1 htyped⟩
  number n := ⟨fits_number n, typed_constant _ _⟩

theorem firm_of_startGives (hinits : ∀ x, some x ∈ inits → x.isSorted false .scalar = true)
    (h : StartGives (Rested P site enter R Q b) inits folded (some st)) :
    st.All Outcome.Firm fun _ => True := by
  refine .start (fun x o hx ho hconst => ?_) h rfl
  exact ⟨fits_of_isConstant (h₂.sorted _ _ _ ho.1 hb .scalar (hinits x hx)) hconst,
    h₂.typed _ _ _ ho.1 htypes⟩

omit h₂
include hd

/-- The end of a fold. -/
theorem stays_of_resultGives (hregular : node.Regular) (hparts : ∀ x ∈ d.parts, x ∈ node.parts)
    (hst : st.All Outcome.Firm fun _ => True)
    (h : ResultGives (Rested P site enter R Q) b d st o) (hQ : Q o.expr) :
    Stays P site enter b o.expr := by
  have hpart (x : Expr) (hx : x ∈ d.parts) : x.Regular := hregular.part (hparts x hx)
  cases h with
  | @whenEmpty x _ hx _ ho =>
    exact (ho.2 .scalar b (hd.whenEmpty x hx) (hpart x (by simp [FoldDef.parts, hx])) hb htypes
      (.inl rfl)).2 hQ
  | blank => exact stays_known (typed_constant _ _) rfl
  | first _ haccs => exact (hst.accs _ haccs o mem_cons_self).stays b
  | @merged accs x _ _ haccs hx _ ho =>
    -- The merge has no folds, so that what is left of it can leave the scope of the fold.
    have hpairs := hst.mergePairs (fun n => ⟨fits_number n, typed_constant _ _⟩) haccs
      (d := d)
    exact (ho.2 .scalar b (hd.merge x hx) (hpart x (by simp [FoldDef.parts, hx]))
      (hb.pushAll fun pair hpair => (hpairs pair hpair).1)
      (htypes.pushAll fun pair hpair => (hpairs pair hpair).2)
      (carries_pushAll (hd.unfolded x hx) _ _)).2 hQ

end Folds

/-! ## Children -/

section Children

variable (hb : b.Fits false) (htypes : b.Typed)
include hb htypes

/-- What is left of a child of a fold. -/
theorem remains_of_child (hsorted : optionSorted false place x = true)
    (hregular : ∀ y, x = some y → y.Regular) (h : Child (Rested P site enter R Q b) x o) :
    Remains P site enter Q b o := by
  cases x with
  | none =>
    have hblank : Stays P site enter b Outcome.blank.expr := stays_known (typed_constant _ _) rfl
    rw [show o = .blank from h]
    refine ⟨typed_constant _ _, fits_blank.isSorted _, by decide, fun y hy _ => ?_, fun _ => hblank⟩
    rwa [mem_singleton.mp hy]
  | some x =>
    have hregular := hregular x rfl
    have helement : x.isSorted false .element = true := x.isSorted_element place hsorted
    obtain ⟨helements, hstays⟩ := h.2 place b hsorted hregular hb htypes (.inl rfl)
    refine ⟨h₂.typed _ _ _ h.1 htypes, h₂.sorted _ _ _ h.1 hb _ helement, ?_, helements, hstays⟩
    rw [h₂.length_flatten hb x h.1 helement]
    exact hregular.sizes x .refl

theorem remains_of_children (hes : allSorted false place es = true)
    (hregular : ∀ x, some x ∈ es → x.Regular)
    (hos : Forall₂ (Child (Rested P site enter R Q b)) es os) :
    ∀ o ∈ os, Remains P site enter Q b o := by
  intro o ho
  obtain ⟨x, hx, ho⟩ := exists_of_forall₂_of_mem hos ho
  have hsorted : optionSorted false place x = true :=
    optionSorted_iff.mpr fun y hy => allSorted_iff.mp hes y (hy ▸ hx)
  exact h₂.remains_of_child hb htypes hsorted (fun y hy => hregular y (hy ▸ hx)) ho

end Children

/-! ## Lists -/

section Lists

variable (hb : b.Fits false) (htypes : b.Typed) (hd : d.Sorted false)
  (hsensitive : d.orderSensitive = true)
  (hinits : ∀ x, some x ∈ inits → x.isSorted false .scalar = true)
include hb htypes hd hsensitive hinits

theorem stays_of_elementsGive {rebuild : FoldState → Expr} (hnode : ListFold d node inits folded es)
    (hregular : node.Regular) (hes : allSorted false .element es = true)
    (hrebuild : ∀ st : FoldState, st.Sized inits →
      ListFold d (rebuild st) st.resumed st.folded (st.held.flatten.map some))
    (hos : Forall₂ (Child (Rested P site enter R Q b)) es os)
    (h : ElementsGive (Rested P site enter R Q) b d site.partialFolds node inits folded rebuild os
      o) (hQ : Q o.expr) : Stays P site enter b o.expr := by
  have hremains := h₂.remains_of_children hb htypes hes
    (fun x hx => hregular.part (hnode.mem_parts (.inl hx))) hos
  have hleaves := Remains.of_mem_flattenOutcomes hremains
  -- The fold as a whole is idle again.
  have hwhole (ho : Rebuilt node os o) (hidle : IdleList (Rested P site enter R Q)
      site.partialFolds b d inits folded os) : Stays P site enter b o.expr := by
    obtain ⟨x, hx, rfl⟩ := ho
    have hx := hnode.withChildren hx
    rw [hx.ofExpr, Outcome.expr] at hQ ⊢
    refine hx.stays h₂.lenient h₂.frames (fun y hy => ?_) ?_
    · exact left_of_mem_keepMissing (K := fun y => Q y → Stays P site enter b y)
        (fun o ho => (hremains o ho).stays) y hy (h₂.part _ hQ y (hx.mem_liveParts hy))
    · rw [map_ofChild_keepMissing hos fun o ho => (hremains o ho).typed]
      exact IdleTuples.imp (fun _ _ _ hp => h₂.sure hQ (hx.mem_probes hp)) hidle
  cases h with
  | notStarted hstart ho => exact hwhole ho (.notStarted hstart)
  | @folded st st' _ hstart htuples ho =>
    have hfirm : st'.All Outcome.Firm fun _ => True := by
      refine (h₂.accumulates_firm hb htypes hd).tuples (fun tuple htuple x hx => ?_)
        (fun _ _ _ _ => trivial) (h₂.firm_of_startGives hb htypes hinits hstart) htuples
      obtain ⟨y, hy, rfl⟩ := mem_map.mp htuple
      rw [mem_singleton.mp hx]
      exact (hleaves y hy).firm
    cases ho with
    | result _ ho =>
      exact stays_of_resultGives hb htypes hd hregular (fun x hx => hnode.mem_parts (.inr hx)) hfirm
        ho hQ
    | whole hheld hprogress ho => exact hwhole ho (.held hstart htuples hheld hprogress)
    | rebuilt hheld hprogress =>
      have hx := hrebuild st' (htuples.keeps (fun _ _ _ _ => sized_of_itemGives)
        (sized_of_startGives hstart rfl))
      rw [hx.ofExpr, Outcome.expr] at hQ ⊢
      obtain ⟨left, st'', hsuffix, heq, hfolds, hne, hnone⟩ :=
        (inOrder_items hsensitive).folds_again htuples
          (stopped_of_startGives hstart rfl) (held_of_startGives hstart rfl) hheld
      obtain ⟨ys, hys, rfl⟩ := List.suffix_map_iff.mp hsuffix
      have hflat : st'.held.flatten = ys.map (·.expr) := by
        rw [heq, map_map, ← List.flatMap_def]
        exact List.map_eq_flatMap.symm
      rw [hflat] at hx
      refine hx.stays h₂.lenient h₂.frames (fun y hy => ?_)
        (.held (startGives_resumed ?_) ?_ hne ?_)
      · have hQy := h₂.part _ hQ y (hx.mem_liveParts hy)
        obtain ⟨z, hz, rfl⟩ : ∃ z ∈ ys, z.expr = y := by simpa using hy
        exact (hleaves z (hys.subset hz)).stays hQy
      · intro accs haccs o ho
        have hfirm := hfirm.accs accs haccs o ho
        exact ⟨hfirm.comes b, hfirm.1.isConstant⟩
      · rw [map_ofChild_exprs fun o ho => (hleaves o (hys.subset ho)).typed,
          flattenOutcomes_of_flat fun o ho => flatten_of_mem_flattenOutcomes (hys.subset ho)]
        exact TuplesGive.imp (fun _ _ _ hp => h₂.sure hQ (hx.mem_probes (.inr hp))) hfolds
      · rw [hnone]
        rfl

end Lists

/-! ## Arrays -/

omit h₂ in
theorem ofChild_map_expr {S : Giving} (h : Child S x a) (htyped : a.Typed) :
    ofChild (x.map fun _ => a.expr) = a := by
  cases x with
  | none => exact (show a = .blank from h) ▸ rfl
  | some x => exact htyped

section Arrays

variable (hb : b.Fits false) (htypes : b.Typed) (hd : d.Sorted false)
include hb htypes hd

theorem stays_of_arrayGives (hregular : (Expr.foldArray d array t).Regular)
    (harray : optionSorted false .element array = true)
    (ha : Child (Rested P site enter R Q b) array a)
    (h : ArrayGives (Rested P site enter R Q) b d (.foldArray d array t) d.inits a o)
    (hQ : Q o.expr) : Stays P site enter b o.expr := by
  have hremains := h₂.remains_of_child hb htypes harray
    (fun y hy => hregular.part (by simp [parts, hy])) ha
  have hwhole (ho : Rebuilt (.foldArray d array t) [a] o)
      (hidle : IdleArray (Rested P site enter R Q) b d a) : Stays P site enter b o.expr := by
    obtain ⟨x, hx, rfl⟩ := ho
    cases hx
    replace hQ : Q (.foldArray d (array.map fun _ => a.expr) t) := hQ
    refine stays_foldArray h₂.lenient h₂.frames (fun y hy => ?_) fun elements helements => ?_
    · obtain ⟨_, rfl, rfl⟩ := map_eq_some_iff.mp hy
      exact hremains.stays
        (h₂.part _ hQ _ (by simp [liveParts]))
    · rw [ofChild_map_expr ha hremains.typed] at helements
      rcases hidle elements helements with hstart | ⟨st, hstart, hstuck⟩
      · exact .inl (hstart.imp fun _ _ hp => h₂.sure hQ (by simp [Expr.probes, hp]))
      · exact .inr ⟨st, hstart.imp fun _ _ hp => h₂.sure hQ (by simp [Expr.probes, hp]),
          hstuck.imp fun _ _ _ hp => h₂.sure hQ (by simp [Expr.probes, hp])⟩
  cases h with
  | sized helements ho =>
    refine hwhole ho fun elements heq => ?_
    rw [helements] at heq
    cases heq
  | notStarted _ hstart ho => exact hwhole ho fun _ _ => .inl hstart
  | stuck helements hstart hstuck ho =>
    refine hwhole ho fun elements heq => .inr ⟨_, hstart, ?_⟩
    rw [helements] at heq
    cases heq
    exact hstuck
  | @folded elements st st' _ helements hstart hfolded ho =>
    have hfirm : st'.All Outcome.Firm fun _ => True := by
      refine (h₂.accumulates_firm hb htypes hd).whole (fun x hx hknown => ?_)
        (h₂.firm_of_startGives hb htypes hd.inits hstart) hfolded rfl
      exact ⟨fits_of_arrayElements? hremains.sorted helements x hx hknown,
        typed_of_arrayElements? hremains.typed helements x hx⟩
    exact stays_of_resultGives hb htypes hd hregular (fun x hx => by simp [parts, hx]) hfirm ho
      hQ

end Arrays

/-! ## Vectors -/

omit h₂ in
/-- Vectors that are as long as each other. -/
theorem vectorElements?_of_forall₂
    (h : Forall₂ (fun o v => o.elements?.map flattenOutcomes = some v) os vectors)
    (hk : ∀ v ∈ vectors, v.length = k) (hfirst : ∀ n, first = some n → n = k) (position : Nat) :
    vectorElements? first position os = some (.ok vectors) := by
  induction h generalizing first position with
  | nil => rfl
  | @cons o v os vectors hv _ ih =>
    have hk := forall_mem_cons.mp hk
    obtain ⟨elements, helements, rfl⟩ := map_eq_some_iff.mp hv
    have hwidth : first.getD (flattenOutcomes elements).length = k := by
      cases first with
      | none => exact hk.1
      | some n => exact hfirst n rfl
    rw [vectorElements?_cons, helements, bind_some, hwidth, if_neg (by simp [hk.1]),
      ih hk.2 (by rintro n ⟨⟩; rfl)]
    rfl

omit h₂ in
/-- The elements of a vector of outcomes. -/
theorem elements?_vector (hv : ∀ o ∈ v, o.Typed ∧ o.flatten = [o]) :
    (Outcome.ofExpr (Expr.vector (v.map (·.expr)))).elements?.map flattenOutcomes = some v := by
  have helements : (Outcome.ofExpr (Expr.vector (v.map (·.expr)))).elements? = some v :=
    congrArg some (map_ofChild_exprs fun o ho => (hv o ho).1)
  rw [helements, map_some, flattenOutcomes_of_flat fun o ho => (hv o ho).2]

section Vectors

variable (hb : b.Fits false) (htypes : b.Typed)

omit h₂ in
/-- A vector of elements that stay. -/
theorem stays_vector (hsize : v.length < 2 ^ 63) (hv : ∀ o ∈ v, Stays P site enter b o.expr) :
    Stays P site enter b (Expr.vector (v.map (·.expr))) := by
  refine stays_range (fun y hy => ?_) ?_
  · obtain ⟨o, ho, rfl⟩ : ∃ o ∈ v, o.expr = y := by simpa using hy
    exact hv o ho
  · have hshape : fitsShape v.length 1 v.length = true := by
      simp only [fitsShape, fitsWord, and_eq_true, beq_iff_eq, decide_eq_true_eq]
      omega
    simp only [withChildren_range, length_map, rangeShape_of_fitsShape hshape]

/-- A fold over what is left of vectors that holds all of it again. -/
theorem stays_resumed_vectors {t : DataType} {rest : List (List Outcome)} {k : Nat}
    (hne : rest ≠ []) (hlen : rest.length = d.elementNames.length) (hk : ∀ v ∈ rest, v.length = k)
    (hrest : ∀ v ∈ rest, v.length < 2 ^ 63 ∧
      ∀ z ∈ v, Remains P site enter Q b z ∧ z.flatten = [z])
    (hseeds : d.start st.seeds = st.resumed) (hfirm : st.All Outcome.Firm fun _ => True)
    (hfolds : TuplesGive (Rested P site enter R Q) b d (.start st.accs st.folded)
      (columnsOf k rest) st') (hheld : st'.held ≠ []) (hprogress : st'.progress = false)
    (hQ : Q (.foldVectors d st.seeds st.folded
      ((rest.map fun v => Expr.vector (v.map (·.expr))).map some) t)) :
    Stays P site enter b (.foldVectors d st.seeds st.folded
      ((rest.map fun v => Expr.vector (v.map (·.expr))).map some) t) := by
  have hvectors : vectorElements? none 1
      (((rest.map fun v => Expr.vector (v.map (·.expr))).map some).map ofChild) =
        some (.ok rest) := by
    refine vectorElements?_of_forall₂ ?_ hk (by simp) 1
    simp only [forall₂_map_left_iff]
    exact forall₂_same.mpr fun v hv =>
      elements?_vector fun z hz => ⟨((hrest v hv).2 z hz).1.typed, ((hrest v hv).2 z hz).2⟩
  have hwidth : (rest.headD []).length = k := by
    cases rest with
    | nil => exact absurd rfl hne
    | cons v rest => exact hk v mem_cons_self
  refine stays_foldVectors h₂.lenient h₂.frames (by simpa using hne) (by simpa using hlen)
    (fun y hy => ?_) (fun m => by rw [hvectors]; simp) fun vectors heq => ?_
  · have hQy := h₂.part _ hQ y (List.mem_append_right _ (mem_present.mpr hy))
    obtain ⟨v, hv, rfl⟩ : ∃ v ∈ rest, Expr.vector (v.map (·.expr)) = y := by simpa using hy
    refine stays_vector (hrest v hv).1 fun z hz => ((hrest v hv).2 z hz).1.stays ?_
    refine h₂.part _ hQy z.expr ?_
    simpa [Expr.vector, liveParts, parts] using ⟨z, hz, rfl⟩
  · rw [hvectors] at heq
    cases heq
    rw [hwidth, hseeds]
    refine .held (startGives_resumed fun accs haccs o ho => ?_) (hfolds.imp fun _ _ _ hp =>
      h₂.sure hQ (by simp [Expr.probes, hp])) hheld (by rw [hprogress]; rfl)
    have hfirm := hfirm.accs accs haccs o ho
    exact ⟨hfirm.comes b, hfirm.1.isConstant⟩

variable (hd : d.Sorted false) (hsensitive : d.orderSensitive = true)
include hb htypes hd hsensitive

theorem stays_of_vectorsGive (hregular : (Expr.foldVectors d seeds folded es t).Regular)
    (hes : allSorted false .element es = true) (hseeds : seedsSorted false seeds = true)
    (hos : Forall₂ (Child (Rested P site enter R Q b)) es os) (hne : os ≠ [])
    (hlen : os.length = d.elementNames.length)
    (h : VectorsGive (Rested P site enter R Q) b d site.partialFolds
      (.foldVectors d seeds folded es t) (d.start seeds) folded
      (fun st vectors => .foldVectors d st.seeds st.folded (vectors.map some) t) os o)
    (hQ : Q o.expr) : Stays P site enter b o.expr := by
  have hremains := h₂.remains_of_children hb htypes hes
    (fun x hx => hregular.part (by simp [parts, hx])) hos
  have hwhole (ho : Rebuilt (.foldVectors d seeds folded es t) os o)
      (hsame : ∀ m, vectorElements? none 1 os ≠ some (.error m))
      (hidle : IdleVectors (Rested P site enter R Q) site.partialFolds b d (d.start seeds) folded
        os) : Stays P site enter b o.expr := by
    obtain ⟨x, hx, rfl⟩ := ho
    cases hx
    replace hQ : Q (.foldVectors d seeds folded (keepMissing es os) t) := hQ
    have hsame' := map_ofChild_keepMissing hos fun o ho => (hremains o ho).typed
    have hlength : (keepMissing es os).length = os.length :=
      (length_keepMissing es os).trans hos.length_eq
    refine stays_foldVectors h₂.lenient h₂.frames ?_ (hlength.trans hlen) (fun y hy => ?_) ?_ ?_
    · intro hnil
      rw [← hsame', show keepMissing es os = [] from hnil] at hne
      exact hne rfl
    · exact left_of_mem_keepMissing (K := fun y => Q y → Stays P site enter b y)
        (fun o ho => (hremains o ho).stays) y hy (h₂.part _ hQ y
          (by simpa [liveParts] using .inr (.inr hy)))
    · rwa [Expr.children, hsame']
    · rw [Expr.children, hsame']
      exact fun vectors hvectors => IdleTuples.imp
        (fun _ _ _ hp => h₂.sure hQ (by simpa [Expr.probes] using hp)) (hidle vectors hvectors)
  cases h with
  | sized hvectors ho =>
    exact hwhole ho (by simp [hvectors]) fun _ heq => by simp [hvectors] at heq
  | notStarted hvectors hstart ho =>
    exact hwhole ho (by simp [hvectors]) fun _ _ => .notStarted hstart
  | @folded vectors st st' _ hvectors hstart htuples ho =>
    obtain ⟨helements, k, _, hk⟩ := vectorElements?_eq_ok hvectors
    have hleaves (v : List Outcome) (hv : v ∈ vectors) :
        v.length < 2 ^ 63 ∧ ∀ z ∈ v, Remains P site enter Q b z ∧ z.flatten = [z] := by
      obtain ⟨o, ho, hov⟩ := exists_of_forall₂_of_mem helements hv
      obtain ⟨elements, helements, rfl⟩ := map_eq_some_iff.mp hov
      rw [flatten_of_elements? helements]
      refine ⟨(hremains o ho).size, fun z hz => ?_⟩
      have hz : z ∈ flattenOutcomes os := mem_flatMap.mpr ⟨o, ho, hz⟩
      exact ⟨Remains.of_mem_flattenOutcomes hremains z hz, flatten_of_mem_flattenOutcomes hz⟩
    have hcolumns (width : Nat) (tuple : List Outcome) (htuple : tuple ∈ columnsOf width vectors)
        (z : Outcome) (hz : z ∈ tuple) : z.isKnown = true → z.Firm := by
      obtain ⟨i, _, rfl⟩ := mem_map.mp htuple
      obtain ⟨v, hv, hz⟩ := mem_filterMap.mp hz
      exact ((hleaves v hv).2 z (mem_of_getElem? hz)).1.firm
    have hfirm : st'.All Outcome.Firm fun _ => True :=
      (h₂.accumulates_firm hb htypes hd).tuples (hcolumns _) (fun _ _ _ _ => trivial)
        (h₂.firm_of_startGives hb htypes (hd.start hseeds) hstart) htuples
    cases ho with
    | result _ ho =>
      exact stays_of_resultGives hb htypes hd hregular (fun x hx => by simp [parts, hx]) hfirm
        ho hQ
    | whole hheld hprogress ho =>
      refine hwhole ho (by simp [hvectors]) fun vectors' hvectors' => ?_
      rw [hvectors] at hvectors'
      cases hvectors'
      exact .held hstart htuples hheld hprogress
    | rebuilt hheld hprogress =>
      obtain ⟨left, st'', ⟨first, hfirst⟩, heq, hfolds, hagain, hnone⟩ :=
        (inOrder_items hsensitive).folds_again htuples
          (stopped_of_startGives hstart rfl) (held_of_startGives hstart rfl) hheld
      have hlength : vectors.length = os.length := helements.length_eq.symm
      have hne' : vectors ≠ [] := by
        intro hnil
        rw [hnil] at hlength
        exact hne (length_eq_zero_iff.mp hlength.symm)
      have hwidth : (vectors.headD []).length = k := by
        cases vectors with
        | nil => exact absurd rfl hne'
        | cons v _ => exact hk v mem_cons_self
      rw [hwidth] at hfirst
      obtain ⟨m, _, _, rfl⟩ := exists_of_columnsOf_eq_append hfirst.symm
      have hheld' : (columnsOf vectors.length st'.held).map Expr.vector =
          (vectors.map (List.drop m)).map fun v => Expr.vector (v.map (·.expr)) := by
        rw [heq, columnsOf_map, columnsOf_columnsOf_drop hk, map_map]
        rfl
      have hsized := htuples.keeps (fun _ _ _ _ => sized_of_itemGives)
        (sized_of_startGives hstart rfl)
      rw [hheld'] at hQ ⊢
      refine h₂.stays_resumed_vectors (by simpa using hne') ?_ (fun v hv => ?_) (fun v hv => ?_)
        hsized.start_eq hfirm hfolds hagain hnone hQ
      · rw [length_map, hlength, hlen]
      · obtain ⟨u, hu, rfl⟩ := mem_map.mp hv
        rw [List.length_drop, hk u hu]
      · obtain ⟨u, hu, rfl⟩ := mem_map.mp hv
        refine ⟨?_, fun z hz => (hleaves u hu).2 z (List.mem_of_mem_drop hz)⟩
        have hsize := (hleaves u hu).1
        rw [List.length_drop]
        omega

end Vectors

/-! ## Tables -/

section Tables

/-- A fold over what is left of a table that holds all of its rows again. -/
theorem stays_resumed_table {left : List (List Outcome)} {cols : Int}
    (hcols : cols = (columns.getD []).length) (hcolumn : 0 ≤ column ∧ column < cols)
    (hheld : st.held = left.map (List.map (·.expr)))
    (hshape : fitsShape st.held.length cols st.held.flatten.length = true)
    (hwidth : ∀ row ∈ left, row.length = cols.toNat)
    (hleft : ∀ z ∈ left.flatten, Remains P site enter Q b z)
    (hseeds : d.start st.seeds = st.resumed) (hfirm : st.All Outcome.Firm fun _ => True)
    (hfolds : RowsGive (Rested P site enter R Q) b d (columns.getD []) filter column
      (.start st.accs st.folded) left st') (hagain : st'.held ≠ [])
    (hprogress : st'.progress = false)
    (hQ : Q (.foldTable d st.seeds st.folded columns filter column
      (some (.range st.held.length cols (st.held.flatten.map some))) t)) :
    Stays P site enter b (.foldTable d st.seeds st.folded columns filter column
      (some (.range st.held.length cols (st.held.flatten.map some))) t) := by
  have hflatten : st.held.flatten = left.flatten.map (·.expr) := by rw [hheld, List.map_flatten]
  have hlength : st.held.length = left.length := by rw [hheld, length_map]
  have helements : (st.held.flatten.map some).map ofChild = left.flatten := by
    rw [hflatten]
    exact map_ofChild_exprs fun z hz => (hleft z hz).typed
  have hfits := hshape
  simp only [fitsShape, and_eq_true, beq_iff_eq] at hfits
  have hsize : ((st.held.flatten.map some).length : Int) = wrap (st.held.length * cols) := by
    rw [wrap_of_fitsWord hfits.2, hfits.1, length_map]
  have hrows : rowsOf cols.toNat (st.held.flatten.map some).length left.flatten = left := by
    have hle := Int.mul_le_mul_of_nonneg_left (show 1 ≤ cols by omega)
      (Int.natCast_nonneg st.held.length)
    refine rowsOf_flatten (by omega) hwidth ?_
    rw [length_map]
    omega
  refine stays_foldTable h₂.lenient h₂.frames (fun y hy => ?_) fun rows cols' elements heq => ?_
  · cases hy
    have hQtable := h₂.part _ hQ _ (List.mem_append_right _ mem_cons_self)
    refine stays_range (fun y hy => ?_) ?_
    · have hQy := h₂.part _ hQtable y (by simpa [liveParts, parts] using hy)
      rw [hflatten, List.mem_map_of_injective (Option.some_injective Expr)] at hy
      obtain ⟨z, hz, rfl⟩ := mem_map.mp hy
      exact (hleft z hz).stays hQy
    · rw [withChildren_range, length_map, rangeShape_of_fitsShape hshape]
  · cases heq
    refine ⟨hcols, hcolumn.1, hcolumn.2, ?_⟩
    rw [helements, hrows, hseeds]
    refine .held (startGives_resumed fun accs haccs o ho => ?_) ⟨hsize, by omega, ?_⟩ hagain
      (by rw [hprogress]; rfl)
    · have hfirm := hfirm.accs accs haccs o ho
      exact ⟨hfirm.comes b, hfirm.1.isConstant⟩
    · rw [Int.toNat_natCast, hlength, List.take_length]
      exact hfolds.imp (fun _ _ _ hp => h₂.sure hQ (by simp [Expr.probes, hp]))
        fun _ _ _ hp => h₂.sure hQ (by simp [Expr.probes, hp])

variable (hb : b.Fits false) (htypes : b.Typed) (hd : d.Sorted false)
  (hsensitive : d.orderSensitive = true)
include hb htypes hd hsensitive

theorem stays_of_tableGives
    (hregular : (Expr.foldTable d seeds folded columns filter column table t).Regular)
    (htable : optionSorted false .argument table = true) (hseeds : seedsSorted false seeds = true)
    (ha : Child (Rested P site enter R Q b) table a)
    (h : TableGives (Rested P site enter R Q) b d site.partialFolds
      (.foldTable d seeds folded columns filter column table t) (d.start seeds) folded
      (columns.getD []) filter column
      (fun st table => .foldTable d st.seeds st.folded columns filter column (some table) t) a o)
    (hQ : Q o.expr) : Stays P site enter b o.expr := by
  have hremains := h₂.remains_of_child hb htypes htable
    (fun y hy => hregular.part (by simp [parts, hy])) ha
  have hsorted : a.expr.isSorted false .argument = true :=
    isSorted_of_childOr hb fits_blank htable (ha.imp fun x _ h => h₂.sorted _ _ _ h.1)
  have hwhole (ho : Rebuilt (.foldTable d seeds folded columns filter column table t) [a] o)
      (hidle : IdleTable (Rested P site enter R Q) site.partialFolds b d (d.start seeds) folded
        (columns.getD []) filter column a) : Stays P site enter b o.expr := by
    obtain ⟨x, hx, rfl⟩ := ho
    cases hx
    replace hQ : Q (.foldTable d seeds folded columns filter column
      (table.map fun _ => a.expr) t) := hQ
    refine stays_foldTable h₂.lenient h₂.frames (fun y hy => ?_) fun rows cols elements heq => ?_
    · obtain ⟨_, rfl, rfl⟩ := map_eq_some_iff.mp hy
      exact hremains.stays
        (h₂.part _ hQ _ (by simp [liveParts]))
    · rw [ofChild_map_expr ha hremains.typed] at heq
      obtain ⟨hcols, hlow, hhigh, hidle⟩ := hidle rows cols elements heq
      exact ⟨hcols, hlow, hhigh, hidle.imp
        (fun _ h => h.imp fun _ _ hp => h₂.sure hQ (by simp [Expr.probes, hp]))
        fun _ _ h => ⟨h.1, h.2.1, h.2.2.imp (fun _ _ _ hp => h₂.sure hQ (by simp [Expr.probes, hp]))
          fun _ _ _ hp => h₂.sure hQ (by simp [Expr.probes, hp])⟩⟩
  cases h with
  | sized hsized ho => exact hwhole ho fun rows cols elements heq => absurd heq (hsized _ _ _)
  | notStarted heq hcols hstart ho hcolumn =>
    subst heq
    refine hwhole ho fun rows cols elements heq => ?_
    cases heq
    exact ⟨hcols, hcolumn.1, hcolumn.2, .notStarted hstart⟩
  | @folded rows cols elements st st' _ heq hcols hcolumn hstart hsize hall hrows ho =>
    subst heq
    rw [Outcome.expr, isSorted, and_eq_true] at hsorted
    have helements : ∀ z ∈ elements.map ofChild, Remains P site enter Q b z := by
      intro z hz
      have hflat : z.flatten = [z] := by
        obtain ⟨x, hx, rfl⟩ := mem_map.mp hz
        exact (typed_ofChild x).flatten_of_scalar (isSorted_ofChild (optionSorted_iff.mpr
          fun y hy => allSorted_iff.mp hsorted.2 y (hy ▸ hx)))
      have hmem : z ∈ flattenOutcomes (elements.map ofChild) :=
        mem_flatMap.mpr ⟨z, hz, hflat ▸ mem_cons_self⟩
      rw [flatten_of_elements? (o := .residual (.range rows cols elements)) rfl] at hmem
      exact Remains.of_mem_flattenOutcomes (fun o ho => mem_singleton.mp ho ▸ hremains) z
        (mem_flatMap.mpr ⟨_, mem_cons_self, hmem⟩)
    have hrow {row : List Outcome} (hmem : row ∈ (rowsOf cols.toNat elements.length
        (elements.map ofChild)).take rows.toNat) :
        row.length = cols.toNat ∧ ∀ z ∈ row, Remains P site enter Q b z :=
      ⟨length_of_mem_rowsOf (mem_of_mem_take hmem), fun z hz =>
        helements z (mem_of_mem_rowsOf (mem_of_mem_take hmem) hz)⟩
    have hfirm : st'.All Outcome.Firm fun _ => True :=
      (h₂.accumulates_firm hb htypes hd).rows (fun row hmem z hz => ((hrow hmem).2 z hz).firm)
        (fun _ _ _ _ => trivial) (h₂.firm_of_startGives hb htypes (hd.start hseeds) hstart) hrows
    cases ho with
    | result _ ho =>
      exact stays_of_resultGives hb htypes hd hregular (fun x hx => by simp [parts, hx]) hfirm
        ho hQ
    | whole hheld hprogress ho =>
      refine hwhole ho fun rows cols elements heq => ?_
      cases heq
      exact ⟨hcols, hcolumn.1, hcolumn.2, .held hstart ⟨hsize, hall, hrows⟩ hheld hprogress⟩
    | rebuilt hheld hprogress =>
      obtain ⟨left, st'', hsuffix, heq, hfolds, hagain, hnone⟩ :=
        (inOrder_items hsensitive).folds_again hrows
          (stopped_of_startGives hstart rfl) (held_of_startGives hstart rfl) hheld
      have hsized := hrows.keeps (fun _ _ _ _ => sized_of_itemGives)
        (sized_of_startGives hstart rfl)
      have hshape : fitsShape st'.held.length cols st'.held.flatten.length = true := by
        rw [← length_map ofChild] at hrows
        refine fitsShape_held ?_ (by omega) (held_of_startGives hstart rfl) hrows
        rw [length_map]
        exact hsorted.1
      refine h₂.stays_resumed_table hcols hcolumn heq hshape
        (fun row hmem => (hrow (hsuffix.subset hmem)).1) (fun z hz => ?_) hsized.start_eq hfirm
        hfolds hagain hnone hQ
      obtain ⟨row, hmem, hz⟩ := List.mem_flatten.mp hz
      exact (hrow (hsuffix.subset hmem)).2 z hz

end Tables

/-! ## Formulas -/

omit h₂ in
/-- What is left of a fold does not leave the scope that it was found in. -/
theorem eq_of_carries (h : Carries e b b') (hfold : e.isFold = true) : b' = b := by
  rcases h with h | ⟨h, _⟩
  · exact h
  · cases e with
    | fold | reduce | foldArray | foldVectors | foldTable => cases h
    | _ => cases hfold

theorem stays_of_isFold {entered : Address → Giving}
    (he : e.isSorted false place = true) (hregular : e.Regular) (hb : b.Fits false)
    (htypes : b.Typed) (hfold : e.isFold = true)
    (h : NodeGives False site (CellGives site L U entered) (Rested P site enter R Q) b e o)
    (hQ : Q o.expr) :
    Stays P site enter b o.expr := by
  cases h with
  | fold hos ho =>
    simp only [isSorted, and_eq_true] at he
    obtain ⟨⟨⟨hsensitive, hd⟩, hseeds⟩, hes⟩ := he
    have hd := sorted_of_defSorted hd
    exact h₂.stays_of_elementsGive hb htypes hd hsensitive (hd.start hseeds) .fold hregular hes
      (fun _ => .of_sized) hos ho hQ
  | reduce hos ho =>
    simp only [isSorted, and_eq_true] at he
    obtain ⟨⟨⟨hsensitive, hd⟩, hseed⟩, hes⟩ := he
    refine h₂.stays_of_elementsGive hb htypes (sorted_of_defSorted hd) hsensitive (fun x hx => ?_)
      .reduce hregular hes (fun _ => .of_sized_seed) hos ho hQ
    exact optionSorted_iff.mp hseed x (mem_singleton.mp hx).symm
  | foldArray ha ho =>
    simp only [isSorted, and_eq_true] at he
    exact h₂.stays_of_arrayGives hb htypes (sorted_of_defSorted he.1) hregular he.2 ha ho hQ
  | foldVectors hos hne hlen ho =>
    simp only [isSorted, and_eq_true] at he
    obtain ⟨⟨⟨hsensitive, hd⟩, hseeds⟩, hes⟩ := he
    exact h₂.stays_of_vectorsGive hb htypes (sorted_of_defSorted hd) hsensitive hregular hes hseeds
      hos hne hlen ho hQ
  | foldTable ha ho =>
    simp only [isSorted, and_eq_true] at he
    obtain ⟨⟨⟨⟨hsensitive, hd⟩, hseeds⟩, _⟩, htable⟩ := he
    exact h₂.stays_of_tableGives hb htypes (sorted_of_defSorted hd) hsensitive hregular htable
      hseeds ha ho hQ
  | _ => cases hfold

/-- **What is left of a formula stays as it is.** -/
theorem rests (e : Expr) : ∀ {b : Bindings} {o : Outcome}, R b e o →
    Rests P site enter Q b e o := by
  induction e using induction_on_parts with
  | step e ih =>
    intro b o hR place b' he hregular hb htypes hcarries
    obtain ⟨L, U, entered, hnode⟩ := h₂.unfolds _ _ _ hR (Rested P site enter R Q)
      fun b p o hp h => ⟨h, ih p hp h⟩
    have hstays (hQ : Q o.expr) : Stays P site enter b' o.expr := by
      by_cases hfold : e.isFold = true
      · obtain rfl := eq_of_carries hcarries hfold
        exact h₂.stays_of_isFold he hregular hb htypes hfold hnode hQ
      · exact h₂.stays_of_nodeGives he hregular hb htypes hcarries
          (Bool.eq_false_of_not_eq_true hfold) hR hQ hnode
    exact ⟨h₂.stays_elements he hregular hb htypes hcarries hR hnode hstays, hstays⟩

end Second

end FormulaFold
