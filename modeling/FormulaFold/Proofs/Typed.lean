import FormulaFold.Proofs.Accumulators
import FormulaFold.Proofs.Elements

/-! # The data types of known values

A known value whose data type is unknown gets that of the value when it is remembered of a cell.
**Walks only give known values that have got it already** (`typed_of_gives`), so that a value
recalled from memory is the one that was found.
-/
namespace FormulaFold

open Walk

variable {b : Bindings} {rebuild : FoldState → Expr} {o : Outcome} {site : Site}

/-- Whether the outcome is that of its formula: an unknown data type was replaced by that of the
value, and what is left to the run is no constant. -/
def Outcome.Typed (o : Outcome) : Prop := .ofExpr o.expr = o

theorem typed_constant (v : Value) (t : DataType) : (Outcome.constant v t).Typed := by
  have hidem : (t.orElse v.dataType).orElse v.dataType = t.orElse v.dataType := by
    unfold DataType.orElse
    grind
  exact congrArg (Outcome.known v) hidem

theorem typed_ofExpr (e : Expr) : (ofExpr e).Typed := by
  cases e with
  | constant v t => exact typed_constant v t
  | _ => rfl

theorem typed_ofChild (e : Option Expr) : (ofChild e).Typed := by
  cases e with
  | none => exact typed_constant .null .null
  | some e => exact typed_ofExpr e

theorem Outcome.Typed.constant_eq (h : (Outcome.known v t).Typed) :
    Outcome.constant v t = .known v t := h

theorem opens_typed : Opens Outcome.Typed where
  blank := typed_constant _ _
  ofExpr e _ := typed_ofExpr e
  range _ x _ := typed_ofExpr x
  splice _ x _ := typed_ofExpr x

/-- Whether all that names stand for is typed. -/
def Bindings.Typed (b : Bindings) : Prop := ∀ name o, b.lookup name = .ok (some o) → o.Typed

namespace Bindings.Typed

theorem empty : Bindings.empty.Typed := by
  intro name o h
  cases h

theorem push (h : b.Typed) {name : String} {o : Option Outcome} (ho : ∀ x, o = some x → x.Typed) :
    (b.push name o).Typed := by
  intro x y hy
  rw [lookup_push] at hy
  split at hy
  · exact ho y (by simpa using hy)
  · exact h x y hy

theorem pushAll (h : b.Typed) {pairs : Pairs}
    (hpairs : ∀ p ∈ pairs, p.2.Typed) : (b.pushAll pairs).Typed := by
  induction pairs generalizing b with
  | nil => exact h
  | cons pair rest ih =>
    have hrest (p : String × Outcome) (hp : p ∈ rest) := hpairs p (mem_cons_of_mem _ hp)
    unfold Bindings.pushAll
    split
    · exact ih h hrest
    · refine ih (h.push fun x hx => ?_) hrest
      cases hx
      exact hpairs _ mem_cons_self

end Bindings.Typed

theorem typed_of_kept? {r : Except Failure Value} (h : site.kept? node r = some o) : o.Typed := by
  have hkeep (v : Value) (h : some (site.keep node v) = some o) : o.Typed := by
    rw [← Option.some.inj h]
    exact typed_constant _ _
  unfold Site.kept? at h
  split at h
  · cases h
  · split at h
    · exact hkeep _ h
    · cases h
  · exact hkeep _ h

/-! ## Folds -/

/-- Whether the accumulators of a fold are typed. -/
abbrev FoldState.Typed (st : FoldState) : Prop := st.All Outcome.Typed fun _ => True

section Folds

/-- What is shown of the walks of the parts. -/
def TypedIn (b : Bindings) (_ : Expr) (o : Outcome) : Prop := b.Typed → o.Typed

variable {d : FoldDef Expr}

theorem accumulates_typed (hb : b.Typed) : d.Accumulates Outcome.Typed TypedIn b where
  steps _ hpairs _ _ _ ho _ := ho (hb.pushAll hpairs)
  number _ := typed_constant _ _

theorem typed_of_startGives (hb : b.Typed) (h : StartGives (TypedIn b) inits folded (some st)) :
    st.Typed :=
  .start (fun _ _ _ ho _ => ho hb) h rfl

theorem typed_of_tuplesGive (hb : b.Typed)
    (htuples : ∀ tuple ∈ tuples, ∀ o ∈ tuple, o.Typed) (hst : st.Typed)
    (h : TuplesGive TypedIn b d st tuples st') : st'.Typed :=
  (accumulates_typed hb).tuples (fun tuple ht o ho _ => htuples tuple ht o ho)
    (fun _ _ _ _ => trivial) hst h

theorem typed_of_resultGives (hb : b.Typed) (hst : st.Typed) (h : ResultGives TypedIn b d st o) :
    o.Typed := by
  cases h with
  | whenEmpty _ _ ho => exact ho hb
  | blank => exact typed_constant _ _
  | first _ haccs => exact hst.accs _ haccs o mem_cons_self
  | merged _ haccs _ _ ho =>
    exact ho (hb.pushAll (hst.mergePairs (fun _ => typed_constant _ _) haccs))

theorem typed_of_rebuilt (h : Rebuilt node os o) : o.Typed := by
  obtain ⟨e, _, rfl⟩ := h
  exact typed_ofExpr e

theorem typed_of_completeGives (hb : b.Typed) (hst : st.Typed)
    (h : CompleteGives TypedIn b d partialFolds st (Rebuilt node os) rebuild o) : o.Typed := by
  cases h with
  | result _ ho => exact typed_of_resultGives hb hst ho
  | whole _ _ ho => exact typed_of_rebuilt ho
  | rebuilt => exact typed_ofExpr _

end Folds

/-! ## Walks -/

theorem typed_of_settles {compute : Computation}
    (h : Settles False site node compute os o) : o.Typed := by
  cases h with
  | kept _ hkept => exact typed_of_kept? hkept
  | left _ _ => exact typed_ofExpr _

theorem typed_of_childOr (hb : b.Typed) (hmissing : missing.Typed)
    (h : ChildOr missing (TypedIn b) e o) : o.Typed := by
  cases e with
  | none => exact h ▸ hmissing
  | some e => exact h hb

theorem typed_of_forall₂ (hb : b.Typed)
    (h : Forall₂ (Child (TypedIn b)) es os) : ∀ o ∈ os, o.Typed := by
  induction h with
  | nil => simp
  | cons ho _ ih =>
    exact forall_mem_cons.mpr ⟨typed_of_childOr hb (typed_constant _ _) ho, ih⟩

theorem typed_of_callGives (hb : b.Typed)
    (h : CallGives False site (TypedIn b) fn args t o f) : o.Typed := by
  have hbool {decisive : Bool} {r : Option (List Expr)} (h : BoolGives fn t decisive r o) :
      o.Typed := by
    cases h with
    | decided | dropped => exact typed_constant _ _
    | left => exact typed_ofExpr _
  have hposition {position : Address → Int}
      (h : PositionGives False site (TypedIn b) fn position args t o) : o.Typed := by
    cases h with
    | known _ ho => exact typed_of_kept? ho
    | left _ _ ho => exact typed_of_rebuilt ho
  unfold CallGives at h
  split at h
  · rcases h with ⟨_, _, _, _, _, ho⟩ | ⟨_, _, _, ho⟩
    · cases ho with
      | chosen _ _ ho | other _ _ ho => exact typed_of_childOr hb (typed_constant _ _) ho
      | settled _ _ ho => exact typed_of_settles ho
    · exact typed_of_settles ho
  · exact hbool h.choose_spec.2
  · exact hbool h.choose_spec.2
  · cases h with
    | one _ _ _ _ _ _ ho | two _ _ _ _ _ _ _ _ _ ho =>
      exact typed_of_childOr hb (typed_constant _ _) ho
    | settled _ _ _ ho => exact typed_of_settles ho
  · obtain ⟨os, _, rfl, _⟩ := h
    unfold Site.concatenated
    split
    · cases hkept : site.kept? (.call fn args t) (site.engine.call Builtin.concatenate.name [])
      · rw [Option.getD_none]
        exact typed_ofExpr _
      · exact typed_of_kept? hkept
    · dsimp only
      split <;> exact typed_ofExpr _
  · exact hposition h
  · exact hposition h
  · exact typed_of_settles h.choose_spec.2

theorem typed_of_cellGives {R : Address → Giving}
    (hR : ∀ a f o, R a f o → o.Typed) (h : CellGives site L U R a o) : o.Typed := by
  cases h with
  | input | left => exact typed_ofExpr _
  | remembered => exact typed_constant _ _
  | literal =>
    unfold Site.literalOf
    split <;> exact typed_constant _ _
  | entered _ _ _ henter _ => exact hR _ _ _ henter

theorem typed_of_elements? (h : o.elements? = some elements) : ∀ x ∈ elements, x.Typed := by
  intro x hx
  unfold Outcome.elements? at h
  split at h
  · cases h
    obtain ⟨y, _, rfl⟩ := mem_map.mp hx
    exact typed_ofChild y
  · cases h
    obtain ⟨y, _, rfl⟩ := mem_map.mp hx
    exact typed_ofChild y
  · cases h

theorem typed_of_arrayElements? (ha : a.Typed)
    (h : arrayElements? a = some elements) : ∀ o ∈ elements, o.Typed := by
  unfold arrayElements? at h
  split at h
  · rename_i os hos
    cases h
    exact opens_typed.of_mem_flattenOutcomes (typed_of_elements? hos)
  · cases h
    intro o ho
    obtain ⟨v, _, rfl⟩ := mem_map.mp ho
    exact typed_constant _ _
  · cases h
    intro o ho
    rw [mem_singleton.mp ho]
    exact ha
  · cases h

theorem typed_of_elementsGive (hb : b.Typed) (hos : ∀ o ∈ os, o.Typed)
    (h : ElementsGive TypedIn b d p node inits folded rebuild os o) : o.Typed := by
  cases h with
  | notStarted _ ho => exact typed_of_rebuilt ho
  | folded hstart htuples ho =>
    refine typed_of_completeGives hb (typed_of_tuplesGive hb ?_ (typed_of_startGives hb hstart)
      htuples) ho
    intro tuple htuple x hx
    obtain ⟨y, hy, rfl⟩ := mem_map.mp htuple
    rw [mem_singleton.mp hx]
    exact opens_typed.of_mem_flattenOutcomes hos y hy

theorem typed_of_columns (h : vectorElements? none 1 os = some (.ok vectors)) (width : Nat) :
    ∀ tuple ∈ columnsOf width vectors, ∀ o ∈ tuple, o.Typed := by
  intro tuple htuple o ho
  obtain ⟨i, _, rfl⟩ := mem_map.mp htuple
  obtain ⟨v, hv, ho⟩ := mem_filterMap.mp ho
  obtain ⟨x, _, hx⟩ := exists_of_forall₂_of_mem (vectorElements?_eq_ok h).1 hv
  obtain ⟨elements, helements, rfl⟩ := map_eq_some_iff.mp hx
  exact opens_typed.of_mem_flattenOutcomes (typed_of_elements? helements) o (mem_of_getElem? ho)

/-- A node whose parts give typed outcomes gives a typed outcome. -/
theorem typed_of_nodeGives {entered : Address → Giving}
    (hentered : ∀ a f o, entered a f o → o.Typed) (hb : b.Typed)
    (h : NodeGives False site (CellGives site L U entered) TypedIn b e o) : o.Typed := by
  cases h with
  | constant => exact typed_constant _ _
  | operator _ ho => exact typed_of_settles ho
  | call ho => exact typed_of_callGives hb ho
  | cell ho => exact typed_of_cellGives hentered ho
  | range _ ho | splice _ ho | subSection _ ho => exact typed_of_rebuilt ho
  | letIn hv hr ho =>
    cases ho with
    | known =>
      refine hr (hb.push fun x hx => ?_)
      split at hx
      · cases hx
        exact hv hb
      · cases hx
    | left => rfl
  | letVar ho => exact hb _ _ ho
  | letVarLeft | switchLeft | switchCase => rfl
  | switch _ ho => exact typed_of_childOr hb (typed_constant _ _) ho
  | fold hos ho | reduce hos ho => exact typed_of_elementsGive hb (typed_of_forall₂ hb hos) ho
  | foldArray ha ho =>
    have ha := typed_of_childOr hb (typed_constant _ _) ha
    cases ho with
    | sized _ ho | notStarted _ _ ho | stuck _ _ _ ho => exact typed_of_rebuilt ho
    | folded helements hstart hwhole ho =>
      exact typed_of_resultGives hb ((accumulates_typed hb).whole
        (fun o ho _ => typed_of_arrayElements? ha helements o ho)
        (typed_of_startGives hb hstart) hwhole rfl) ho
  | foldVectors hos _ _ ho =>
    cases ho with
    | sized _ ho | notStarted _ _ ho => exact typed_of_rebuilt ho
    | folded hvectors hstart htuples ho =>
      exact typed_of_completeGives hb (typed_of_tuplesGive hb (typed_of_columns hvectors _)
        (typed_of_startGives hb hstart) htuples) ho
  | foldTable ha ho =>
    cases ho with
    | sized _ ho | notStarted _ _ _ ho => exact typed_of_rebuilt ho
    | folded _ _ _ hstart _ _ hrows ho =>
      refine typed_of_completeGives hb ((accumulates_typed hb).rows (fun row hrow o ho _ => ?_)
        (fun _ _ _ _ => trivial) (typed_of_startGives hb hstart) hrows) ho
      obtain ⟨x, _, rfl⟩ := mem_map.mp (mem_of_mem_rowsOf (mem_of_mem_take hrow) ho)
      exact typed_ofChild x
  | parentSection hr ho =>
    cases ho with
    | known => exact hr hb
    | left => exact typed_ofExpr _
  | count ho =>
    cases ho with
    | known => exact typed_constant _ _
    | left => exact typed_ofExpr _

/-- **The known values that walks give are typed.** -/
theorem typed_of_gives {opt : Optimizer} {book : Workbook} (n : Nat) :
    ∀ {origin : Option Address} (e : Expr) {b : Bindings} {o : Outcome}, b.Typed →
      Gives L U b (opt.walkDeep book n origin e) o → o.Typed := by
  induction n with
  | zero =>
    intro origin e
    induction e using induction_on_parts with
    | step e ih =>
      intro b o hb h
      exact typed_of_nodeGives (fun _ _ _ h => h.elim) hb
        (gives_walkDeep (fun b p o hp h hb => ih p hp hb h) h)
  | succ n ihn =>
    intro origin e
    induction e using induction_on_parts with
    | step e ih =>
      intro b o hb h
      exact typed_of_nodeGives (fun _ f _ h => ihn f .empty h) hb
        (gives_walkDeep (fun b p o hp h hb => ih p hp hb h) h)

end FormulaFold
