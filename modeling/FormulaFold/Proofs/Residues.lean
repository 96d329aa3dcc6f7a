import FormulaFold.Proofs.Accumulators
import FormulaFold.Proofs.Joining

/-! # What a walk leaves

The outcome of a walk is a constant, or what is left of a part, or a node around what is left of its
parts.  This module says what has to be known of a property of formulas for it to go over from the
outcomes of the parts to that of a call (`Residual.of_callGives`), of a count
(`forall_of_countArgs`) and of a fold (`FoldDef.Carries`).
-/
namespace FormulaFold

open Walk

variable {t : DataType} {K : Expr → Prop} {rebuild : FoldState → Expr}
  {args es : Children} {xs : List Expr} {os : List Outcome} {e : Option Expr}
  {a : Outcome} {quiet : Prop} {fn : String}

/-! ## Children -/

section Children

variable {R : Giving}

theorem left_of_becomes (hR : ∀ x o, e = some x → R x o → K o.expr)
    (h : Becomes R e e') : ∀ x, e' = some x → K x := by
  cases h with
  | none => simp
  | some h =>
    obtain ⟨o, ho, rfl⟩ := h
    rintro x ⟨⟩
    exact hR _ o rfl ho

theorem left_of_mem_keepMissing (h : ∀ o ∈ os, K o.expr) :
    ∀ x, some x ∈ keepMissing es os → K x := by
  intro x hx
  induction es generalizing os with
  | nil => cases hx
  | cons e es ih =>
    cases os with
    | nil =>
      rcases mem_cons.mp hx with hx | hx
      · cases hx
      · exact ih h hx
    | cons o os =>
      have ho := forall_mem_cons.mp h
      rcases mem_cons.mp hx with hx | hx
      · obtain ⟨_, _, rfl⟩ := map_eq_some_iff.mp hx.symm
        exact ho.1
      · exact ih ho.2 hx

/-- The arguments that a conjunction or a disjunction leaves. -/
theorem left_of_undecided (hR : ∀ x o, some x ∈ es → R x o → K o.expr)
    (h : Undecided site fn decisive R es r) : ∀ xs, r = some xs → ∀ x ∈ xs, K x := by
  induction h with
  | nil => rintro xs ⟨⟩; simp
  | missing _ ih | dropped _ _ _ ih => exact ih fun x o hx => hR x o (mem_cons_of_mem _ hx)
  | decided => simp
  | left ho _ _ ih =>
    intro xs hxs
    obtain ⟨rest, hrest, rfl⟩ := map_eq_some_iff.mp hxs
    refine forall_mem_cons.mpr ⟨hR _ _ mem_cons_self ho, ?_⟩
    exact ih (fun x o hx => hR x o (mem_cons_of_mem _ hx)) rest hrest

end Children

/-! ## Calls -/

/-- A property of formulas that all constants have, and that calls, ranges and splices have with
their arguments. -/
structure Residual (K : Expr → Prop) : Prop where
  constant : ∀ v t, K (.constant v t)
  call : ∀ fn {es} t, (∀ x, some x ∈ es → K x) → K (.call fn es t)
  range : ∀ {rows cols es}, K (.range rows cols es) ↔ ∀ x, some x ∈ es → K x
  splice : ∀ {es}, K (.splice es) ↔ ∀ x, some x ∈ es → K x

namespace Residual

variable {site : Site} (hK : Residual K) {R : Giving} {node : Expr} {o : Outcome}
include hK

theorem of_isAggregate (e : Expr) (h : e.isAggregate = true) : K e := by
  induction e using induction_on_parts with
  | step e ih =>
    have hall {es : Children} (hes : ∀ x, some x ∈ es → x ∈ e.parts)
        (hagg : Expr.allAggregate es = true) (x : Expr) (hx : some x ∈ es) : K x := by
      obtain ⟨y, hy, hagg⟩ := Expr.allAggregate_iff.mp hagg _ hx
      cases hy
      rcases hagg with hagg | ⟨v, t, rfl⟩
      · exact ih x (.part (hes x hx)) hagg
      · exact hK.constant v t
    cases e with
    | range rows cols es => exact hK.range.mpr (hall (by simp [parts]) h)
    | splice es => exact hK.splice.mpr (hall (by simp [parts]) h)
    | _ => cases h

theorem of_isConstant (h : o.isConstant = true) : K o.expr := by
  cases o with
  | known v t => exact hK.constant v t
  | residual e => exact hK.of_isAggregate e h

theorem ofExpr {e : Expr} (h : K e) : K (Outcome.ofExpr e).expr := by
  cases e with
  | constant v t => exact hK.constant _ _
  | _ => exact h

theorem opens : Opens fun o => K o.expr where
  blank := hK.constant _ _
  ofExpr _ h := hK.ofExpr h
  range h x hx := hK.ofExpr (hK.range.mp h x hx)
  splice h x hx := hK.ofExpr (hK.splice.mp h x hx)

theorem of_cellGives {L U : Memo} {R : Address → Giving} {a : Address}
    (ha : K (.cell a)) (h : CellGives site L U R a o) : K o.expr := by
  cases h with
  | input | left => exact hK.ofExpr ha
  | remembered | entered => exact hK.constant _ _
  | literal =>
    refine hK.of_isConstant ?_
    unfold Site.literalOf
    split <;> rfl

omit hK in
theorem of_childOr (hmissing : K missing.expr)
    (hR : ∀ x o, e = some x → R x o → K o.expr) (h : ChildOr missing R e o) : K o.expr := by
  cases e with
  | none =>
    rw [show o = missing from h]
    exact hmissing
  | some e => exact hR e o rfl h

theorem of_child (hR : ∀ x o, e = some x → R x o → K o.expr) (h : Child R e o) :
    K o.expr := by
  refine of_childOr ?_ hR h
  exact hK.constant _ _

theorem of_children (hR : ∀ x o, some x ∈ es → R x o → K o.expr)
    (h : Forall₂ (Child R) es os) : ∀ o ∈ os, K o.expr := by
  intro o ho
  obtain ⟨e, he, ho⟩ := exists_of_forall₂_of_mem h ho
  exact hK.of_child (fun x o hx => hR x o (hx ▸ he)) ho

theorem of_kept? {r : Except Failure Value} (h : site.kept? node r = some o) : K o.expr := by
  obtain ⟨v, _, rfl⟩ := exists_of_kept? h
  exact hK.constant _ _

theorem of_rebuilt
    (hleft : ∀ e, node.withChildren (keepMissing node.children os) = .ok e → K e)
    (h : Rebuilt node os o) : K o.expr := by
  obtain ⟨e, he, rfl⟩ := h
  exact hK.ofExpr (hleft e he)

theorem of_settles {compute : Computation}
    (hleft : ∀ e, node.withChildren (keepMissing node.children os) = .ok e → K e)
    (h : Settles quiet site node compute os o) : K o.expr := by
  cases h with
  | kept _ h => exact hK.of_kept? h
  | left _ he => exact hK.ofExpr (hleft _ he)

theorem of_joins (hos : ∀ o ∈ os, K o.expr) (h : Joins site node os xs) : ∀ x ∈ xs, K x := by
  induction h with
  | nil => simp
  | left _ ih =>
    have hos := forall_mem_cons.mp hos
    exact forall_mem_cons.mpr ⟨hos.1, ih hos.2⟩
  | joined _ hkept _ ih =>
    exact forall_mem_cons.mpr ⟨hK.of_kept? hkept, ih (forall_mem_append.mp hos).2⟩

theorem call_map_some (fn : String) (t : DataType) (h : ∀ x ∈ xs, K x) :
    K (Outcome.ofExpr (.call fn (xs.map some) t)).expr :=
  hK.ofExpr (hK.call fn t fun x hx => h x (by simpa using hx))

theorem of_joinGives (hos : ∀ o ∈ os, K o.expr) (h : JoinGives site node fn t os o) : K o.expr := by
  cases h with
  | computed => exact hK.constant _ _
  | left hjoins => exact hK.call_map_some fn t (hK.of_joins hos hjoins)

/-- **A property of what is left of the arguments of a call is one of what is left of the call.** -/
theorem of_callGives (hR : ∀ x o, some x ∈ args → R x o → K o.expr)
    (helements : ∀ rows cols elements, some (.range rows cols elements) ∈ args →
      ∀ x o, some x ∈ elements → R x o → K o.expr)
    (h : CallGives quiet site R fn args t o f) : K o.expr := by
  have hall {es : Children} (hes : ∀ x, some x ∈ es → some x ∈ args)
      {os : List Outcome} (hos : Forall₂ (Child R) es os) : ∀ o ∈ os, K o.expr :=
    hK.of_children (fun x o hx => hR x o (hes x hx)) hos
  have htrimmed {os : List Outcome} (hos : Forall₂ (Child R) (trimmed args) os) :=
    hall (fun _ => mem_of_mem_trimmed) hos
  have hcall {os : List Outcome} (hos : ∀ o ∈ os, K o.expr) (e : Expr)
      (he : (Expr.call fn args t).withChildren (keepMissing args os) = .ok e) : K e := by
    cases he
    exact hK.call fn t (left_of_mem_keepMissing hos)
  have hsettles {compute : Computation} {os : List Outcome}
      (hos : ∀ o ∈ os, K o.expr) (ho : Settles quiet site (.call fn args t) compute os o) :
      K o.expr := hK.of_settles (hcall hos) ho
  have hbranch {missing : Outcome} (hmissing : K missing.expr) {branches : Children}
      (hbranches : ∀ x, some x ∈ branches → some x ∈ args) {i : Nat}
      (h : ChildOr missing R branches[i]?.join o) : K o.expr :=
    of_childOr hmissing (fun x o hx => hR x o (hbranches x (mem_of_getElem?_join hx))) h
  have helement {rows cols : Int} {elements : Children} {i : Nat}
      {element : Option Expr} (hrange : some (.range rows cols elements) ∈ trimmed args)
      (helement : elements[i]? = some element) (h : Child R element o) : K o.expr := by
    refine hK.of_child (fun x o hx => ?_) h
    exact helements rows cols elements (mem_of_mem_trimmed hrange) x o
      (hx ▸ mem_of_getElem? helement)
  have hbool {decisive : Bool}
      (h : ∃ r, Undecided site fn decisive R (trimmed args) r ∧ BoolGives fn t decisive r o) :
      K o.expr := by
    obtain ⟨r, hr, ho⟩ := h
    have hr := left_of_undecided (fun x o hx => hR x o (mem_of_mem_trimmed hx)) hr
    cases ho with
    | decided | dropped => exact hK.constant _ _
    | left => exact hK.call_map_some fn t (hr _ rfl)
  have hposition {position : Address → Int}
      (h : PositionGives quiet site R fn position args t o) : K o.expr := by
    cases h with
    | known _ ho => exact hK.of_kept? ho
    | left _ hos ho => exact hK.of_rebuilt (hcall (htrimmed hos)) ho
  unfold CallGives at h
  split at h
  · rcases h with ⟨condition, branches, c, rfl, hc, ho⟩ | ⟨_, os, hos, ho⟩
    · have hmem (x : Expr) (hx : some x ∈ branches) : some x ∈ some condition :: branches :=
        mem_cons_of_mem _ hx
      cases ho with
      | chosen _ _ ho | other _ _ ho =>
        refine hbranch ?_ hmem ho
        exact hK.constant _ _
      | settled _ hos ho =>
        refine hsettles (forall_mem_cons.mpr ⟨?_, ?_⟩) ho
        · exact hR condition c mem_cons_self hc
        · exact hall (fun x hx => hmem x (mem_of_mem_trimmed hx)) hos
    · exact hsettles (htrimmed hos) ho
  · exact hbool h
  · exact hbool h
  · cases h with
    | one hes _ _ _ _ hget ho => exact helement (hes ▸ mem_cons_self) hget ho
    | two hes _ _ _ _ _ _ _ hget ho => exact helement (hes ▸ mem_cons_self) hget ho
    | settled hos _ _ ho => exact hsettles (htrimmed hos) ho
  · obtain ⟨os, hos, rfl, _⟩ := h
    exact hK.of_joinGives (htrimmed hos) (joinGives_concatenated fn t os)
  · exact hposition h
  · exact hposition h
  · obtain ⟨os, hos, ho⟩ := h
    exact hsettles (htrimmed hos) ho

end Residual

/-! ## Counts -/

section Counts

/-- The formulas that a count looks into. -/
def Expr.counted : Expr → List (Option Expr)
  | range _ _ elements | splice elements => elements
  | parentSection _ inner => [inner]
  | _ => []

variable (hopen : ∀ e, K e → ∀ p, some p ∈ e.counted → K p)
include hopen

theorem forall_of_countItems (e : Expr) (he : K e) : ∀ x, some x ∈ e.countItems → K x := by
  induction e using induction_on_parts with
  | step e ih =>
    intro x hx
    have hopen := hopen e he
    cases e with
    | range rows cols elements | splice elements =>
      rw [Expr.countItems, Expr.countItemsAll_eq] at hx
      obtain ⟨c, hc, hx⟩ := mem_flatMap.mp hx
      cases c with
      | none => simp at hx
      | some c => exact ih c (.part (by simpa [parts] using hc)) (hopen c hc) x hx
    | parentSection s inner =>
      cases inner with
      | none => simp [Expr.countItems] at hx
      | some inner =>
        exact ih inner (.part (by simp [parts])) (hopen inner mem_cons_self) x hx
    | _ =>
      cases mem_singleton.mp hx
      exact he

/-- The sections that a count leaves stand in its arguments. -/
theorem forall_of_countArgs (hargs : ∀ x, some x ∈ args → K x) {n : Int} {sections : List Expr}
    (h : countArgs args = .ok (n, sections)) : ∀ x ∈ sections, K x := by
  obtain ⟨_, _, rfl⟩ := sectionsIn_of_countArgs h
  intro x hx
  obtain ⟨e, he, hx⟩ := mem_flatMap.mp (mem_present.mp (List.mem_of_mem_filter hx))
  exact forall_of_countItems hopen e (hargs e (mem_present.mp he)) x hx

end Counts

/-! ## Folds -/

/-- Whatever comes out of a fold has the property `K` if all accumulators have the property `P` and
all elements the property `Q`. -/
structure FoldDef.Carries (R : Bindings → Giving) (b : Bindings) (d : FoldDef Expr)
    (inits : Children) (P : Outcome → Prop) (Q : Expr → Prop) (K : Outcome → Prop) :
    Prop where
  accumulates : d.Accumulates P R b
  inits : ∀ e o, some e ∈ inits → R b e o → o.isConstant = true → P o
  known : ∀ o, Q o.expr → o.isKnown = true → P o
  blank : K .blank
  first : ∀ o, P o → K o
  whenEmpty : ∀ e o, d.whenEmpty = some e → R b e o → K o
  merge : ∀ pairs e o, pairs.map (·.1) = d.mergeNames → (∀ pair ∈ pairs, P pair.2) →
    d.merge = some e → R (b.pushAll pairs) e o → K o

theorem mergePairs_names {d : FoldDef Expr} {folded : Nat} {accs : List Outcome}
    (hnames : d.accumulatorNames.length = accs.length) :
    (d.mergePairs folded accs).map (·.1) = d.mergeNames := by
  unfold FoldDef.mergePairs FoldDef.mergeNames
  rw [map_append, map_fst_zip (Nat.le_of_eq hnames)]
  split <;> rfl

namespace FoldDef.Carries

variable {R : Bindings → Giving} {b : Bindings} {d : FoldDef Expr}
  {inits : Children} {P : Outcome → Prop} {Q : Expr → Prop} {K : Outcome → Prop}
  (hd : d.Carries R b inits P Q K) {st : FoldState} {node : Expr} {o : Outcome} {folded : Nat}
  {partialFolds : Bool}
include hd

theorem start (h : StartGives (R b) inits folded (some st)) : st.All P Q :=
  FoldState.All.start hd.inits h rfl

theorem result (hst : st.All P Q) (h : ResultGives R b d st o) : K o := by
  cases h with
  | whenEmpty he _ ho => exact hd.whenEmpty _ o he ho
  | blank => exact hd.blank
  | first _ haccs => exact hd.first o (hst.accs _ haccs o mem_cons_self)
  | merged _ haccs he hnames ho =>
    exact hd.merge _ _ o (mergePairs_names hnames)
      (hst.mergePairs hd.accumulates.number haccs) he ho

theorem complete (hst : st.All P Q) {whole : Outcome → Prop} (hwhole : ∀ o, whole o → K o)
    (hrebuild : partialFolds = true → K (.ofExpr (rebuild st)))
    (h : CompleteGives R b d partialFolds st whole rebuild o) : K o := by
  cases h with
  | result _ ho => exact hd.result hst ho
  | whole _ _ ho => exact hwhole o ho
  | rebuilt _ hprogress =>
    simp only [or_eq_false_iff, Bool.not_eq_false'] at hprogress
    exact hrebuild hprogress.2

/-- A fold over a list. -/
theorem elements (hQ : Opens fun o => Q o.expr) (hos : ∀ o ∈ os, Q o.expr)
    (hwhole : ∀ o, Rebuilt node os o → K o)
    (hrebuild : partialFolds = true → ∀ st st' tuples, StartGives (R b) inits folded (some st) →
      TuplesGive R b d st tuples st' → st'.All P Q → K (.ofExpr (rebuild st')))
    (h : ElementsGive R b d partialFolds node inits folded rebuild os o) : K o := by
  cases h with
  | notStarted _ ho => exact hwhole o ho
  | @folded st st' _ hstart htuples ho =>
    have hall : ∀ tuple ∈ (flattenOutcomes os).map ([·]), ∀ o ∈ tuple, Q o.expr := by
      intro tuple htuple x hx
      obtain ⟨y, hy, rfl⟩ := mem_map.mp htuple
      rw [mem_singleton.mp hx]
      exact hQ.of_mem_flattenOutcomes hos y hy
    have hst : st'.All P Q := hd.accumulates.tuples
      (fun tuple htuple o ho => hd.known o (hall tuple htuple o ho)) hall (hd.start hstart) htuples
    exact hd.complete hst hwhole (fun hpartial => hrebuild hpartial st st' _ hstart htuples hst) ho

/-- A fold over one array. -/
theorem array
    (ha : ∀ elements, arrayElements? a = some elements → ∀ o ∈ elements, o.isKnown = true → P o)
    (hwhole : ∀ o, Rebuilt node [a] o → K o) (h : ArrayGives R b d node inits a o) : K o := by
  cases h with
  | sized _ ho | notStarted _ _ ho | stuck _ _ _ ho => exact hwhole o ho
  | folded helements hstart hsteps ho =>
    have hst := hd.accumulates.whole (ha _ helements) (hd.start hstart) hsteps rfl
    exact hd.result hst ho

/-- A fold over vectors. -/
theorem vectors (hQ : Opens fun o => Q o.expr) {rebuild : FoldState → List Expr → Expr}
    (hos : ∀ o ∈ os, Q o.expr) (hwhole : ∀ o, Rebuilt node os o → K o)
    (hrebuild : partialFolds = true → ∀ st st' tuples n, StartGives (R b) inits folded (some st) →
      TuplesGive R b d st tuples st' → st'.All P Q →
        K (.ofExpr (rebuild st' ((columnsOf n st'.held).map Expr.vector))))
    (h : VectorsGive R b d partialFolds node inits folded rebuild os o) : K o := by
  cases h with
  | sized _ ho | notStarted _ _ ho => exact hwhole o ho
  | @folded vectors st st' _ hvectors hstart htuples ho =>
    have hall := hQ.of_mem_columns hos hvectors (vectors.headD []).length
    have hst : st'.All P Q := hd.accumulates.tuples
      (fun tuple htuple o ho => hd.known o (hall tuple htuple o ho)) hall (hd.start hstart) htuples
    exact hd.complete hst hwhole
      (fun hpartial => hrebuild hpartial st st' _ vectors.length hstart htuples hst) ho

/-- A fold over a table. -/
theorem table {columns : List String} {filter : Option Expr} {column : Int}
    {rebuild : FoldState → Expr → Expr}
    (ha : ∀ rows cols elements, a = .residual (.range rows cols elements) →
      ∀ o ∈ elements.map ofChild, Q o.expr)
    (hwhole : ∀ o, Rebuilt node [a] o → K o)
    (hrebuild : partialFolds = true → ∀ rows cols elements st st',
      a = .residual (.range rows cols elements) → cols = columns.length → 0 < cols →
      StartGives (R b) inits folded (some st) → RowsGive R b d columns filter column st
        ((rowsOf cols.toNat elements.length (elements.map ofChild)).take rows.toNat) st' →
      st'.All P Q → K (.ofExpr (rebuild st'
        (.range st'.held.length cols ((st'.held.flatten).map some)))))
    (h : TableGives R b d partialFolds node inits folded columns filter column rebuild a o) :
    K o := by
  cases h with
  | sized _ ho | notStarted _ _ _ ho => exact hwhole o ho
  | @folded rows cols elements st st' _ heq hcols hcolumn hstart _ _ hrows ho =>
    have hall : ∀ row ∈ (rowsOf cols.toNat elements.length
        (elements.map ofChild)).take rows.toNat, ∀ o ∈ row, Q o.expr :=
      fun row hrow o ho => ha rows cols elements heq o
        (mem_of_mem_rowsOf (mem_of_mem_take hrow) ho)
    have hst : st'.All P Q := hd.accumulates.rows
      (fun row hrow o ho => hd.known o (hall row hrow o ho)) hall (hd.start hstart) hrows
    refine hd.complete hst hwhole (fun hpartial => ?_) ho
    exact hrebuild hpartial rows cols elements st st' heq hcols (by omega) hstart hrows hst

end FoldDef.Carries

/-! ## What a fold carries on with -/

section States

variable {P : Outcome → Prop} {Q : Expr → Prop} {st : FoldState} (hst : st.All P Q)
include hst

theorem FoldState.All.seeds (hP : ∀ o, P o → K o.expr) : ∀ x ∈ st.seeds, K x := by
  intro x hx
  obtain ⟨o, ho, rfl⟩ := mem_map.mp hx
  cases haccs : st.accs with
  | none =>
    rw [haccs] at ho
    cases ho
  | some accs =>
    rw [haccs] at ho
    exact hP o (hst.accs accs haccs o ho)

theorem FoldState.All.flatten : ∀ x, some x ∈ (st.held.flatten).map some → Q x := by
  intro x hx
  obtain ⟨tuple, htuple, hx⟩ : ∃ tuple ∈ st.held, x ∈ tuple := by simpa using hx
  exact hst.held tuple htuple x hx

theorem FoldState.All.vectors (hK : ∀ xs, (∀ x ∈ xs, Q x) → K (.vector xs)) (width : Nat) :
    ∀ x, some x ∈ ((columnsOf width st.held).map Expr.vector).map some → K x := by
  intro x hx
  obtain ⟨y, hy, hyx⟩ := mem_map.mp hx
  rw [← Option.some.inj hyx]
  obtain ⟨column, hcolumn, rfl⟩ := mem_map.mp hy
  obtain ⟨i, _, rfl⟩ := mem_map.mp hcolumn
  refine hK _ fun z hz => ?_
  obtain ⟨tuple, htuple, hz⟩ := mem_filterMap.mp hz
  exact hst.held tuple htuple z (mem_of_getElem? hz)

end States

end FormulaFold
