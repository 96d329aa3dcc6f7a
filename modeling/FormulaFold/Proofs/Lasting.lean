import FormulaFold.Proofs.Scoping

/-! # Properties that last

A walk builds its outcome from constants and names, from references, and from nodes of the formula
around the outcomes of their parts.  So a property of formulas lasts through a walk if it holds of
constants, goes over to the parts that are walked and comes back to the nodes around them
(`Lasting`).  **Then the outcome has the property if the formula has it** (`lasts_of_gives`).
-/
namespace FormulaFold

open Walk

variable {a : Address} {b : Bindings} {R : Giving} {K : Expr → Prop}
  {extra : Pairs} {elements : List Outcome} {L U : Memo} {r : Option FoldState}
  {o : Outcome} {site : Site}

namespace Expr

/-- Whether there is more to a formula than its parts, as far as a lasting property goes: folds
carry what was accumulated, sub-sections are written with the name of their section, and references
lead to a cell. -/
def isLaden : Expr → Bool
  | subSection .. | cell _ => true
  | e => e.isFold

theorem eq_of_withChildren_cell {es : Children} {e : Expr}
    (h : (cell a).withChildren es = .ok e) : e = cell a := by
  cases es <;> cases h
  rfl

end Expr

/-- A property of formulas that lasts through a walk. -/
structure Lasting (partialFolds : Bool) (K : Expr → Prop) : Prop where
  part : ∀ e, K e → ∀ p ∈ e.liveParts, K p
  plain : ∀ e : Expr, e.isLaden = false → (∀ p ∈ e.liveParts, K p) → K e
  rebuilt : ∀ node es e, node.isLaden = true → K node → (∀ x, some x ∈ es → K x) →
    node.withChildren es = .ok e → K e
  resumed : partialFolds = true → ∀ node, K node → ∀ e : Expr, e.isFold = true →
    e.definition? = node.definition? → (∀ p ∈ e.liveParts, K p) → K e

namespace Bindings

/-- Every name that is not bound as undefined is bound to a constant. -/
def Constant (b : Bindings) : Prop := ∀ x o, b.lookup x = .ok (some o) → o.isConstant = true

theorem constant_empty : Bindings.empty.Constant := by
  intro x o h
  simp [lookup, empty] at h

theorem Constant.scopes (hb : b.Constant) (q : String → Bool) : b.Scopes q fun _ => true :=
  ⟨fun _ _ _ => rfl, fun _ => rfl, hb⟩

theorem Constant.push (hb : b.Constant) (name : String) (v : Outcome) :
    (b.push name (if v.isConstant then some v else none)).Constant := by
  refine ((hb.scopes fun _ => false).push name fun x hx => ?_).constant
  split at hx
  · cases hx
    assumption
  · cases hx

theorem Constant.pushAll (hb : b.Constant) {pairs : Pairs}
    (hpairs : ∀ pair ∈ pairs, pair.2.isConstant = true) : (b.pushAll pairs).Constant :=
  ((hb.scopes fun _ => false).pushAll rfl hpairs).constant

end Bindings

namespace Lasting

variable {partialFolds : Bool}

section Aggregates

variable (hK : Lasting partialFolds K)
include hK

theorem constant (v : Value) (t : DataType) : K (.constant v t) :=
  hK.plain _ rfl (by simp [liveParts, parts])

theorem letVar (name : String) (t : DataType) : K (.letVar name t) :=
  hK.plain _ rfl (by simp [liveParts, parts])

theorem range (rows cols : Int) {es : Children} (h : ∀ x, some x ∈ es → K x) :
    K (.range rows cols es) :=
  hK.plain _ rfl fun x hx => h x (by simpa [liveParts, parts] using hx)

theorem call (fn : String) {es : Children} (t : DataType)
    (h : ∀ x, some x ∈ es → K x) : K (.call fn es t) :=
  hK.plain _ rfl fun x hx => h x (by simpa [liveParts, parts] using hx)

theorem residual : Residual K where
  constant := hK.constant
  call := hK.call
  range := ⟨fun h x hx => hK.part _ h x (mem_present.mpr hx), hK.range _ _⟩
  splice := ⟨fun h x hx => hK.part _ h x (mem_present.mpr hx), fun h =>
    hK.plain _ rfl fun x hx => h x (by simpa [liveParts, parts] using hx)⟩

theorem of_isConstant (h : o.isConstant = true) : K o.expr := hK.residual.of_isConstant h

end Aggregates

/-- What is shown of the walks of the parts. -/
def LastsIn (K : Expr → Prop) (b : Bindings) (e : Expr) (o : Outcome) : Prop :=
  b.Constant → K e → K o.expr

theorem of_countGives (hK : Lasting partialFolds K) {static : Int} {args : Children}
    (hargs : ∀ x, some x ∈ args → K x) (h : CountGives static args o) : K o.expr := by
  cases h with
  | known => exact hK.constant _ _
  | left hn _ =>
    have hopen (e : Expr) (he : K e) (x : Expr) (hx : some x ∈ e.counted) : K x := by
      refine hK.part e he x ?_
      cases e with
      | range | splice | parentSection =>
        simpa [Expr.counted, liveParts, parts, eq_comm] using hx
      | _ => cases hx
    refine hK.residual.ofExpr (hK.plain _ rfl fun x hx => ?_)
    refine forall_of_countArgs hopen (fun x hx => hargs x (mem_of_mem_trimmed hx)) hn x ?_
    simpa [liveParts, parts] using hx

/-! ## Folds -/

section Folds

variable {d : FoldDef Expr} {st st' : FoldState}

/-- Without seeds, a fold has no first values that they would take the place of. -/
def Seeded (d : FoldDef Expr) (st : FoldState) : Prop := st.seeds = [] → ∀ x, some x ∉ d.inits

theorem length_of_constantsGive {es : Children} {r : Option (List Outcome)}
    (h : ConstantsGive R es r) {os : List Outcome} (hos : r = some os) : os.length = es.length := by
  induction h generalizing os with
  | nil =>
    cases hos
    rfl
  | missing | left => cases hos
  | cons _ _ _ ih =>
    obtain ⟨rest, hrest, rfl⟩ := map_eq_some_iff.mp hos
    rw [length_cons, length_cons, ih hrest]

theorem seeded_start {seeds : List Expr} {folded : Nat} (h : StartGives R (d.start seeds) folded r)
    (hr : r = some st) : Seeded d st := by
  intro hempty x hx
  have hmissing : ∀ y, some y ∉ d.start seeds := by
    cases h with
    | first hinits => simp [hinits]
    | inits _ h =>
      obtain ⟨accs, haccs, rfl⟩ := map_eq_some_iff.mp hr
      have hlength := length_of_constantsGive h haccs
      have hnil : accs = [] := map_eq_nil_iff.mp hempty
      rw [hnil] at hlength
      simp [length_eq_zero_iff.mp hlength.symm]
  unfold FoldDef.start at hmissing
  split at hmissing
  · exact hmissing x hx
  · rename_i hseeds
    have hne : seeds ≠ [] := by simpa using hseeds
    obtain ⟨y, rest, rfl⟩ := List.exists_cons_of_ne_nil hne
    exact hmissing y (by simp)

theorem seeded_step {R : Bindings → Giving} (h : StepGives R b d st elements extra r)
    (hr : r = some st') : Seeded d st' := by
  intro hempty
  cases h with
  | first =>
    cases hr
    cases hempty
  | next _ _ _ h =>
    obtain ⟨accs, haccs, rfl⟩ := map_eq_some_iff.mp hr
    have hlength := length_of_constantsGive h haccs
    have hnil : accs = [] := map_eq_nil_iff.mp hempty
    have haccumulators : d.accumulators = [] := by
      simpa [hnil, FoldDef.steps, eq_comm] using hlength
    simp [FoldDef.inits, haccumulators]

theorem seeded_item {R : Bindings → Giving} {pass : Option Bool → Prop}
    {elements item : List Outcome} {extra : Pairs} (hst : Seeded d st)
    (h : ItemGives R b d pass elements extra st item st') : Seeded d st' := by
  cases h with
  | held | undecided | dropped => exact hst
  | @tried r _ _ hr =>
    cases r with
    | none => exact hst
    | some st' => exact seeded_step hr rfl

variable (hK : Lasting partialFolds K)
include hK

theorem carries (hb : b.Constant) (hd : ∀ x ∈ d.body, K x) (inits : Children) :
    d.Carries (LastsIn K) b inits (fun o => o.isConstant = true) K fun o => K o.expr where
  accumulates := accumulates_isConstant
  inits _ _ _ _ hconst := hconst
  known _ _ := isConstant_of_isKnown
  blank := hK.constant _ _
  first _ := hK.of_isConstant
  whenEmpty e _ he ho := ho hb (hd e (by simp [FoldDef.body, he]))
  merge _ e _ _ hpairs he ho := ho (hb.pushAll hpairs) (hd e (by simp [FoldDef.body, he]))

theorem of_mem_start (hst : st.All (fun o => o.isConstant = true) K) (hseeded : Seeded d st) :
    ∀ x, some x ∈ d.start st.seeds → K x := by
  intro x hx
  unfold FoldDef.start at hx
  split at hx
  · exact absurd hx (hseeded (isEmpty_iff.mp ‹_›) x)
  · exact hst.seeds (fun _ => hK.of_isConstant) x (by simpa using hx)

theorem vector {xs : List Expr} (h : ∀ x ∈ xs, K x) : K (.vector xs) :=
  hK.range _ _ fun x hx => h x (by simpa using hx)

end Folds

end Lasting

/-! ## Walks -/

theorem lastsIn_of_nodeGives (hK : Lasting site.partialFolds K)
    {entered : Address → Giving} {e : Expr}
    (h : NodeGives False site (CellGives site L U entered) (Lasting.LastsIn K) b e o) :
    Lasting.LastsIn K b e o := by
  intro hb he
  have hpart := hK.part e he
  have hresidual := hK.residual
  have hR {es : Children} (hes : ∀ x, some x ∈ es → K x) (x : Expr) (o : Outcome)
      (hx : some x ∈ es) (ho : Lasting.LastsIn K b x o) : K o.expr := ho hb (hes x hx)
  have hoption {e : Option Expr} (he : ∀ x, e = some x → K x) (x : Expr) (o : Outcome)
      (hx : e = some x) (ho : Lasting.LastsIn K b x o) : K o.expr := ho hb (he x hx)
  have hkept {es : Children} {os : List Outcome} (hes : ∀ x, some x ∈ es → K x)
      (hos : Forall₂ (Child (Lasting.LastsIn K b)) (trimmed es) os) :
      ∀ x, some x ∈ keepMissing es os → K x :=
    left_of_mem_keepMissing
      (hresidual.of_children (hR fun x hx => hes x (mem_of_mem_trimmed hx)) hos)
  -- A fold that is left as it was, around other elements.
  have hwhole (hladen : e.isLaden = true) {os : List Outcome} (hos : ∀ o ∈ os, K o.expr)
      (o : Outcome) (ho : Rebuilt e os o) : K o.expr :=
    hresidual.of_rebuilt (fun e' => hK.rebuilt e _ e' hladen he (left_of_mem_keepMissing hos)) ho
  cases h with
  | constant => exact hK.constant _ _
  | operator hos ho =>
    refine hresidual.of_settles (fun e he => ?_) ho
    cases he
    refine hK.plain _ rfl fun x hx => hkept (fun x hx => hpart x ?_) hos x ?_
    · simpa [liveParts, parts] using hx
    · simpa [liveParts, parts, Expr.children] using hx
  | call ho =>
    have hargs (x : Expr) (hx : some x ∈ _) : K x :=
      hpart x (by simpa [liveParts, parts] using hx)
    refine hresidual.of_callGives (hR hargs) (fun rows cols elements hrange => hR fun x hx => ?_) ho
    exact hK.part _ (hargs _ hrange) x (by simpa [liveParts, parts] using hx)
  | cell ho => exact hresidual.of_cellGives he ho
  | range hos ho =>
    rw [rebuilt_range ho]
    refine hK.range _ _ (hkept (fun x hx => hpart x ?_) hos)
    simpa [liveParts, parts] using hx
  | splice hos ho =>
    refine hresidual.of_rebuilt (fun e he => ?_) ho
    cases he
    refine hK.plain _ rfl fun x hx => hkept (fun x hx => hpart x ?_) hos x ?_
    · simpa [liveParts, parts] using hx
    · simpa [liveParts, parts, Expr.children] using hx
  | subSection hos ho =>
    refine hwhole rfl (hresidual.of_children (fun x o hx => hR (fun x hx => hpart x ?_) x o
      (mem_of_mem_trimmed hx)) hos) _ ho
    simpa [liveParts, parts] using hx
  | letIn hv hr ho =>
    have hv := hv hb (hpart _ (by simp [liveParts, parts]))
    have hr := hr (hb.push _ _) (hpart _ (by simp [liveParts, parts]))
    cases ho with
    | known => exact hK.constant _ _
    | left =>
      refine hK.residual.ofExpr (hK.plain _ rfl fun x hx => ?_)
      obtain rfl | rfl : x = _ ∨ x = _ := by simpa [liveParts, parts] using hx
      · exact hv
      · exact hr
  | letVar ho => exact hK.of_isConstant (hb _ _ ho)
  | letVarLeft => exact hK.letVar _ _
  | switch _ ho =>
    refine hresidual.of_child (hoption fun x hx => hpart x ?_) ho
    simp only [liveParts, parts, mem_append, mem_present, mem_toList]
    exact (mem_branches_of_chosenBranch hx).imp .inr id
  | switchLeft hx hcases hotherwise =>
    refine hK.plain _ rfl fun x hx' => ?_
    simp only [Outcome.expr, liveParts, parts, mem_append, mem_present,
      mem_toList] at hpart hx'
    rcases hx' with (hx' | hx') | hx'
    · cases hx'
      exact hx hb (hpart _ (.inl (.inl rfl)))
    · obtain ⟨c', hc', hbranch'⟩ := mem_map.mp hx'
      obtain ⟨c, hc, _, hbranch⟩ := exists_of_forall₂_of_mem hcases hc'
      refine left_of_becomes (hoption fun y hy => hpart y ?_) hbranch x hbranch'
      exact .inl (.inr (mem_map.mpr ⟨c, hc, hy⟩))
    · exact left_of_becomes (hoption fun y hy => hpart y (.inr hy)) hotherwise x hx'
  | switchCase hc =>
    refine hK.plain _ rfl fun x hx => ?_
    refine left_of_becomes (hoption fun y hy => hpart y ?_) hc.2 x ?_
    · simpa [liveParts, parts] using hy
    · simpa [Outcome.expr, liveParts, parts] using hx
  | fold hos ho | reduce hos ho =>
    simp only [liveParts, mem_append, mem_present] at hpart
    have hos := hresidual.of_children (hR fun x hx => hpart x (.inr hx)) hos
    refine (hK.carries hb (fun x hx => hpart x (.inl (.inr hx))) _).elements hK.residual.opens hos
      (hwhole rfl hos) (fun hpartial st st' _ hstart htuples hst => ?_) ho
    refine hK.resumed hpartial _ he _ rfl rfl fun x hx => ?_
    simp only [Outcome.expr, ofExpr, liveParts, mem_append, mem_present, mem_toList] at hx
    rcases hx with (hx | hx) | hx
    · first
      | exact hst.seeds (fun _ => hK.of_isConstant) x (List.mem_of_head? hx)
      | exact hK.of_mem_start hst (htuples.keeps
          (fun _ _ _ _ => Lasting.seeded_item) (Lasting.seeded_start hstart rfl)) x hx
    · exact hpart x (.inl (.inr hx))
    · exact hst.flatten x hx
  | foldArray ha ho =>
    simp only [liveParts, mem_append, mem_present, mem_toList] at hpart
    have ha := hresidual.of_child (hoption fun x hx => hpart x (.inr hx)) ha
    exact (hK.carries hb (fun x hx => hpart x (.inl (.inr hx))) _).array
      (fun _ _ _ _ => isConstant_of_isKnown) (hwhole rfl (by simpa using ha)) ho
  | foldVectors hos _ _ ho =>
    simp only [liveParts, mem_append, mem_present] at hpart
    have hos := hresidual.of_children (hR fun x hx => hpart x (.inr hx)) hos
    refine (hK.carries hb (fun x hx => hpart x (.inl (.inr hx))) _).vectors hK.residual.opens hos
      (hwhole rfl hos) (fun hpartial st st' _ n hstart htuples hst => ?_) ho
    refine hK.resumed hpartial _ he _ rfl rfl fun x hx => ?_
    simp only [Outcome.expr, ofExpr, liveParts, mem_append, mem_present] at hx
    rcases hx with (hx | hx) | hx
    · exact hK.of_mem_start hst (htuples.keeps
      (fun _ _ _ _ => Lasting.seeded_item) (Lasting.seeded_start hstart rfl)) x hx
    · exact hpart x (.inl (.inr hx))
    · exact hst.vectors (fun _ => hK.vector) n x hx
  | foldTable ha ho =>
    simp only [liveParts, mem_append, mem_present, mem_toList] at hpart
    have ha := hresidual.of_child (hoption fun x hx => hpart x (.inr hx)) ha
    refine (hK.carries hb (fun x hx => hpart x (.inl (.inl (.inr hx)))) _).table
      (fun rows cols elements heq => ?_) (hwhole rfl (by simpa using ha))
      (fun hpartial rows cols elements st st' _ _ _ hstart hrows hst => ?_) ho
    · subst heq
      exact hK.residual.opens.of_elements? ha rfl
    refine hK.resumed hpartial _ he _ rfl rfl fun x hx => ?_
    simp only [Outcome.expr, ofExpr, liveParts, mem_append, mem_present,
      mem_toList] at hx
    rcases hx with ((hx | hx) | hx) | hx
    · exact hK.of_mem_start hst (hrows.keeps
      (fun _ _ _ _ => Lasting.seeded_item) (Lasting.seeded_start hstart rfl)) x hx
    · exact hpart x (.inl (.inl (.inr hx)))
    · exact hpart x (.inl (.inr hx))
    · cases hx
      exact hK.range _ _ hst.flatten
  | parentSection hr ho =>
    have hr := hr hb (hpart _ (by simp [liveParts, parts]))
    cases ho with
    | known => exact hr
    | left he =>
      cases he
      refine hK.residual.ofExpr (hK.plain _ rfl fun x hx => ?_)
      obtain rfl : x = _ := by simpa [liveParts, parts] using hx
      exact hr
  | count ho =>
    refine hK.of_countGives (fun x hx => hpart x ?_) ho
    simpa [liveParts, parts] using hx

/-- **A lasting property of a formula is one of its outcome.** -/
theorem lasts_of_gives {opt : Optimizer} (hK : Lasting opt.partialFolds K) {book : Workbook}
    {n : Nat} {origin : Option Address} (e : Expr)
    (h : Gives L U b (opt.walkDeep book n origin e) o) : Lasting.LastsIn K b e o := by
  induction e using induction_on_parts generalizing b o with
  | step e ih =>
    have hK : Lasting (opt.site book origin).partialFolds K := hK
    exact lastsIn_of_nodeGives hK (gives_walkDeep (fun b p o hp h => ih p hp h) h)

end FormulaFold
