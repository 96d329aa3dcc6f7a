import FormulaFold.Proofs.Earned

/-! # What a fold accumulates

The accumulators of a fold come from its first values, its steps and its elements; what it holds
are elements.  A property that all of these have is kept by every step, and so is one of the
whole fold.  Each element is folded, dropped or held, so what is held at the end are elements in
their order (`exists_remainder_of_folds`).
-/
namespace FormulaFold

variable {inits : Children} {extra : Pairs}
  {accs elements os tuple : List Outcome} {folded : Nat} {pass : Option Bool → Prop}
  {r : Option FoldState} {ι : Type}

/-- Every accumulator of the fold has the property `P`, and every formula that it holds has the
property `Q`. -/
structure FoldState.All (P : Outcome → Prop) (Q : Expr → Prop) (st : FoldState) : Prop where
  accs : ∀ accs, st.accs = some accs → ∀ o ∈ accs, P o
  held : ∀ tuple ∈ st.held, ∀ x ∈ tuple, Q x

/-- The steps of a fold give constants with the property `P` when the names that the fold binds
for them stand for nothing else. -/
structure FoldDef.Accumulates (P : Outcome → Prop) (R : Bindings → Giving)
    (b : Bindings) (d : FoldDef Expr) : Prop where
  steps : ∀ pairs : List (String × Outcome), (∀ pair ∈ pairs, P pair.2) → ∀ e ∈ d.steps, ∀ o,
    R (b.pushAll pairs) e o → o.isConstant = true → P o
  number : ∀ n : Nat, P (.constant (.number (Float.ofNat n)) .numeric)

section

variable {P : Outcome → Prop} {Q : Expr → Prop} {R : Bindings → Giving}
  {b : Bindings} {d : FoldDef Expr} {st st' : FoldState}

theorem forall_of_constantsGive {R : Giving} {es : Children}
    (hR : ∀ e o, some e ∈ es → R e o → o.isConstant = true → P o) {r : Option (List Outcome)}
    (h : ConstantsGive R es r) (hos : r = some os) : ∀ o ∈ os, P o := by
  induction h generalizing os with
  | nil => cases hos; simp
  | missing | left => cases hos
  | cons ho hconst _ ih =>
    obtain ⟨rest, hrest, rfl⟩ := map_eq_some_iff.mp hos
    refine forall_mem_cons.mpr ⟨hR _ _ mem_cons_self ho hconst, ih ?_ hrest⟩
    exact fun e o he => hR e o (mem_cons_of_mem _ he)

theorem FoldState.All.start {R : Giving}
    (hR : ∀ e o, some e ∈ inits → R e o → o.isConstant = true → P o)
    (h : StartGives R inits folded r) (hr : r = some st) : st.All P Q := by
  cases h with
  | first =>
    cases hr
    exact ⟨by simp [FoldState.start], by simp [FoldState.start]⟩
  | inits _ h =>
    obtain ⟨accs, haccs, rfl⟩ := map_eq_some_iff.mp hr
    refine ⟨fun accs' heq => ?_, by simp [FoldState.start]⟩
    cases heq
    exact forall_of_constantsGive hR h haccs

theorem exists_start_of_startGives {R : Giving} (h : StartGives R inits folded r)
    (hr : r = some st) : ∃ accs, st = .start accs folded := by
  cases h with
  | first =>
    cases hr
    exact ⟨_, rfl⟩
  | inits =>
    obtain ⟨accs, _, rfl⟩ := map_eq_some_iff.mp hr
    exact ⟨_, rfl⟩

theorem exists_advance_of_stepGives (h : StepGives R b d st elements extra (some st')) :
    ∃ accs, st' = st.advance accs := by
  generalize hst : some st' = r at h
  cases h with
  | first =>
    cases hst
    exact ⟨_, rfl⟩
  | next =>
    obtain ⟨accs, _, rfl⟩ := map_eq_some_iff.mp hst.symm
    exact ⟨_, rfl⟩

/-- Folding an element holds nothing. -/
theorem held_of_stepGives (h : StepGives R b d st elements extra (some st')) :
    st'.held = st.held := by
  obtain ⟨_, rfl⟩ := exists_advance_of_stepGives h
  rfl

theorem stopped_of_stepGives (h : StepGives R b d st elements extra (some st')) :
    st'.stopped = st.stopped := by
  obtain ⟨_, rfl⟩ := exists_advance_of_stepGives h
  rfl

theorem FoldState.All.hold (hst : st.All P Q) (orderSensitive : Bool)
    (htuple : ∀ o ∈ tuple, Q o.expr) : (st.hold orderSensitive (tuple.map (·.expr))).All P Q := by
  refine ⟨hst.accs, fun nodes hnodes => ?_⟩
  rcases mem_append.mp hnodes with hnodes | hnodes
  · exact hst.held nodes hnodes
  · rw [mem_singleton.mp hnodes]
    exact List.forall_mem_map.mpr htuple

/-- What the names of a merge stand for. -/
theorem FoldState.All.mergePairs (hst : st.All P Q)
    (hnumber : ∀ n : Nat, P (.constant (.number (Float.ofNat n)) .numeric))
    (haccs : st.accs = some accs) : ∀ pair ∈ d.mergePairs st.folded accs, P pair.2 := by
  intro pair hpair
  rcases mem_append.mp hpair with hpair | hpair
  · exact hst.accs accs haccs _ (of_mem_zip hpair).2
  · split at hpair
    · cases hpair
    · rw [mem_singleton.mp hpair]
      exact hnumber _

/-- The elements of a tuple that is not held are known. -/
theorem isKnown_of_not_held {stopped : Bool} (h : (stopped || !tuple.all (·.isKnown)) = false) :
    ∀ o ∈ tuple, o.isKnown = true := by
  simp only [or_eq_false_iff, Bool.not_eq_false', all_eq_true] at h
  exact h.2

namespace FoldDef.Accumulates

variable (hd : d.Accumulates P R b)
include hd

/-- What the names of a step stand for. -/
theorem stepPairs (haccs : ∀ o ∈ accs, P o) (helements : ∀ o ∈ elements, P o)
    (hextra : ∀ pair ∈ extra, P pair.2) :
    ∀ pair ∈ d.stepPairs folded accs elements extra, P pair.2 := by
  intro pair hpair
  simp only [FoldDef.stepPairs, mem_append] at hpair
  rcases hpair with hpair | hpair | hpair | hpair
  · exact haccs _ (of_mem_zip hpair).2
  · exact helements _ (of_mem_zip hpair).2
  · unfold FoldDef.positionPair at hpair
    split at hpair
    · cases hpair
    · rw [mem_singleton.mp hpair]
      exact hd.number _
  · exact hextra pair hpair

/-- One step keeps the properties. -/
theorem step (hst : st.All P Q) (helements : ∀ o ∈ elements, P o)
    (hextra : ∀ pair ∈ extra, P pair.2) (h : StepGives R b d st elements extra r)
    (hr : r = some st') : st'.All P Q := by
  cases h with
  | first _ _ heq =>
    cases hr
    subst heq
    refine ⟨fun accs haccs => ?_, hst.held⟩
    cases haccs
    simpa using helements _ mem_cons_self
  | next haccs _ _ h =>
    obtain ⟨accs', haccs', rfl⟩ := map_eq_some_iff.mp hr
    refine ⟨fun accs heq => ?_, hst.held⟩
    cases heq
    refine forall_of_constantsGive (fun e o he => ?_) h haccs'
    obtain ⟨e', he', heq⟩ := mem_map.mp he
    cases heq
    exact hd.steps _ (hd.stepPairs (hst.accs _ haccs) helements hextra) e he' o

/-- One item keeps the properties. -/
theorem item {item : List Outcome} (hknown : ∀ o ∈ item, o.isKnown = true → P o)
    (hheld : ∀ o ∈ item, Q o.expr) (helements : ∀ o ∈ elements, o ∈ item)
    (hextra : ∀ pair ∈ extra, pair.2 ∈ item) (hst : st.All P Q)
    (h : ItemGives R b d pass elements extra st item st') : st'.All P Q := by
  have hhold := hst.hold d.orderSensitive hheld
  cases h with
  | held | undecided => exact hhold
  | dropped => exact ⟨hst.accs, hst.held⟩
  | @tried r htried _ hr =>
    cases r with
    | none => exact hhold
    | some st' =>
      have hall (o : Outcome) (ho : o ∈ item) : P o := hknown o ho (isKnown_of_not_held htried o ho)
      exact hd.step hst (fun o ho => hall o (helements o ho))
        (fun pair hpair => hall _ (hextra pair hpair)) hr rfl

theorem tuples {tuples : List (List Outcome)}
    (hknown : ∀ tuple ∈ tuples, ∀ o ∈ tuple, o.isKnown = true → P o)
    (hheld : ∀ tuple ∈ tuples, ∀ o ∈ tuple, Q o.expr) (hst : st.All P Q)
    (h : TuplesGive R b d st tuples st') : st'.All P Q :=
  h.keeps (fun _ tuple _ htuple hst h => hd.item (hknown tuple htuple) (hheld tuple htuple)
    (fun _ => id) (by simp) hst h) hst

theorem rows {columns : List String} {filter : Option Expr} {column : Int}
    {rows : List (List Outcome)} (hknown : ∀ row ∈ rows, ∀ o ∈ row, o.isKnown = true → P o)
    (hheld : ∀ row ∈ rows, ∀ o ∈ row, Q o.expr) (hst : st.All P Q)
    (h : RowsGive R b d columns filter column st rows st') : st'.All P Q :=
  h.keeps (fun _ row _ hrow hst h => hd.item (hknown row hrow) (hheld row hrow)
    (fun _ => d.mem_of_mem_rowElements) (fun _ hpair => (of_mem_zip hpair).2) hst h) hst

theorem whole (hknown : ∀ o ∈ os, o.isKnown = true → P o) (hst : st.All P Q)
    (h : WholeGives R b d st os r) (hr : r = some st') : st'.All P Q := by
  induction h with
  | nil => cases hr; exact hst
  | unknown | stuck => cases hr
  | cons ho hstep _ ih =>
    have hall := forall_mem_cons.mp hknown
    exact ih hall.2 (hd.step hst (by simpa using hall.1 ho) (by simp) hstep rfl) hr

end FoldDef.Accumulates

/-! ## Elements that are held -/

/-- What a fold leaves of `all`: it holds `held`, drops `dropped` and folds the others, so that
`folded` becomes `folded'`. -/
structure Remainder {ι : Type} (isKnown : ι → Bool) (orderSensitive : Bool)
    (all held dropped : List ι) (folded folded' : Nat) : Prop where
  sublist : held.Sublist all
  unknown : (all.filter (!isKnown ·)).Sublist held
  known : dropped.Sublist (all.filter isKnown)
  folded_le : folded ≤ folded'
  count : all.length = held.length + (folded' - folded) + dropped.length
  suffix : orderSensitive = true → held <:+ all

/-- What a fold may do with one element: hold it, or fold or drop it if it is known. -/
inductive FoldState.Handles {ι : Type} (nodes : ι → List Expr) (isKnown : ι → Bool)
    (orderSensitive : Bool) (Drops : ι → Prop) (st : FoldState) (x : ι) : FoldState → Prop
  | held : st.Handles nodes isKnown orderSensitive Drops x (st.hold orderSensitive (nodes x))
  | passed {st' : FoldState} (hknown : isKnown x = true) (hopen : st.stopped = false)
      (hheld : st'.held = st.held)
      (hfolded : st'.folded = st.folded + 1 ∨ Drops x ∧ st'.folded = st.folded) :
      st.Handles nodes isKnown orderSensitive Drops x st'

/-- **What is held after a run through all elements.**  A fold that was stopped before holds all of
them, and one that gets on holds fewer. -/
theorem exists_remainder_of_folds {nodes : ι → List Expr} {isKnown : ι → Bool}
    {Drops : ι → Prop} {G : FoldState → ι → FoldState → Prop}
    (hG : ∀ st x st', G st x st' → st.Handles nodes isKnown orderSensitive Drops x st')
    (h : Folds G st all st') :
    ∃ held dropped, Remainder isKnown orderSensitive all held dropped st.folded st'.folded ∧
      (∀ x ∈ dropped, Drops x) ∧ st'.held = st.held ++ held.map nodes ∧
      (st.stopped = true → held = all) ∧
      (st.progress = false → st'.progress = true → held.length < all.length) := by
  induction h with
  | nil =>
    exact ⟨[], [], ⟨.slnil, .slnil, .slnil, Nat.le_refl _, by simp, fun _ => List.suffix_rfl⟩,
      by simp⟩
  | @cons st st₁ st' x all hx _ ih =>
    obtain ⟨held, dropped, hleft, hdrops, hheld, hstopped, hprogress⟩ := ih
    obtain ⟨hsub, hunknown, hknowns, hle, hcount, hsuffix⟩ := hleft
    cases hG _ _ _ hx with
    | held =>
      have hall (hstop : (st.stopped || orderSensitive) = true) : x :: held = x :: all := by
        rw [hstopped hstop]
      refine ⟨x :: held, dropped, ⟨hsub.cons_cons x, ?_, ?_, hle, ?_, fun hsensitive => ?_⟩,
        hdrops, ?_, fun hstop => hall (by simp [hstop]), fun hst hst' => ?_⟩
      · rw [filter_cons]
        split
        · exact hunknown.cons_cons x
        · exact hunknown.cons x
      · exact hknowns.trans ((List.sublist_cons_self x all).filter _)
      · simp only [FoldState.hold, length_cons] at hcount ⊢
        omega
      · obtain rfl : held = all := hstopped (by simp [FoldState.hold, hsensitive])
        exact List.suffix_rfl
      · rw [hheld]
        simp [FoldState.hold]
      · exact Nat.succ_lt_succ (hprogress hst hst')
    | passed hknown hopen hsame hfolded =>
      have hless : held.length < (x :: all).length := Nat.lt_succ_of_le hsub.length_le
      have hunknown : ((x :: all).filter (!isKnown ·)).Sublist held := by
        rwa [List.filter_cons_of_neg (by simp [hknown])]
      have hsuffix (hsensitive : orderSensitive = true) : held <:+ x :: all :=
        (hsuffix hsensitive).trans (List.suffix_cons x all)
      rw [hsame] at hheld
      rcases hfolded with hfolded | ⟨hdrop, hfolded⟩
      · refine ⟨held, dropped, ⟨hsub.cons x, hunknown, ?_, by omega, ?_, hsuffix⟩, hdrops, hheld,
          fun hstop => by simp [hopen] at hstop, fun _ _ => hless⟩
        · exact hknowns.trans ((List.sublist_cons_self x all).filter _)
        · rw [length_cons]
          omega
      · refine ⟨held, x :: dropped, ⟨hsub.cons x, hunknown, ?_, by omega, ?_, hsuffix⟩,
          forall_mem_cons.mpr ⟨hdrop, hdrops⟩, hheld, fun hstop => by simp [hopen] at hstop,
          fun _ _ => hless⟩
        · rw [List.filter_cons_of_pos hknown]
          exact hknowns.cons_cons x
        · simp only [length_cons]
          omega

theorem handles_of_itemGives {nodes : ι → List Expr} {isKnown : ι → Bool}
    (hnodes : item.map (·.expr) = nodes x)
    (hknown : item.all (·.isKnown) = isKnown x) {Drops : ι → Prop}
    (hdrops : pass (some false) → Drops x) (h : ItemGives R b d pass elements extra st item st') :
    st.Handles nodes isKnown d.orderSensitive Drops x st' := by
  have hsplit (hheld : (st.stopped || !item.all (·.isKnown)) = false) :
      isKnown x = true ∧ st.stopped = false := by
    obtain ⟨hopen, hall⟩ := or_eq_false_iff.mp hheld
    exact ⟨hknown.symm.trans (by simpa using hall), hopen⟩
  cases h with
  | held | undecided => exact hnodes ▸ .held
  | dropped hheld hpass =>
    exact .passed (hsplit hheld).1 (hsplit hheld).2 rfl (.inr ⟨hdrops hpass, rfl⟩)
  | @tried r hheld _ hr =>
    cases r with
    | none => exact hnodes ▸ .held
    | some st' =>
      obtain ⟨_, rfl⟩ := exists_advance_of_stepGives hr
      exact .passed (hsplit hheld).1 (hsplit hheld).2 rfl (.inl rfl)

end

end FormulaFold
