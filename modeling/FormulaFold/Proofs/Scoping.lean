import FormulaFold.Proofs.Residues

/-! # The names in outcomes

A walk replaces the names that are bound to constants and leaves those that are bound as
undefined.  **Its outcome takes only such names from outside, and those in the parts that are
kept as they stand** (`isScoped_of_gives`).
-/
namespace FormulaFold

open Walk

variable {b : Bindings} {pairs : Pairs} {o : Outcome} {p : String → Bool}

/-! ## Constants and elements -/

theorem residual_isScoped : Residual fun x => x.isScoped counted p = true where
  constant _ _ := by rw [isScoped]
  call fn _ t h := by
    rw [isScoped]
    exact allScoped_iff.mpr h
  range := by
    intros
    rw [isScoped, allScoped_iff]
  splice := by
    intros
    rw [isScoped, allScoped_iff]

theorem isScoped_of_isConstant (h : o.isConstant = true) : o.expr.isScoped counted p = true :=
  residual_isScoped.of_isConstant h

theorem isScoped_ofExpr (h : e.isScoped counted p = true) :
    (ofExpr e).expr.isScoped counted p = true := residual_isScoped.ofExpr h

theorem opens_isScoped : Opens fun o => o.expr.isScoped counted p = true := residual_isScoped.opens

/-! ## Bindings -/

/-- Of the names `q` in scope of a formula, those that are bound as undefined satisfy `p`; they
are left in its outcome.  All other names are bound to constants. -/
structure Bindings.Scopes (b : Bindings) (q p : String → Bool) : Prop where
  undefined : ∀ x, q x = true → b.lookup x = .ok none → p x = true
  empty : q "" = true → p "" = true
  constant : ∀ x o, b.lookup x = .ok (some o) → o.isConstant = true

namespace Bindings

theorem lookup_pushAll_of_not_mem (hx : ¬(x ≠ "" ∧ x ∈ pairs.map (·.1))) :
    (b.pushAll pairs).lookup x = b.lookup x := by
  induction pairs generalizing b with
  | nil => rfl
  | cons pair rest ih =>
    obtain ⟨name, o⟩ := pair
    have hrest : ¬(x ≠ "" ∧ x ∈ rest.map (·.1)) := fun h =>
      hx ⟨h.1, mem_cons_of_mem _ h.2⟩
    unfold pushAll
    split
    · exact ih hrest
    · rw [ih hrest, lookup_push, if_neg]
      rintro rfl
      exact hx ⟨‹_›, mem_cons_self⟩

theorem exists_lookup_pushAll_of_mem (hx : x ≠ "" ∧ x ∈ pairs.map (·.1)) :
    ∃ pair ∈ pairs, (b.pushAll pairs).lookup x = .ok (some pair.2) := by
  induction pairs generalizing b with
  | nil => cases hx.2
  | cons pair rest ih =>
    obtain ⟨name, o⟩ := pair
    by_cases hrest : x ∈ rest.map (·.1)
    · unfold pushAll
      split
      · obtain ⟨pair, hpair, hlookup⟩ := ih (b := b) ⟨hx.1, hrest⟩
        exact ⟨pair, mem_cons_of_mem _ hpair, hlookup⟩
      · obtain ⟨pair, hpair, hlookup⟩ := ih (b := b.push name (some o)) ⟨hx.1, hrest⟩
        exact ⟨pair, mem_cons_of_mem _ hpair, hlookup⟩
    · have hname : x = name := (mem_cons.mp hx.2).resolve_right hrest
      subst hname
      refine ⟨(x, o), mem_cons_self, ?_⟩
      unfold pushAll
      rw [if_neg hx.1, lookup_pushAll_of_not_mem fun h => hrest h.2, lookup_push, if_pos rfl]

variable {q : String → Bool}

theorem Scopes.push (h : b.Scopes q p) (name : String) {o : Option Outcome}
    (ho : ∀ x, o = some x → x.isConstant = true) :
    (b.push name o).Scopes (binds [name] q) (binds [name] p) where
  undefined x hq hx := by
    rw [lookup_push] at hx
    rw [binds_iff] at hq ⊢
    split at hx
    · rename_i hname
      subst hname
      by_cases hempty : name = ""
      · subst hempty
        exact .inr (h.empty (hq.resolve_left fun hne => hne.1 rfl))
      · exact .inl ⟨hempty, List.mem_singleton_self _⟩
    · rename_i hname
      refine .inr (h.undefined x (hq.resolve_left fun hmem => ?_) hx)
      exact hname (mem_singleton.mp hmem.2).symm
  empty hq := by
    rw [binds_iff] at hq ⊢
    exact .inr (h.empty (hq.resolve_left fun hne => hne.1 rfl))
  constant x y hy := by
    rw [lookup_push] at hy
    split at hy
    · exact ho y (by simpa using hy)
    · exact h.constant x y hy

/-- Names that are bound to constants are not left. -/
theorem Scopes.pushAll (h : b.Scopes q p) {names : List String} (hnames : pairs.map (·.1) = names)
    (hpairs : ∀ pair ∈ pairs, pair.2.isConstant = true) :
    (b.pushAll pairs).Scopes (binds names q) p where
  undefined x hq hx := by
    subst hnames
    rw [binds_iff] at hq
    by_cases hmem : x ≠ "" ∧ x ∈ pairs.map (·.1)
    · obtain ⟨pair, _, hlookup⟩ := exists_lookup_pushAll_of_mem (b := b) hmem
      cases hlookup.symm.trans hx
    · rw [lookup_pushAll_of_not_mem hmem] at hx
      exact h.undefined x (hq.resolve_left hmem) hx
  empty hq := h.empty ((binds_iff.mp hq).resolve_left fun hne => hne.1 rfl)
  constant x o hx := by
    by_cases hmem : x ≠ "" ∧ x ∈ pairs.map (·.1)
    · obtain ⟨pair, hpair, hlookup⟩ := exists_lookup_pushAll_of_mem (b := b) hmem
      cases hlookup.symm.trans hx
      exact hpairs pair hpair
    · rw [lookup_pushAll_of_not_mem hmem] at hx
      exact h.constant x o hx

end Bindings

/-- What is shown of the walks of the parts. -/
def ScopedIn (counted : Bool) (b : Bindings) (e : Expr) (o : Outcome) : Prop :=
  ∀ q p, b.Scopes q p → e.isScoped counted q = true → e.keptScoped counted p = true →
    o.expr.isScoped counted p = true

/-! ## Folds -/

section Folds

variable {R : Bindings → Giving} {q : String → Bool} {d : FoldDef Expr}

theorem accumulates_isConstant : d.Accumulates (fun o => o.isConstant = true) R b where
  steps _ _ _ _ _ _ hconst := hconst
  number _ := rfl

theorem isConstant_of_isKnown (h : o.isKnown = true) : o.isConstant = true := by
  cases o with
  | known v t => rfl
  | residual e => cases h

theorem carries_isScoped (hb : b.Scopes q p)
    (hd : d.Scoped counted q columns) (hkept : defKeptScoped counted p d = true)
    (inits : Children) :
    d.Carries (ScopedIn counted) b inits (fun o => o.isConstant = true)
      (fun x => x.isScoped counted p = true) fun o => o.expr.isScoped counted p = true where
  accumulates := accumulates_isConstant
  inits _ _ _ _ hconst := hconst
  known _ _ := isConstant_of_isKnown
  blank := isScoped_of_isConstant rfl
  first _ := isScoped_of_isConstant
  whenEmpty e _ he ho := ho q p hb (hd.whenEmpty e he) ((defKeptScoped_iff.mp hkept).2 e he)
  merge _ e _ hnames hpairs he ho :=
    ho _ p (hb.pushAll hnames hpairs) (hd.merge e he) ((defKeptScoped_iff.mp hkept).1 e he)

variable {st : FoldState}
  (hst : st.All (fun o => o.isConstant = true) fun x => x.isScoped counted p = true)
include hst

theorem seedsScoped_of_all : seedsScoped counted p st.seeds = true :=
  seedsScoped_iff.mpr (hst.seeds fun _ => isScoped_of_isConstant)

theorem allScoped_vectors (n : Nat) :
    allScoped counted p (((columnsOf n st.held).map Expr.vector).map some) = true := by
  refine allScoped_iff.mpr (hst.vectors (fun xs hxs => ?_) n)
  rw [Expr.vector, isScoped, allScoped_iff]
  simpa using hxs

end Folds

/-! ## Walks -/

section Walks

theorem isScoped_of_countGives (hargs : (Expr.count static args).keptScoped counted p = true)
    (h : CountGives static args o) : o.expr.isScoped counted p = true := by
  cases h with
  | known => exact isScoped_of_isConstant rfl
  | left hn _ =>
    refine isScoped_ofExpr ?_
    cases counted with
    | false => rfl
    | true =>
      rw [Expr.keptScoped, Bool.not_true, Bool.false_or, allScoped_iff] at hargs
      rw [isScoped, Bool.not_true, Bool.false_or, allScoped_iff]
      have hopen (e : Expr) (he : e.isScoped true p = true) (x : Expr)
          (hx : some x ∈ e.counted) : x.isScoped true p = true := by
        cases e with
        | range | splice =>
          rw [isScoped, allScoped_iff] at he
          exact he x hx
        | parentSection s inner =>
          rw [isScoped, optionScoped_iff] at he
          exact he x (mem_singleton.mp hx).symm
        | _ => cases hx
      have hsections := forall_of_countArgs hopen (fun x hx => hargs x (mem_of_mem_trimmed hx)) hn
      exact fun x hx => hsections x (by simpa using hx)

/-- **A node takes from outside only names that are left by its parts or stand in what is kept
of it.** -/
theorem isScoped_of_nodeGives {entered : Address → Giving}
    (h : NodeGives False site (CellGives site L U entered) (ScopedIn counted) b e o) :
    ScopedIn counted b e o := by
  intro q p hb hq hp
  have hresidual : Residual fun x => x.isScoped counted p = true := residual_isScoped
  have hR {es : Children} (hq : allScoped counted q es = true)
      (hp : allKeptScoped counted p es = true) (x : Expr) (o : Outcome) (hx : some x ∈ es)
      (ho : ScopedIn counted b x o) : o.expr.isScoped counted p = true :=
    ho q p hb (allScoped_iff.mp hq x hx) (allKeptScoped_iff.mp hp x hx)
  have hoption {e : Option Expr} (hq : ∀ x, e = some x → x.isScoped counted q = true)
      (hp : ∀ x, e = some x → x.keptScoped counted p = true) (x : Expr) (o : Outcome)
      (hx : e = some x) (ho : ScopedIn counted b x o) : o.expr.isScoped counted p = true :=
    ho q p hb (hq x hx) (hp x hx)
  have hall {es : Children} {os : List Outcome} (hq : allScoped counted q es = true)
      (hp : allKeptScoped counted p es = true)
      (hos : Forall₂ (Child (ScopedIn counted b)) es os) :
      ∀ o ∈ os, o.expr.isScoped counted p = true :=
    hresidual.of_children (hR hq hp) hos
  have htrimmed {es : Children} {os : List Outcome} (hq : allScoped counted q es = true)
      (hp : allKeptScoped counted p es = true)
      (hos : Forall₂ (Child (ScopedIn counted b)) (trimmed es) os) :
      allScoped counted p (keepMissing es os) = true := by
    refine allScoped_iff.mpr (left_of_mem_keepMissing
      (hresidual.of_children (fun x o hx => ?_) hos))
    exact hR hq hp x o (mem_of_mem_trimmed hx)
  have hkept {es : Children} {os : List Outcome}
      (hos : ∀ o ∈ os, o.expr.isScoped counted p = true) :
      allScoped counted p (keepMissing es os) = true :=
    allScoped_iff.mpr (left_of_mem_keepMissing hos)
  have hsingle {e : Option Expr} {a : Outcome} (ha : a.expr.isScoped counted p = true)
      (x : Expr) (hx : e.map (fun _ => a.expr) = some x) : x.isScoped counted p = true := by
    obtain ⟨_, _, rfl⟩ := map_eq_some_iff.mp hx
    exact ha
  cases h with
  | constant => exact isScoped_of_isConstant rfl
  | operator hos ho =>
    rw [isScoped] at hq
    rw [Expr.keptScoped] at hp
    refine hresidual.of_settles (fun e he => ?_) ho
    cases he
    rw [isScoped]
    exact htrimmed hq hp hos
  | call ho =>
    rw [isScoped] at hq
    rw [Expr.keptScoped] at hp
    refine hresidual.of_callGives (hR hq hp) (fun rows cols elements hrange => ?_) ho
    have hrangeq := allScoped_iff.mp hq _ hrange
    have hrangep := allKeptScoped_iff.mp hp _ hrange
    rw [isScoped] at hrangeq
    rw [Expr.keptScoped] at hrangep
    exact hR hrangeq hrangep
  | cell ho => exact hresidual.of_cellGives (by rw [isScoped]) ho
  | range hos ho =>
    rw [isScoped] at hq
    rw [Expr.keptScoped] at hp
    rw [rebuilt_range ho, Outcome.expr, isScoped]
    exact htrimmed hq hp hos
  | splice hos ho | subSection hos ho =>
    rw [isScoped] at hq
    rw [Expr.keptScoped] at hp
    refine hresidual.of_rebuilt (fun e he => ?_) ho
    cases he
    rw [isScoped]
    exact htrimmed hq hp hos
  | @letIn name x y v r _ hv hr ho =>
    simp only [isScoped, optionScoped, and_eq_true] at hq
    simp only [Expr.keptScoped, optionKeptScoped, and_eq_true] at hp
    have hpush : (b.push name (if v.isConstant then some v else none)).Scopes
        (binds [name] q) (binds [name] p) := by
      refine hb.push name fun x hx => ?_
      split at hx
      · cases hx
        assumption
      · cases hx
    cases ho with
    | known => exact isScoped_of_isConstant rfl
    | left =>
      refine isScoped_ofExpr ?_
      simp only [isScoped, optionScoped, and_eq_true]
      exact ⟨hv q p hb hq.1 hp.1, hr _ _ hpush hq.2 hp.2⟩
  | letVar ho => exact isScoped_of_isConstant (hb.constant _ _ ho)
  | letVarLeft ho =>
    rw [isScoped] at hq
    rw [Outcome.expr, isScoped]
    exact hb.undefined _ hq ho
  | switch _ ho =>
    simp only [isScoped, and_eq_true, casesScoped_iff, optionScoped_iff] at hq
    simp only [Expr.keptScoped, and_eq_true, casesKeptScoped_iff, optionKeptScoped_iff] at hp
    refine hresidual.of_child (fun x o hx => ?_) ho
    rcases mem_branches_of_chosenBranch hx with hx | hx
    · obtain ⟨c, hc, hx⟩ := mem_map.mp hx
      exact hoption (hq.1.2 c hc) (hp.1.2 c hc) x o hx
    · exact hoption hq.2 hp.2 x o hx
  | switchLeft hx hcases hotherwise =>
    simp only [isScoped, and_eq_true, casesScoped_iff, optionScoped_iff] at hq
    simp only [Expr.keptScoped, and_eq_true, casesKeptScoped_iff, optionKeptScoped_iff] at hp
    simp only [Outcome.expr, isScoped, and_eq_true, casesScoped_iff, optionScoped_iff]
    refine ⟨⟨?_, fun c' hc' => ?_⟩, left_of_becomes (hoption hq.2 hp.2) hotherwise⟩
    · rintro x ⟨⟩
      exact hx q p hb (hq.1.1 _ rfl) (hp.1.1 _ rfl)
    · obtain ⟨c, hc, _, hbranch⟩ := exists_of_forall₂_of_mem hcases hc'
      exact left_of_becomes (hoption (hq.1.2 c hc) (hp.1.2 c hc)) hbranch
  | switchCase hc =>
    rw [isScoped, caseScoped_iff] at hq
    rw [Expr.keptScoped, caseKeptScoped_iff] at hp
    rw [Outcome.expr, isScoped, caseScoped_iff]
    exact left_of_becomes (hoption hq hp) hc.2
  | fold hos ho | reduce hos ho =>
    simp only [isScoped, and_eq_true, defScoped_iff] at hq
    simp only [Expr.keptScoped, and_eq_true] at hp
    have hos := hall hq.2 hp.2 hos
    refine (carries_isScoped hb hq.1.1 hp.1.1.2 _).elements opens_isScoped hos
      (fun o => hresidual.of_rebuilt fun e he => ?_) (fun _ _ st _ _ _ hst => isScoped_ofExpr ?_) ho
    · cases he
      simp only [isScoped, and_eq_true]
      exact ⟨⟨hp.1.1.1, hp.1.2⟩, hkept hos⟩
    · have hseeds := seedsScoped_iff.mp (seedsScoped_of_all hst)
      simp only [isScoped, and_eq_true, seedsScoped_iff, optionScoped_iff]
      refine ⟨⟨hp.1.1.1, fun x hx => hseeds x ?_⟩, allScoped_iff.mpr hst.flatten⟩
      first
      | exact hx
      | exact List.mem_of_head? hx
  | foldArray ha ho =>
    simp only [isScoped, and_eq_true, defScoped_iff, optionScoped_iff] at hq
    simp only [Expr.keptScoped, and_eq_true, optionKeptScoped_iff] at hp
    have ha := hresidual.of_child (hoption hq.2 hp.2) ha
    refine (carries_isScoped hb hq.1 hp.1.2 _).array (fun _ _ _ _ => isConstant_of_isKnown)
      (fun o => hresidual.of_rebuilt fun e he => ?_) ho
    cases he
    simp only [isScoped, and_eq_true, optionScoped_iff]
    exact ⟨hp.1.1, hsingle ha⟩
  | foldVectors hos _ _ ho =>
    simp only [isScoped, and_eq_true, defScoped_iff] at hq
    simp only [Expr.keptScoped, and_eq_true] at hp
    have hos := hall hq.2 hp.2 hos
    refine (carries_isScoped hb hq.1.1 hp.1.1.2 _).vectors opens_isScoped hos
      (fun o => hresidual.of_rebuilt fun e he => ?_)
      (fun _ _ st _ n _ _ hst => isScoped_ofExpr ?_) ho
    · cases he
      simp only [isScoped, and_eq_true]
      exact ⟨⟨hp.1.1.1, hp.1.2⟩, hkept hos⟩
    · simp only [isScoped, and_eq_true]
      exact ⟨⟨hp.1.1.1, seedsScoped_of_all hst⟩, allScoped_vectors hst n⟩
  | foldTable ha ho =>
    simp only [isScoped, and_eq_true, defScoped_iff, optionScoped_iff] at hq
    simp only [Expr.keptScoped, and_eq_true, optionKeptScoped_iff, optionScoped_iff] at hp
    have ha := hresidual.of_child (hoption hq.2 hp.2) ha
    refine (carries_isScoped hb hq.1.1.1 hp.1.1.1.2 _).table
      (fun rows cols elements heq => ?_) (fun o => hresidual.of_rebuilt fun e he => ?_)
      (fun _ rows cols _ _ st _ _ _ _ _ hst => isScoped_ofExpr ?_) ho
    · subst heq
      exact opens_isScoped.of_elements? ha rfl
    · cases he
      simp only [isScoped, and_eq_true, optionScoped_iff]
      exact ⟨⟨⟨hp.1.1.1.1, hp.1.1.2⟩, hp.1.2⟩, hsingle ha⟩
    · simp only [isScoped, and_eq_true, optionScoped_iff, optionScoped]
      exact ⟨⟨⟨hp.1.1.1.1, seedsScoped_of_all hst⟩, hp.1.2⟩, allScoped_iff.mpr hst.flatten⟩
  | parentSection hr ho =>
    simp only [isScoped, optionScoped] at hq
    simp only [Expr.keptScoped, optionKeptScoped] at hp
    have hr := hr q p hb hq hp
    cases ho with
    | known => exact hr
    | left he =>
      cases he
      exact hr
  | count ho => exact isScoped_of_countGives hp ho

/-- **The outcome of a walk takes from outside only names that are bound as undefined, and those
in the parts that are kept as they stand.** -/
theorem isScoped_of_gives {opt : Optimizer} {book : Workbook} {n : Nat} {origin : Option Address}
    (e : Expr) {b : Bindings} {o : Outcome} (h : Gives L U b (opt.walkDeep book n origin e) o) :
    ScopedIn counted b e o := by
  induction e using induction_on_parts generalizing b o with
  | step e ih => exact isScoped_of_nodeGives (gives_walkDeep (fun b p o hp h => ih p hp h) h)

end Walks

end FormulaFold
