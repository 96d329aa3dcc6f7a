import FormulaFold.Proofs.UpheldNodes

/-! # Soundness

**The outcome of a sorted formula yields what the formula yields** (`Runner.sound_of_gives`), where
what is remembered of cells is what a run of them yields (`Evaluator.Recalls`).  Whatever walks
remember is of that kind (`Evaluator.recalls_of_earned`), so the two are shown one after the other:
a walk is sound by induction on the parts of the formula, with what is remembered taken as given,
and what is remembered is right by induction on how it was earned.
-/
namespace FormulaFold

open Walk

variable {strict : Prop} {plain : Bool} {n : Nat} {visited : List Address}
  {env : Env} {b : Bindings} {o : Outcome}

/-! ## Cells -/

/-- What is remembered of a cell is what a run of its formula yields, in whatever rows, or its
literal value. -/
structure Evaluator.Recalls (ev : Evaluator) (strict : Prop) (plain : Bool) (m : Memo) : Prop where
  fits : m.Fits plain
  literal : ∀ a c, m.find? a = some c → (ev.book.get a).formula = none →
    c.value = ev.engine.literal (ev.book.get a).value
  formula : ∀ a f c, m.find? a = some c → (ev.book.get a).formula = some f →
    ∀ n visited rows, (∀ row ∈ rows, Row.Fits plain ev.book row) →
      Runner.Admits ⟨ev, n, visited⟩ strict plain f →
      Upholds strict (ev.Runs n visited ⟨[], some a, rows⟩ f) (· = .one c.value)

theorem Evaluator.Recalls.of_within {ev : Evaluator} {m m' : Memo} (h : ev.Recalls strict plain m')
    (hwithin : m.Within m') : ev.Recalls strict plain m where
  fits a c hc := h.fits a c (hwithin a c hc)
  literal a c hc := h.literal a c (hwithin a c hc)
  formula a f c hc := h.formula a f c (hwithin a c hc)

theorem runs_cell {ev : Runner} :
    ev.Runs env (.cell a) y ↔ CellYields ev.toEvaluator ev.Entered env a y := by
  rw [runs_iff]
  exact ⟨fun h => by cases h; assumption, .cell⟩

theorem exists_literalOf_eq (site : Site) (a : Address) :
    ∃ t, site.literalOf a = .known (site.engine.literal (site.book.get a).value) t := by
  unfold Site.literalOf
  split
  · rename_i hnull
    cases hvalue : (site.book.get a).value with
    | null => exact ⟨_, rfl⟩
    | _ => simp [hvalue, Value.isNull] at hnull
  · exact ⟨_, rfl⟩

section Cells

variable {ev : Evaluator} {site : Site} (hserves : ev.Serves strict plain site)
  (henv : env.Fits plain ev.book) {m : Memo} (hm : ev.Recalls strict plain m)
include hserves henv hm

/-- **What is remembered of a cell is what the cell yields.** -/
theorem upholds_remembered {a : Address} {c : Constant}
    (hadmits : Runner.Admits ⟨ev, n, visited⟩ strict plain (.cell a))
    (hinput : (ev.book.get a).input = false) (hc : m.find? a = some c) :
    Upholds strict (ev.Runs n visited env (.cell a)) (· = .one c.value) := by
  have hrow := henv.cell?_eq_none hinput
  refine (Upholds.of_iff fun y => runs_cell).trans ?_
  cases hformula : (ev.book.get a).formula with
  | none =>
    rw [hm.literal a c hc hformula]
    refine .of_iff fun y => ⟨fun h => ?_, ?_⟩
    · cases h <;> simp_all
    · rintro rfl
      exact .literal hrow hinput hformula
  | some f =>
    have hrun (k : Nat) (hk : n = k + 1) := hm.formula a f c hc hformula k (a :: visited) env.rows
      henv.rows (Runner.Admits.enter hserves.acyclic (hk ▸ hadmits) hformula)
    constructor
    · intro y hy
      cases hy with
      | row hv => simp [hrow] at hv
      | input _ hinput' => simp [hinput] at hinput'
      | literal _ _ hnone => simp [hformula] at hnone
      | @formula f' _ _ _ hf hy =>
        cases hformula.symm.trans hf
        cases n with
        | zero => exact absurd hy.2 Run.not_yields_throw
        | succ k => exact (hrun k rfl).forth y hy.2
    · intro hs y hy
      obtain ⟨ha, k, rfl⟩ := hadmits.exists_depth hs hformula
      exact .formula hrow hinput hformula ⟨ha, (hrun k rfl).back hs y hy⟩

theorem upholds_cellGives {L : Memo} {R : Address → Giving} {a : Address}
    (hadmits : Runner.Admits ⟨ev, n, visited⟩ strict plain (.cell a))
    (h : CellGives site L m R a o) : Runner.Upheld ⟨ev, n, visited⟩ strict env (.cell a) o := by
  have hknown {c : Constant} (hinput : (site.book.get a).input = false) (hc : m.find? a = some c)
      (t : DataType) : Runner.Upheld ⟨ev, n, visited⟩ strict env (.cell a) (.known c.value t) :=
    (upholds_remembered hserves henv hm hadmits (hserves.book ▸ hinput) hc).trans
      (.of_iff fun y => runs_constant.symm)
  cases h with
  | input | left => exact .of_iff fun y => runs_ofExpr.symm
  | remembered hinput hc => exact hknown hinput hc _
  | entered hinput _ _ _ hc => exact hknown hinput hc _
  | literal hinput _ _ hc =>
    obtain ⟨t, hliteral⟩ := exists_literalOf_eq site a
    rw [hliteral] at hc ⊢
    exact hknown hinput hc _

end Cells

/-! ## Nodes -/

section Nodes

variable {ev : Runner} {site : Site} {L U : Memo} {entered : Address → Giving} {e : Expr}
  (hserves : ev.Serves strict plain site) (hU : ev.Recalls strict plain U)

include hserves hU in
/-- **Every node is upheld.** -/
theorem upholds_nodeGives (hmeets : ev.Meets strict plain site.origin b env)
    (hadmits : ev.Admits strict plain e) (hsorted : e.isSorted plain .argument = true)
    (h : NodeGives False site (CellGives site L U entered)
      (ev.Sound strict plain site.origin) b e o) :
    ev.Upheld strict env e o := by
  have hupheld {x : Expr} {o : Outcome} (hx : x.isSorted plain .scalar = true ∧ x ∈ e.parts)
      (ho : ev.Sound strict plain site.origin b x o) : ev.Upheld strict env x o :=
    (ho.upheldAs hmeets (hadmits.part hx.2) hx.1 (by simp)).1
  cases h with
  | constant => exact .of_iff fun y => runs_constant.trans runs_constant.symm
  | operator hos ho =>
    rw [isSorted] at hsorted
    exact upholds_operator hserves hmeets hadmits hsorted hos ho
  | call ho => exact upholds_callGives hserves hmeets hadmits hsorted ho
  | cell ho => exact upholds_cellGives hserves hmeets.around hU hadmits ho
  | range hos ho => exact upholds_range hmeets hadmits hsorted hos ho
  | splice hos ho => exact upholds_splice hmeets hadmits hsorted hos ho
  | subSection hos ho =>
    rw [isSorted, and_eq_true] at hsorted
    exact upholds_subSection hmeets hserves hadmits hsorted.2 hos ho
  | letIn hv hr ho =>
    simp only [isSorted, optionSorted, and_eq_true] at hsorted
    exact upholds_letIn hmeets hserves hadmits hsorted.1 hsorted.2 hv hr ho
  | letVar ho => exact upholds_letVar hmeets ho
  | letVarLeft => exact .refl _
  | switch hx ho =>
    have hbranch {x : Expr} := Expr.sorted_branch (x := x) hsorted
    simp only [isSorted, and_eq_true, optionSorted] at hsorted
    exact upholds_chosen (hupheld ⟨hsorted.1.1, by simp [parts]⟩ hx)
      (ho.imp fun x hx => hupheld (hbranch (mem_branches_of_chosenBranch hx)))
  | switchLeft hx hcases hotherwise =>
    have hbranch {x : Expr} := Expr.sorted_branch (x := x) hsorted
    simp only [isSorted, and_eq_true, optionSorted] at hsorted
    exact upholds_switchLeft (hupheld ⟨hsorted.1.1, by simp [parts]⟩ hx)
      (forall₂_case_imp (fun x o hx => hupheld (hbranch (.inl hx))) hcases)
      (hotherwise.imp fun x o hx => hupheld (hbranch (.inr hx)))
  | switchCase => cases hsorted
  | fold hos ho =>
    simp only [isSorted, and_eq_true] at hsorted
    exact upholds_listFold hmeets .fold hadmits (by simp [Expr.isSortedFold, hsorted])
      (.inl hsorted.1.1.1) (fun _ => .of_sized) hos ho
  | reduce hos ho =>
    simp only [isSorted, and_eq_true] at hsorted
    exact upholds_listFold hmeets .reduce hadmits (by simp [Expr.isSortedFold, hsorted])
      (.inl hsorted.1.1.1) (fun _ => .of_sized_seed) hos ho
  | foldArray ha ho => exact upholds_foldArray hmeets hadmits hsorted ha ho
  | foldVectors hos hne hlen ho =>
    simp only [isSorted, and_eq_true] at hsorted
    exact upholds_foldVectors hmeets hadmits (by simp [hsorted]) hos hsorted.1.1.1 hne hlen ho
  | foldTable ha ho =>
    simp only [isSorted, and_eq_true] at hsorted
    exact upholds_foldTable hmeets hadmits (by simp [Expr.isSortedFold, hsorted])
      (.inl hsorted.1.1.1.1) ha ho
  | parentSection hr ho =>
    simp only [isSorted, optionSorted] at hsorted
    exact upholds_parentSection hmeets hadmits hsorted hr ho
  | count ho => exact upholds_count ho

/-- Only ranges, splices and sections are not single values where they are arguments. -/
theorem isSorted_scalar_or (hsorted : e.isSorted plain .argument = true) :
    e.isSorted plain .scalar = true ∨ (∃ rows cols es, e = .range rows cols es) ∨
      (∃ es, e = .splice es) ∨ ∃ s es, e = .subSection s es := by
  cases e with
  | range => exact .inr (.inl ⟨_, _, _, rfl⟩)
  | splice => exact .inr (.inr (.inl ⟨_, rfl⟩))
  | subSection => exact .inr (.inr (.inr ⟨_, _, rfl⟩))
  | _ => exact .inl hsorted

/-- Only a range becomes a range, and it keeps its shape. -/
theorem shaped_of_nodeGives (hb : b.Fits plain) (hsorted : e.isSorted plain .argument = true)
    {R : Bindings → Giving} (h : NodeGives False site (CellGives site L U entered) R b e o)
    (ho : SortedIn plain b e o) (rows cols : Int) (elements : Children)
    (heq : o.expr = .range rows cols elements) : ∃ elements', e = .range rows cols elements' := by
  rcases isSorted_scalar_or hsorted with hscalar | ⟨rows', cols', es, rfl⟩ | ⟨es, rfl⟩
    | ⟨s, es, rfl⟩
  · have hscalar := ho hb .scalar hscalar
    rw [heq, isSorted] at hscalar
    cases hscalar
  · cases h with
    | range _ h =>
      rw [isSorted, and_eq_true] at hsorted
      rw [rebuilt_range h, length_keepMissing, rangeShape_of_fitsShape hsorted.1] at heq
      cases heq
      exact ⟨es, rfl⟩
  · cases h with
    | splice _ h =>
      obtain ⟨x, hx, rfl⟩ := h
      cases hx
      cases heq
  · cases h with
    | subSection _ h =>
      obtain ⟨x, hx, rfl⟩ := h
      cases hx
      cases heq

include hserves hU in
/-- The leaves of every node are upheld. -/
theorem upholdsLeaves_nodeGives (hmeets : ev.Meets strict plain site.origin b env)
    (hadmits : ev.Admits strict plain e) (hsorted : e.isSorted plain .element = true)
    (h : NodeGives False site (CellGives site L U entered)
      (ev.Sound strict plain site.origin) b e o) :
    ev.UpheldLeaves strict env e o := by
  have hother (hsorted : e.isSorted plain .argument = true) :
      ev.UpheldLeaves strict env e o :=
    (upholds_nodeGives hserves hU hmeets hadmits hsorted h).leaves
  cases e with
  | range rows cols es =>
    rw [isSorted, and_eq_true] at hsorted
    cases h with
    | range hos ho =>
      rw [rebuilt_range ho]
      exact (Upholds.of_iff fun vs => leavesYield_range).trans
        ((upholds_elementLeaves hmeets hadmits (by simp [parts]) hsorted.2 hos).trans
          (.of_iff fun vs => leavesYield_range.symm))
  | splice es =>
    rw [isSorted, and_eq_true] at hsorted
    cases h with
    | splice hos ho =>
      obtain ⟨x, hx, rfl⟩ := ho
      cases hx
      exact (Upholds.of_iff fun vs => leavesYield_splice).trans
        ((upholds_elementLeaves hmeets hadmits (by simp [parts]) hsorted.2 hos).trans
          (.of_iff fun vs => leavesYield_splice.symm))
  | _ => exact hother hsorted

end Nodes

/-! ## Walks -/

section Walks

variable {opt : Optimizer} {book : Workbook} {L U : Memo} {k : Nat} {origin : Option Address}

/-- **The outcome of a walk is upheld**, where what is remembered is right. -/
theorem Runner.sound_of_gives {ev : Runner}
    (hserves : ev.Serves strict plain (opt.site book origin))
    (hU : ev.Recalls strict plain U) (e : Expr) (h : Gives L U b (opt.walkDeep book k origin e) o) :
    ev.Sound strict plain origin b e o := by
  induction e using induction_on_parts generalizing b o with
  | step e ih =>
    have hprecision (hplain : plain = true) : opt.engine.precision ≤ 0 := by
      rw [show opt.engine = ev.engine from hserves.engine]
      exact hserves.precision_of_plain hplain
    have hsorted := isSorted_of_gives hprecision hU.fits e h
    have hnode := gives_walkDeep (fun b p o hp h => ih p hp h) h
    exact
      { sorted := hsorted
        names := isScoped_of_gives e h
        shaped := fun hb he => shaped_of_nodeGives hb he hnode hsorted
        upheld := fun env hmeets hadmits he =>
          upholds_nodeGives hserves hU hmeets hadmits he hnode
        leaves := fun env hmeets hadmits he =>
          upholdsLeaves_nodeGives hserves hU hmeets hadmits he hnode }

theorem Evaluator.meets_empty {ev : Evaluator} {rows : List Row}
    (hrows : ∀ row ∈ rows, Row.Fits plain ev.book row)
    (origin : Option Address) : ev.Meets strict plain origin .empty ⟨[], origin, rows⟩ :=
  ⟨Bindings.fits_empty, Bindings.matches_empty _, Env.fits_of_rows hrows origin, rfl⟩

theorem Evaluator.Recalls.set {ev : Evaluator} {m : Memo} (hm : ev.Recalls strict plain m)
    {a : Address} {c : Constant} (hfits : c.value.fits plain = true)
    (hliteral : (ev.book.get a).formula = none → c.value = ev.engine.literal (ev.book.get a).value)
    (hformula : ∀ f, (ev.book.get a).formula = some f → ∀ n visited rows,
      (∀ row ∈ rows, Row.Fits plain ev.book row) → Runner.Admits ⟨ev, n, visited⟩ strict plain f →
        Upholds strict (ev.Runs n visited ⟨[], some a, rows⟩ f) (· = .one c.value)) :
    ev.Recalls strict plain (m.set a c) := by
  have hfind {a' : Address} {c' : Constant} (h : (m.set a c).find? a' = some c') :
      a' = a ∧ c' = c ∨ m.find? a' = some c' := by
    by_cases ha : a' = a
    · subst ha
      rw [Memo.find?_set_self] at h
      exact .inl ⟨rfl, (Option.some.inj h).symm⟩
    · rw [Memo.find?_set_of_ne _ _ ha] at h
      exact .inr h
  refine ⟨fun a' c' h => ?_, fun a' c' h => ?_, fun a' f c' h => ?_⟩
  · obtain ⟨rfl, rfl⟩ | h := hfind h
    · exact hfits
    · exact hm.fits a' c' h
  · obtain ⟨rfl, rfl⟩ | h := hfind h
    · exact hliteral
    · exact hm.literal a' c' h
  · obtain ⟨rfl, rfl⟩ | h := hfind h
    · exact hformula f
    · exact hm.formula a' f c' h

/-- **Whatever walks remember is right.** -/
theorem Evaluator.recalls_of_earned {ev : Evaluator} {O : Optimizer → Prop} {m : Memo}
    (hserves : ∀ opt, O opt → ∀ origin, ev.Serves strict plain (opt.site book origin))
    (hm : Earned O book m) : ev.Recalls strict plain m := by
  induction hm with
  | empty => exact ⟨by rintro _ _ ⟨⟩, by rintro _ _ ⟨⟩, by rintro _ _ _ ⟨⟩⟩
  | again hsome _ ih =>
    exact ih.set (ih.fits _ _ hsome) (ih.literal _ _ hsome) fun f => ih.formula _ f _ hsome
  | @literal opt a m hopt _ hnone _ _ ih =>
    have hserves := hserves opt hopt none
    have hbook : book = ev.book := hserves.book
    obtain ⟨t, hliteral⟩ := exists_literalOf_eq (opt.site book none) a
    rw [hserves.engine, hserves.book] at hliteral
    rw [hliteral]
    refine ih.set (Engine.fits_literal hserves.precision_of_plain (hserves.sorted.values a))
      (fun _ => rfl) fun f hf => ?_
    rw [← hbook, hnone] at hf
    cases hf
  | @formula opt a f k s s' v t m hopt hformula hempty hwalk hwithin _ _ ih =>
    have hserves := hserves opt hopt (some a)
    have hbook : book = ev.book := hserves.book
    rw [hbook] at hformula
    have hgives : Gives s.memo s'.memo .empty (opt.walkDeep book k (some a) f) (.known v t) :=
      ⟨s, s', hempty, trivial, .refl _, hwalk, .refl _⟩
    have hsound (n : Nat) (visited : List Address) :
        Runner.Sound ⟨ev, n, visited⟩ strict plain (some a) .empty f (.known v t) :=
      Runner.sound_of_gives hserves (ih.of_within hwithin) f hgives
    have hsorted := hserves.sorted.formulas a f hformula
    refine ih.set ?_ (fun hnone => ?_) fun f' hf' n visited rows hrows hadmits => ?_
    · simpa [Outcome.expr, isSorted] using (hsound 0 []).sorted Bindings.fits_empty .scalar hsorted
    · rw [hformula] at hnone
      cases hnone
    · cases hformula.symm.trans hf'
      exact ((hsound n visited).upheldAs (Evaluator.meets_empty hrows (some a)) hadmits hsorted
        (by simp)).1.trans (.of_iff fun y => runs_constant)

end Walks

end FormulaFold
