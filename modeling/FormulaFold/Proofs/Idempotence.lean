import FormulaFold.Proofs.Laws
import FormulaFold.Proofs.Preservation
import FormulaFold.Proofs.RestingFolds

/-! # Folding what is left

**What is left of a formula is left as it is when it is folded again** (`optimize_residual`).

The second pass may still count folds that were done in part.  They are found on the way to the
formulas of cells and to what a fold that stays has to walk to find out that it does not get on:
its first values, its steps and its filter.  No fold is counted if there are none to be found there
(`Workbook.Shallow`).
-/
namespace FormulaFold

open Walk

/-! ## Formulas that lead to no folds -/

theorem Expr.mem_parts_of_mem_probes {e p : Expr} (h : p ∈ e.probes) : p ∈ e.parts := by
  have hstart {d : FoldDef Expr} {seeds : List Expr} :=
    @FoldDef.mem_parts_of_mem_start _ d p seeds
  have hsteps {d : FoldDef Expr} (hp : p ∈ d.steps) : p ∈ d.parts :=
    FoldDef.mem_parts_of_mem_steps hp
  have hinits {d : FoldDef Expr} (hp : some p ∈ d.inits) : p ∈ d.parts := by
    simp [FoldDef.parts, hp]
  cases e with
  | fold | reduce | foldArray | foldVectors | foldTable =>
    simp only [probes, parts, mem_append, mem_present] at h ⊢
    grind
  | _ => cases h

/-- Whether there are no folds in the first values, the steps and the filters of folds, nor in the
formulas of the cells that references lead to. -/
structure Workbook.Shallow (book : Workbook) (e : Expr) : Prop where
  probes : ∀ x : Expr, x.OccursIn e → ∀ p ∈ x.probes, ∀ y : Expr, y.OccursIn p → y.isFold = false
  formulas : ∀ a f, book.Reaches e a → (book.get a).formula = some f →
    ∀ y : Expr, y.OccursIn f → y.isFold = false

namespace Workbook.Shallow

variable {book : Workbook} {e : Expr}

theorem part (h : book.Shallow e) (hp : p ∈ e.parts) : book.Shallow p where
  probes x hx := h.probes x (hx.tail hp)
  formulas a f := by
    rintro ⟨c, hc, hca⟩
    exact h.formulas a f ⟨c, Expr.Inside.mentions (.part hp) hc, hca⟩

theorem foldless_of_mem_probes (h : book.Shallow e) (hp : p ∈ e.probes) : book.Foldless p where
  nodes := h.probes e .refl p hp
  formulas := (h.part (Expr.mem_parts_of_mem_probes hp)).formulas

theorem foldless_cell {a : Address} (h : book.Shallow (.cell a)) : book.Foldless (.cell a) where
  nodes := Expr.forall_occursIn rfl (by simp [parts])
  formulas := h.formulas

end Workbook.Shallow

/-! ## The second walk -/

section Second

variable {opt : Optimizer} {book : Workbook}

/-- A state that the second walk may meet: it remembers nothing but values of cells, and where
`quiet` holds it has counted `k` folds as done in part. -/
def Optimizer.Ready (opt : Optimizer) (book : Workbook) (quiet : Prop) (k : Nat) (s : WalkState) :
    Prop :=
  opt.Reliable book book.cells.length s ∧ (quiet → s.stats.partialFolds = k)

variable {quiet : Prop}

theorem lenient_ready : Lenient (opt.Ready book quiet k) where
  under _ _ h := ⟨h.1.of_core rfl rfl, h.2⟩
  events _ _ h := ⟨h.1.of_core rfl rfl, h.2⟩
  folded _ _ h := ⟨h.1.of_core rfl rfl, h.2⟩
  refused _ _ h := ⟨h.1.of_core rfl rfl, h.2⟩

/-- What the first walk gives of a formula and its parts. -/
abbrev Optimizer.First (opt : Optimizer) (book : Workbook) (origin : Option Address) (L U : Memo)
    (b : Bindings) (e : Expr) (o : Outcome) : Prop :=
  GivesAmid (fun active => ∀ a ∈ active, book.cells.length ≤ book.rank a) L U b
    (opt.walkDeep book book.cells.length origin e) o

variable {L U : Memo} {e : Expr}

theorem Optimizer.First.gives (h : opt.First book origin L U b e o) :
    Gives L U b (opt.walkDeep book book.cells.length origin e) o := by
  obtain ⟨s, s', hb, _, hL, hok, hU⟩ := h
  exact ⟨s, s', hb, trivial, hL, hok, hU⟩

variable (hU : ∀ a c, U.find? a = some c → opt.Finds book a c)
include hU

/-- The first walk went on from a reliable state. -/
theorem exists_reliable_of_first (h : opt.First book origin L U b e o) :
    ∃ s s', opt.Reliable book book.cells.length s ∧ s.bindings = b ∧
      opt.walkDeep book book.cells.length origin e s = .ok o s' := by
  obtain ⟨s, s', hb, hactive, _, hok, hwithin⟩ := h
  have hgrows := (frames_walkDeep_open (O := fun _ => True) trivial book.cells.length origin e b s
    hb).growth hok
  exact ⟨s, s', ⟨fun a c hc => hU a c (hwithin a c (hgrows.memo a c hc)), hactive⟩, hb, hok⟩

variable (hacyclic : book.Acyclic)
include hacyclic

/-- What the first walk has given the second one gives, too. -/
theorem comes_of_first (hfoldless : quiet → book.Foldless e) (h : opt.First book origin L U b e o) :
    Comes (opt.Ready book quiet k) b (opt.walkDeep book book.cells.length origin e) o := by
  obtain ⟨s, s', hs, hb, hok⟩ := exists_reliable_of_first hU h
  intro t ht hbt
  have hrank (a : Address) (f : Expr) (_ : e.Mentions a) (hf : (book.get a).formula = some f) :=
    Workbook.rank_lt_length hacyclic hf
  have hmatch := abreast_walkDeep opt hacyclic _ _ _ origin e hrank (Nat.le_refl _) (Nat.le_refl _)
    s t ⟨hbt.trans hb.symm, hs, ht.1⟩
  rw [hok] at hmatch
  generalize hrun : opt.walkDeep book book.cells.length origin e t = run at hmatch
  cases hmatch with
  | @ok _ o' _ t' ho hst =>
    obtain rfl := Outcome.eq_of_like_same ho
    refine ⟨t', rfl, ⟨hst.right, fun hq => ?_⟩, ?_⟩
    · exact (partialFolds_of_walkDeep (hfoldless hq) hrun).trans (ht.2 hq)
    · exact hst.bindings.trans
        (((frames_walkDeep_open (O := fun _ => True) trivial _ origin e b s hb).growth
          hok).bindings.trans hb)

/-- A reference that was left is left again, whatever names are bound. -/
theorem comes_cell_of_first {a : Address} (hfoldless : quiet → book.Foldless (.cell a))
    (h : opt.First book origin L U b (.cell a) (.residual (.cell a))) (b' : Bindings) :
    Comes (opt.Ready book quiet k) b' (opt.walkDeep book book.cells.length origin (.cell a))
      (.residual (.cell a)) := by
  obtain ⟨s, s', hs, _, hok⟩ := exists_reliable_of_first hU h
  have hagain {t : WalkState} (ht : opt.Reliable book book.cells.length t) :
      ∃ t', opt.walkDeep book book.cells.length origin (.cell a) t = .ok (.residual (.cell a)) t' ∧
        opt.Reliable book book.cells.length t' ∧ t'.bindings = t.bindings := by
    simp only [opt.walkDeep_eq, walk] at hok ⊢
    cases hinput : (book.get a).input with
    | true =>
      rw [cellForm_input hinput, dynamic_cell]
      exact ⟨t, rfl, ht, rfl⟩
    | false =>
      cases hformula : (book.get a).formula with
      | none =>
        obtain ⟨_, hliteral, _⟩ := cellForm_of_literal hinput hformula hs book.cells.length origin
        rw [hok] at hliteral
        injection hliteral with hliteral
        unfold Site.literalOf at hliteral
        split at hliteral <;> cases hliteral
      | some f =>
        have hrank := Workbook.rank_lt_length hacyclic hformula
        have hwalk (m : Nat) (hm : book.rank a ≤ m) := abreast_walkDeep opt hacyclic (book.rank a)
          book.cells.length m (some a) f (fun c g hc hg => Workbook.rank_lt hacyclic
            ⟨f, hformula, hc⟩ hg) (Nat.le_of_lt hrank) hm
        have hleft := matches_cellForm hinput hformula hrank (Nat.le_refl _) hwalk hs origin
        have hright := matches_cellForm hinput hformula hrank (Nat.le_refl _) hwalk ht origin
        rw [hok] at hleft
        generalize opt.walkDeep book book.cells.length (some a) f .initial = found at hleft hright
        generalize cellForm (opt.site book origin) (opt.enter book _) a t = run at hright ⊢
        cases hleft with
        | @ok found _ _ _ ho _ =>
          cases hright with
          | ok ho' ht' =>
            cases found with
            | known => cases ho
            | residual => exact ⟨_, by rw [ho']; rfl, ht'⟩
  intro t ht hb
  obtain ⟨t', hrun, hreliable, hb'⟩ := hagain ht.1
  refine ⟨t', hrun, ⟨hreliable, fun hq => ?_⟩, hb'.trans hb⟩
  exact (partialFolds_of_walkDeep (hfoldless hq) hrun).trans (ht.2 hq)

/-- Walking what is left of a formula is a second walk. -/
theorem second_walk (hfits : U.Fits false) :
    Second (opt.Ready book quiet k) (opt.site book origin) (opt.enter book book.cells.length)
      (opt.First book origin L U)
      (fun x => x.isWritable book.sectionPath = true ∧ (quiet → book.Shallow x)) where
  lenient := lenient_ready
  frames e b := by
    rw [← opt.walkDeep_eq]
    exact frames_walkDeep_open trivial _ origin e b
  typed b e o h hb := typed_of_gives _ e hb h.gives
  sorted b e o h := isSorted_of_gives (by simp) hfits e h.gives
  unfolds b e o h S hS := ⟨L, U, _, gives_walkDeep hS h⟩
  part x hx p hp := ⟨(Expr.isWritable_iff.mp hx.1).2 p hp,
    fun hq => (hx.2 hq).part (Expr.mem_parts_of_mem_liveParts hp)⟩
  writable x hx := hx.1
  probe x hx p hp b o h := by
    rw [← opt.walkDeep_eq]
    exact comes_of_first hU hacyclic (fun hq => (hx.2 hq).foldless_of_mem_probes hp) h
  cell a hx b h b' := by
    rw [← opt.walkDeep_eq]
    exact comes_cell_of_first hU hacyclic (fun hq => (hx.2 hq).foldless_cell) h b'

end Second

/-! ## Folding again -/

section Optimize

variable {opt : Optimizer} {book : Workbook} {e : Expr} {r : Outcome}

/-- What folding gives was written, so it can be. -/
theorem isWritable_of_optimize (h : opt.optimize book (some e) origin s = .ok r s') :
    r.expr.isWritable book.sectionPath = true :=
  isSome_iff_exists.mpr (exists_balanced_of_optimize h).2

/-- A call that succeeds ends a session. -/
theorem session_concat {calls : List Optimizer.Call}
    (h : opt.optimize book (some e) origin (opt.session book calls) = .ok r s') :
    opt.session book (calls ++ [.formula (some e) origin]) = s' := by
  rw [Optimizer.session, List.foldl_append, List.foldl_cons, List.foldl_nil]
  change (opt.optimize book (some e) origin).final (opt.session book calls) = s'
  rw [Walk.final, h]

/-- The values that a session remembers are single ones. -/
theorem fits_session (opt : Optimizer) (hacyclic : book.Acyclic) (hbook : book.Sorted false)
    (calls : List Optimizer.Call) : (opt.session book calls).memo.Fits false := by
  let ev : Evaluator := ⟨opt.engine, book, ⟨[], []⟩⟩
  have hserves (origin : Option Address) : ev.Serves True false (opt.site book origin) :=
    ⟨rfl, rfl, .inl ⟨trivial, rfl⟩, fun _ => hacyclic, hbook, ⟨by simp, by simp [ev, Inputs.rows]⟩⟩
  exact (ev.recalls_of_earned (fun _ h origin => h ▸ hserves origin)
    (earned_session opt book calls)).fits

/-- **What is left of a formula is left as it is when it is folded again.**  This holds after any
calls, those that were made before included.  No fold is counted as done in part if what is left
leads to none but through the arguments of folds. -/
theorem optimize_residual (opt : Optimizer) (hacyclic : book.Acyclic) (hbook : book.Sorted false)
    (he : e.isSorted false .scalar = true) (hregular : e.Regular) {calls : List Optimizer.Call}
    (hr : opt.optimize book (some e) origin (opt.session book calls) = .ok r s')
    (later : List Optimizer.Call) :
    ∃ t, opt.optimize book (some r.expr) origin (opt.session book later) = .ok r t ∧
      (book.Shallow r.expr → t.stats.partialFolds =
        (opt.session book later).stats.partialFolds) := by
  have hs' := session_concat hr
  have hreliable : opt.Reliable book book.cells.length s' :=
    hs' ▸ (twins_session opt hacyclic _).left
  have hfirst : opt.First book origin (opt.session book calls).memo s'.memo .empty e r :=
    gives_optimize ⟨_, s', rfl, (twins_session opt hacyclic calls).left.active, .refl _, hr,
      .refl _⟩
  have hwritable := isWritable_of_optimize hr
  have htyped : Outcome.ofExpr r.expr = r := typed_of_gives _ e .empty hfirst.gives
  let P := opt.Ready book (book.Shallow r.expr) (opt.session book later).stats.partialFolds
  have hstays := ((second_walk hreliable.memo hacyclic
    (hs' ▸ fits_session opt hacyclic hbook _)).rests (P := P) e hfirst .scalar .empty he hregular
      Bindings.fits_empty .empty (.inl rfl)).2 ⟨hwritable, id⟩
  have hcomes := hstays.comes
  rw [htyped, ← opt.walkDeep_eq] at hcomes
  obtain ⟨t, ht, hready, _⟩ := comes_optimize lenient_ready _ hcomes hwritable hwritable
    (opt.session book later) ⟨(twins_session opt hacyclic later).left, fun _ => rfl⟩ rfl
  exact ⟨t, ht, hready.2⟩

end Optimize

namespace KeptExample

open Sample

/-- A workbook in which the given cells follow the input. -/
def bookWith (cells : List Cell) : Workbook := ⟨input :: cells, []⟩

/-- A formula that is done in part. -/
def begun : Cell := formulaAt 2 (joined [] 0 [text "a", .cell (cellAt 1)])

/-- Texts in front of the input, and what is left of them. -/
def prefixed : Expr := joined [] 0 [text "a", text "b", .cell (cellAt 1)]

def prefixedLeft : Expr := joined [text "ab"] 2 [.cell (cellAt 1)]

theorem acyclic_bookWith (h : ∀ cell ∈ cells, cell = begun) : (bookWith cells).Acyclic := by
  refine Workbook.acyclic_of_lt _ (fun a => if a = cellAt 2 then 1 else 0) ?_
  rintro a c ⟨f, hf, hc⟩
  obtain ⟨cell, hcell, rfl, hformula⟩ := Workbook.exists_cell_of_formula hf
  obtain rfl | hcell : cell = input ∨ cell ∈ cells := by simpa [bookWith] using hcell
  · cases hformula
  · obtain rfl := h cell hcell
    cases hformula
    rw [joined, Expr.mentions_iff_of_ne (by simp)] at hc
    obtain rfl : cellAt 1 = c := by
      simpa [parts, FoldDef.parts, FoldDef.inits, FoldDef.steps, present, text, join,
        Expr.mentions_iff_of_ne] using hc
    decide

def step : Expr := join (.letVar "acc" .unknown) (.letVar "x" .unknown)

/-- The nodes of these formulas that have no parts. -/
def leaves : List Expr := [text "", text "a", text "b", text "ab", .cell (cellAt 1),
  .letVar "acc" .unknown, .letVar "x" .unknown]

theorem forall_occursIn_leaf {p : Expr → Prop} (hx : x ∈ leaves) (h : p x) :
    ∀ y : Expr, y.OccursIn x → p y := by
  have hparts : ∀ x ∈ leaves, x.parts = [] := by simp [leaves, text, parts]
  exact Expr.forall_occursIn h (by simp [hparts x hx])

theorem forall_occursIn_step {p : Expr → Prop} (hleaves : ∀ x ∈ leaves, p x) (hstep : p step) :
    ∀ y : Expr, y.OccursIn step → p y := by
  refine Expr.forall_occursIn hstep fun x hx => ?_
  have hx : x ∈ leaves := by
    simp only [step, join, parts, mem_present] at hx
    simp only [leaves]
    grind
  exact forall_occursIn_leaf hx (hleaves x hx)

/-- What holds of all nodes holds all over a fold that joins texts. -/
theorem forall_occursIn_joined {p : Expr → Prop} (hleaves : ∀ x ∈ leaves, p x) (hstep : p step)
    (hfold : p (joined seeds folded elements)) (hparts : ∀ x ∈ seeds ++ elements, x ∈ leaves) :
    ∀ x : Expr, x.OccursIn (joined seeds folded elements) → p x := by
  refine Expr.forall_occursIn hfold fun x hx => ?_
  obtain hx | rfl : x ∈ leaves ∨ x = step := by
    have hx : x = text "" ∨ x = step ∨ x ∈ seeds ++ elements := by
      simpa [joined, step, parts, FoldDef.parts, FoldDef.inits, FoldDef.steps, mem_present]
        using hx
    rcases hx with rfl | rfl | hx
    · exact .inl (by simp [leaves])
    · exact .inr rfl
    · exact .inl (hparts x hx)
  · exact forall_occursIn_leaf hx (hleaves x hx)
  · exact forall_occursIn_step hleaves hstep

theorem regular_cell (a : Address) : (Expr.cell a).Regular where
  positions fn args t hx := by
    have hcall : ∀ x : Expr, x.OccursIn (.cell a) → ∀ fn args t, x ≠ .call fn args t :=
      Expr.forall_occursIn (by simp) (by simp [parts])
    exact absurd rfl (hcall _ hx fn args t)
  sizes := Expr.forall_occursIn (by simp [Expr.flatten]) (by simp [parts])

theorem regular_prefixed : prefixed.Regular where
  positions fn args t hx := by
    have hcall := forall_occursIn_joined (p := fun x => ∀ fn args t, x ≠ .call fn args t)
      (by simp [leaves, text]) (by simp [step, join]) (by simp [joined]) (by simp [leaves]) _ hx
    exact absurd rfl (hcall fn args t)
  sizes := forall_occursIn_joined (by decide) (by decide) (by decide) (by simp [leaves])

theorem shallow_prefixedLeft : (bookWith []).Shallow prefixedLeft where
  probes := by
    refine forall_occursIn_joined (by simp [leaves, text, Expr.probes]) ?_ ?_ (by simp [leaves])
    · simp [step, join, Expr.probes]
    · intro x hx
      obtain rfl | rfl : x = text "ab" ∨ x = step := by
        simpa [joined, step, Expr.probes, FoldDef.start, FoldDef.steps, mem_present] using hx
      · exact forall_occursIn_leaf (by simp [leaves]) rfl
      · exact forall_occursIn_step (by decide) rfl
  formulas a f _ hf := by
    obtain ⟨cell, hcell, _, hformula⟩ := Workbook.exists_cell_of_formula hf
    obtain rfl : cell = input := by simpa [bookWith] using hcell
    cases hformula

end KeptExample

open Sample KeptExample in
/-- A fold that is done in part is left as it is. -/
theorem optimize_residual_joined :
    (∃ s', (optimizer true).optimize (bookWith []) (some prefixed) none .initial =
      .ok (.residual prefixedLeft) s' ∧ s'.stats.partialFolds = 1) ∧
    ∃ t, (optimizer true).optimize (bookWith []) (some prefixedLeft) none
        ((optimizer true).session (bookWith []) [.formula (some prefixed) none]) =
      .ok (.residual prefixedLeft) t ∧ t.stats.partialFolds = 1 := by
  obtain ⟨s', hs', hcount⟩ : ∃ s', (optimizer true).optimize (bookWith []) (some prefixed) none
      ((optimizer true).session (bookWith []) []) = .ok (.residual prefixedLeft) s' ∧
        s'.stats.partialFolds = 1 := ⟨_, rfl, rfl⟩
  obtain ⟨t, ht, hquiet⟩ := optimize_residual (optimizer true) (acyclic_bookWith (by simp))
    (Workbook.sorted_of_cells (by decide)) (by decide) regular_prefixed hs' [.formula _ none]
  exact ⟨⟨s', hs', hcount⟩, t, ht, (hquiet shallow_prefixedLeft).trans rfl⟩

open Sample KeptExample in
/-- **A formula that is done in part is done in part again when a reference to its cell is folded
again.** -/
theorem optimize_residual_begun : (bookWith [begun]).Acyclic ∧ (bookWith [begun]).Sorted false ∧
    (Expr.cell (cellAt 2)).isSorted false .scalar = true ∧ (Expr.cell (cellAt 2)).Regular ∧
    ∃ s' t, (optimizer true).optimize (bookWith [begun]) (some (.cell (cellAt 2))) none .initial =
        .ok (.residual (.cell (cellAt 2))) s' ∧
      (optimizer true).optimize (bookWith [begun]) (some (.cell (cellAt 2))) none s' =
        .ok (.residual (.cell (cellAt 2))) t ∧
      s'.stats.partialFolds = 1 ∧ t.stats.partialFolds = 2 := by
  exact ⟨acyclic_bookWith (by simp), Workbook.sorted_of_cells (by decide), by decide,
    regular_cell _, _, _, rfl, rfl, rfl, rfl⟩

end FormulaFold
