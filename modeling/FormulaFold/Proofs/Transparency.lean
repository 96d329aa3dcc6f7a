import FormulaFold.Proofs.Conflicts
import FormulaFold.Proofs.Abreast

/-! # Memory is transparent

On a workbook without cycles, what is remembered of a cell is what its formula is found to be when
nothing is remembered yet (`Optimizer.Finds`).  A memory of which this holds answers as a walk
would, so two walks of one formula go the same way whatever they remember (`abreast_walkDeep`).
Calls only ever build up such memories.  **So no call depends on the calls before it**
(`answer_session`): neither on their order nor on whether they failed.

The induction is on the rank of the cells that a formula mentions.  It also shows that cells which
are being walked are never met again, and that the bound on the depth is never reached.
-/
namespace FormulaFold

open Walk

variable {e : Expr} {s : WalkState}

namespace Optimizer

variable (opt : Optimizer) (book : Workbook)

/-- The constant that is remembered of a cell without a formula. -/
def literalConstant (a : Address) : Constant :=
  ⟨((opt.site book none).literalOf a).value, ((opt.site book none).literalOf a).type book.cellType⟩

/-- Whether a constant is the value of a cell: its literal value, or what its formula is found to
be when nothing is remembered. -/
def Finds (a : Address) (c : Constant) : Prop :=
  match (book.get a).formula with
  | none => c = opt.literalConstant book a
  | some f => ∃ s, opt.walkDeep book book.cells.length (some a) f .initial =
      .ok (.known c.value c.type) s

/-- Whether a state remembers nothing but values of cells and marks no cell that ranks below `r`.
-/
structure Reliable (r : Nat) (s : WalkState) : Prop where
  memo : ∀ a c, s.memo.find? a = some c → opt.Finds book a c
  active : ∀ a ∈ s.active, r ≤ book.rank a

/-- Two reliable states with the same names bound. -/
structure Twins (r : Nat) (s t : WalkState) : Prop where
  bindings : t.bindings = s.bindings
  left : opt.Reliable book r s
  right : opt.Reliable book r t

variable {opt book} {t : WalkState}

theorem reliable_initial (r : Nat) : opt.Reliable book r .initial where
  memo _ _ h := by cases h
  active _ h := by cases h

theorem Reliable.of_core (hs : opt.Reliable book r s) (hmemo : t.memo = s.memo)
    (hactive : t.active = s.active) : opt.Reliable book r t where
  memo a c hc := hs.memo a c (hmemo ▸ hc)
  active a ha := hs.active a (hactive ▸ ha)

theorem Reliable.mark (hs : opt.Reliable book r s) (ha : book.rank a ≤ r) :
    opt.Reliable book (book.rank a) (s.mark a) := by
  refine ⟨hs.memo, fun c hc => ?_⟩
  rcases mem_cons.mp hc with rfl | hc
  · exact Nat.le_refl _
  · exact Nat.le_trans ha (hs.active c hc)

theorem Reliable.unmark (hs : opt.Reliable book r s) : opt.Reliable book r (s.unmark a) :=
  ⟨hs.memo, fun c hc => hs.active c (List.mem_of_mem_filter hc)⟩

theorem Reliable.of_grows (hs : opt.Reliable book r s) {E : Memo → Prop} (hst : s.Grows book E t)
    (ht : opt.Reliable book k t) : opt.Reliable book r t :=
  ⟨ht.memo, fun c hc => hs.active c (hst.active ▸ hc)⟩

theorem couples_twins (c c' : Bool) (r : Nat) : Couples c c' (opt.Twins book r) where
  bindings _ _ h := h.bindings
  change hf _ _ h := by
    cases hf with
    | bindings => exact ⟨rfl, h.left.of_core rfl rfl, h.right.of_core rfl rfl⟩
    | _ => exact ⟨h.bindings, h.left.of_core rfl rfl, h.right.of_core rfl rfl⟩
  foldInPart _ _ _ h := by
    cases c <;> cases c' <;>
      exact ⟨h.bindings, h.left.of_core rfl rfl, h.right.of_core rfl rfl⟩

theorem finds_iff_of_literal (hformula : (book.get a).formula = none) :
    opt.Finds book a c ↔ c = opt.literalConstant book a := by
  rw [Finds, hformula]

theorem finds_iff_of_formula (hformula : (book.get a).formula = some f) : opt.Finds book a c ↔ ∃ s,
      opt.walkDeep book book.cells.length (some a) f .initial =
        .ok (.known c.value c.type) s := by
  rw [Finds, hformula]

/-- A cell has one value. -/
theorem Finds.unique (h : opt.Finds book a c) (h' : opt.Finds book a c') :
    c' = c := by
  cases hformula : (book.get a).formula with
  | none =>
    rw [finds_iff_of_literal hformula] at h h'
    rw [h, h']
  | some f =>
    obtain ⟨s, hs⟩ := (finds_iff_of_formula hformula).mp h
    obtain ⟨s', hs'⟩ := (finds_iff_of_formula hformula).mp h'
    obtain ⟨v, t⟩ := c
    obtain ⟨v', t'⟩ := c'
    rw [hs] at hs'
    cases hs'
    rfl

/-- Remembering the value of a cell succeeds and keeps the state reliable. -/
theorem Reliable.remember (hs : opt.Reliable book r s) {v : Value} {t : DataType}
    (hfinds : opt.Finds book a ⟨v, t⟩) :
    ∃ s', FormulaFold.remember a v t s = .ok () s' ∧ opt.Reliable book r s' ∧
      s'.bindings = s.bindings := by
  have hlearn : opt.Reliable book r (s.learn a ⟨v, t⟩) := by
    refine ⟨fun c k hk => ?_, hs.active⟩
    by_cases hc : c = a
    · subst hc
      rw [WalkState.learn, Memo.find?_set_self] at hk
      cases hk
      exact hfinds
    · rw [WalkState.learn, Memo.find?_set_of_ne _ _ hc] at hk
      exact hs.memo c k hk
  refine ⟨_, ?_, hlearn, rfl⟩
  cases hc : s.memo.find? a with
  | none => exact remember_none v t hc
  | some c =>
    cases (hs.memo a c hc).unique hfinds
    rw [remember_some v t hc, if_neg (not_not.mpr rfl)]

end Optimizer

/-- The outcome of a reference to a cell, from that of its formula. -/
def Outcome.asReference (a : Address) : Outcome → Outcome
  | known v t => known v t
  | residual _ => residual (.cell a)

theorem dynamic_cell (site : Site) (a : Address) :
    site.dynamic (.cell a) = pure (.residual (.cell a)) := by
  simp [Site.dynamic, Workbook.typeOf?, Expr.type?, ofExpr]

section Cells

variable {opt : Optimizer} {book : Workbook}

/-- From a reliable state, a reference to a cell without a formula comes to its literal value. -/
theorem cellForm_of_literal (hinput : (book.get a).input = false)
    (hformula : (book.get a).formula = none) (hs : opt.Reliable book r s) (n : Nat)
    (origin : Option Address) : ∃ s', cellForm (opt.site book origin) (opt.enter book n) a s =
        .ok ((opt.site book none).literalOf a) s' ∧ opt.Reliable book r s' ∧
      s'.bindings = s.bindings := by
  have hconst : Outcome.constant (opt.literalConstant book a).value
      (opt.literalConstant book a).type = (opt.site book none).literalOf a := by
    unfold Optimizer.literalConstant Site.literalOf
    split
    · rfl
    · exact (typed_constant _ _).constant_eq
  cases hc : s.memo.find? a with
  | some c =>
    obtain rfl := (Optimizer.finds_iff_of_literal hformula).mp (hs.memo a c hc)
    refine ⟨{ s with stats := { s.stats with cacheHits := s.stats.cacheHits + 1 } }, ?_,
      hs.of_core rfl rfl, rfl⟩
    rw [cellForm_remembered hinput hc, hconst]
    rfl
  | none =>
    obtain ⟨s', hs', hreliable, hb⟩ :=
      hs.remember ((Optimizer.finds_iff_of_literal hformula).mpr rfl)
    refine ⟨s', ?_, hreliable, hb⟩
    rw [cellForm_literal hinput hformula hc, bind_apply]
    simp only [show remember a ((opt.site book origin).literalOf a).value
      (((opt.site book origin).literalOf a).type (opt.site book origin).book.cellType) s =
        .ok () s' from hs']
    rfl

theorem marking_isolated_apply (a : Address) (x : Action) (s : WalkState) :
    marking a (isolated x) s = match x (under .empty (s.mark a)) with
      | .ok o s' => .ok o ((under s.bindings s').unmark a)
      | .error e s' => .error e ((under s.bindings s').unmark a) := by
  rw [marking_apply, isolated_apply, within]
  cases x (under .empty (s.mark a)) <;> rfl

/-- From a reliable state, a reference to a cell with a formula comes to what the formula is found
to be when nothing is remembered. -/
theorem matches_cellForm (hinput : (book.get a).input = false)
    (hformula : (book.get a).formula = some f) (hrank : book.rank a < r) (hn : r ≤ n)
    (hwalk : ∀ m, book.rank a ≤ m → Abreast (opt.Twins book (book.rank a))
      (Outcome.Like Expr.Same) (opt.walkDeep book book.cells.length (some a) f)
      (opt.walkDeep book m (some a) f))
    (hs : opt.Reliable book r s) (origin : Option Address) :
    Matches (fun _ s' => opt.Reliable book r s' ∧ s'.bindings = s.bindings)
      (fun o o' => o' = o.asReference a)
      (opt.walkDeep book book.cells.length (some a) f .initial)
      (cellForm (opt.site book origin) (opt.enter book n) a s) := by
  cases hc : s.memo.find? a with
  | some c =>
    obtain ⟨k, hk⟩ := (Optimizer.finds_iff_of_formula hformula).mp (hs.memo a c hc)
    have htyped : (Outcome.known c.value c.type).Typed :=
      typed_of_gives _ f .empty (gives_of_ok hk)
    rw [cellForm_remembered hinput hc, htyped.constant_eq, hk]
    exact .ok rfl ⟨hs.of_core rfl rfl, rfl⟩
  | none =>
    have ha : a ∉ s.active := fun h => absurd (hs.active a h) (by omega)
    obtain ⟨m, rfl⟩ : ∃ m, n = m + 1 := ⟨n - 1, by omega⟩
    have hmatch := hwalk m (by omega) .initial (under .empty (s.mark a))
      ⟨rfl, Optimizer.reliable_initial _, (hs.mark (Nat.le_of_lt hrank)).of_core rfl rfl⟩
    have hframes : Frames book (Earned (fun _ => True) book) False .empty
        (opt.walkDeep book m (some a) f) := frames_walkDeep_open trivial m (some a) f .empty
    have hinner := frames_isolated (b := s.bindings) hframes (s.mark a) rfl
    have houter := framesAt_marking ha hinner
    rw [cellForm_enter hinput hformula hc ha, bind_apply]
    simp only [Optimizer.enter]
    unfold FramesAt at houter
    rw [marking_isolated_apply] at houter ⊢
    generalize hfound : opt.walkDeep book book.cells.length (some a) f .initial = found at hmatch ⊢
    generalize opt.walkDeep book m (some a) f (under .empty (s.mark a)) = run at hmatch houter ⊢
    cases hmatch with
    | error hst =>
      have hgrows := houter.1
      exact .error ⟨⟨hst.right.memo, fun c hc => hs.active c (hgrows.active ▸ hc)⟩, rfl⟩
    | @ok o o' k s' ho hst =>
      obtain rfl := Outcome.eq_of_like_same ho
      have hs' : opt.Reliable book r ((under s.bindings s').unmark a) :=
        ⟨hst.right.memo, fun c hc => hs.active c (houter.active ▸ hc)⟩
      cases o' with
      | residual e =>
        dsimp only
        rw [dynamic_cell]
        exact .ok rfl ⟨hs', rfl⟩
      | known v t =>
        obtain ⟨s'', hremember, hs'', hb⟩ :=
          hs'.remember ((Optimizer.finds_iff_of_formula hformula).mpr ⟨k, hfound⟩)
        dsimp only
        rw [bind_apply, hremember]
        exact .ok rfl ⟨hs'', hb⟩

/-- Two walks at a cell go the same way from reliable states. -/
theorem abreast_cellForm {n' : Nat} (origin : Option Address)
    (hrank : ∀ f, (book.get a).formula = some f → book.rank a < r) (hn : r ≤ n) (hn' : r ≤ n')
    (hwalk : ∀ f, (book.get a).formula = some f → ∀ m, book.rank a ≤ m →
      Abreast (opt.Twins book (book.rank a)) (Outcome.Like Expr.Same)
        (opt.walkDeep book book.cells.length (some a) f) (opt.walkDeep book m (some a) f)) :
    Abreast (opt.Twins book r) (Outcome.Like Expr.Same)
      (cellForm (opt.site book origin) (opt.enter book n) a)
      (cellForm (opt.site book origin) (opt.enter book n') a) := by
  intro s t hst
  have hQ := agreeable_same book
  cases hinput : (book.get a).input with
  | true =>
    rw [cellForm_input hinput, cellForm_input hinput]
    exact abreast_dynamic (Optimizer.couples_twins true true r) hQ (hQ.like_refl _) s t hst
  | false =>
    cases hformula : (book.get a).formula with
    | none =>
      obtain ⟨s', hs', hleft, hb⟩ := cellForm_of_literal hinput hformula hst.left n origin
      obtain ⟨t', ht', hright, hb'⟩ := cellForm_of_literal hinput hformula hst.right n' origin
      rw [hs', ht']
      exact .ok (hQ.outcome_refl _) ⟨by rw [hb', hb, hst.bindings], hleft, hright⟩
    | some f =>
      have hleft := matches_cellForm hinput hformula (hrank f hformula) hn (hwalk f hformula)
        hst.left origin
      have hright := matches_cellForm hinput hformula (hrank f hformula) hn' (hwalk f hformula)
        hst.right origin
      generalize opt.walkDeep book book.cells.length (some a) f .initial = found at hleft hright
      generalize cellForm (opt.site book origin) (opt.enter book n) a s = x at hleft ⊢
      generalize cellForm (opt.site book origin) (opt.enter book n') a t = y at hright ⊢
      cases hleft with
      | ok ho hs =>
        cases hright with
        | ok ho' ht =>
          rw [ho, ho']
          exact .ok (hQ.outcome_refl _) ⟨by rw [ht.2, hs.2, hst.bindings], hs.1, ht.1⟩
      | error hs =>
        cases hright with
        | error ht => exact .error ⟨by rw [ht.2, hs.2, hst.bindings], hs.1, ht.1⟩

end Cells

section Walks

variable {opt : Optimizer} {book : Workbook}

/-- **On a workbook without cycles, walks of one formula go the same way from all reliable
states.** -/
theorem abreast_walkDeep (opt : Optimizer) (hacyclic : book.Acyclic) (r : Nat) :
    ∀ (n n' : Nat) (origin : Option Address) (e : Expr),
      (∀ a f, e.Mentions a → (book.get a).formula = some f → book.rank a < r) → r ≤ n → r ≤ n' →
      Abreast (opt.Twins book r) (Outcome.Like Expr.Same) (opt.walkDeep book n origin e)
        (opt.walkDeep book n' origin e) := by
  induction r using Nat.strong_induction_on with
  | h r ih =>
  intro n n' origin e he hn hn'
  rw [opt.walkDeep_eq, opt.walkDeep_eq]
  have hblind : Blind (opt.site book origin) opt.partialFolds Expr.Same :=
    fun hp => absurd rfl hp
  refine abreast_walk (Optimizer.couples_twins _ _ r) (agreeable_same book) hblind e fun a ha => ?_
  refine abreast_cellForm origin (fun f hf => he a f ha hf) hn hn' fun f hf m hm => ?_
  exact ih (book.rank a) (he a f ha hf) _ _ (some a) f
    (fun c g hc hg => Workbook.rank_lt hacyclic ⟨f, hf, hc⟩ hg)
    (Nat.le_of_lt (Workbook.rank_lt_length hacyclic hf)) hm

/-! ## Calls -/

/-- What folding a formula gives has been walked and written. -/
theorem exists_balanced_of_optimize (h : opt.optimize book (some e) origin s = .ok o s') :
    (∃ t, isolated (opt.balanced book e origin) s = .ok o t) ∧
      ∃ text, book.render o.expr = some text := by
  rw [optimize_some, bind_apply] at h
  cases hbalanced : isolated (opt.balanced book e origin) s with
  | error f t =>
    rw [hbalanced] at h
    cases h
  | ok o' t =>
    rw [hbalanced] at h
    have h : (((opt.site book origin).written e >>= fun text =>
      (opt.site book origin).written o'.expr >>= fun result =>
        record (.optimized text o'.isKnown result) >>= fun _ => pure o') : Action) t =
          .ok o s' := h
    unfold Site.written at h
    split at h
    · split at h
      · next hresult =>
        cases h
        exact ⟨⟨t, rfl⟩, _, hresult⟩
      · cases h
    · cases h

/-- Folding a formula gives what its walk gives. -/
theorem exists_walk_of_optimize (h : opt.optimize book (some e) origin s = .ok o s') :
    ∃ t, opt.walkDeep book book.cells.length origin e (under .empty s) = .ok o t := by
  obtain ⟨⟨t, hbalanced⟩, _⟩ := exists_balanced_of_optimize h
  rw [isolated_apply] at hbalanced
  obtain ⟨t', ht', _⟩ := within_ok hbalanced
  unfold Optimizer.balanced at ht'
  rw [bind_apply] at ht'
  cases hwalk : opt.walkDeep book book.cells.length origin e (under .empty s) with
  | error f t =>
    rw [hwalk] at ht'
    cases ht'
  | ok o' t =>
    rw [hwalk] at ht'
    have ht' : (get >>= fun s => if s.bindings.depth ≠ 0
        then throw (.leftover (book.shown e) s.bindings.depth) else pure o' : Action) t =
          .ok o t' := ht'
    simp only [bind_apply, get_apply] at ht'
    split at ht'
    · cases ht'
    · cases ht'
      exact ⟨_, rfl⟩

theorem abreast_optimize (hacyclic : book.Acyclic) (origin : Option Address)
    (he : ∀ a f, e.Mentions a → (book.get a).formula = some f → book.rank a < r)
    (hr : r ≤ book.cells.length) :
    Abreast (opt.Twins book r) (· = ·) (opt.optimize book (some e) origin)
      (opt.optimize book (some e) origin) := by
  have hS : Couples true true (opt.Twins book r) := Optimizer.couples_twins _ _ r
  rw [optimize_some]
  have hbalanced : Abreast (opt.Twins book r) (· = ·) (opt.balanced book e origin)
      (opt.balanced book e origin) := by
    refine (abreast_walkDeep opt hacyclic r _ _ origin e he hr hr).bind fun o o' ho => ?_
    obtain rfl := Outcome.eq_of_like_same ho
    intro s t hst
    have hb := hst.bindings
    simp only [bind_apply, get_apply, hb]
    split
    · exact .error hst
    · exact .ok rfl hst
  refine (abreast_isolated hS hbalanced).bind fun o o' ho => ?_
  subst ho
  refine (abreast_written hS e).bind fun text _ htext => ?_
  refine (abreast_written hS o.expr).bind fun result _ hresult => ?_
  subst htext hresult
  exact Abreast.bind (fun s t hst => .ok trivial (hS.change (.event _) s t hst))
    fun (_ _ : Unit) (_ : True) => abreast_pure rfl

/-- Remembering the value that the formula of a cell was found to have. -/
theorem abreast_rememberKnown {a : Address} (ho : ∀ v t, o = .known v t → opt.Finds book a ⟨v, t⟩) :
    Abreast (opt.Twins book r) (· = ·) (rememberKnown a o) (rememberKnown a o) := by
  intro s t hst
  cases o with
  | residual e => exact .ok rfl hst
  | known v t' =>
    obtain ⟨s', hs', hleft, hb⟩ := hst.left.remember (ho v t' rfl)
    obtain ⟨t'', ht', hright, hb'⟩ := hst.right.remember (ho v t' rfl)
    simp only [rememberKnown, bind_apply, hs', ht']
    exact .ok rfl ⟨by rw [hb', hb, hst.bindings], hleft, hright⟩

theorem abreast_optimizeCell (hacyclic : book.Acyclic) (a : Address) :
    Abreast (opt.Twins book book.cells.length) (· = ·) (opt.optimizeCell book a)
      (opt.optimizeCell book a) := by
  have hrank (c : Address) (g : Expr) (hg : (book.get c).formula = some g) :=
    Workbook.rank_lt_length hacyclic hg
  intro s t hst
  cases hformula : (book.get a).formula with
  | none =>
    simp only [Optimizer.optimizeCell, hformula]
    exact abreast_optimize hacyclic none (fun c g _ hg => hrank c g hg) (Nat.le_refl _) s t hst
  | some f =>
    have hlow : ∀ c g, f.Mentions c → (book.get c).formula = some g → book.rank c < book.rank a :=
      fun c g hc hg => Workbook.rank_lt hacyclic ⟨f, hformula, hc⟩ hg
    have ha := hrank a f hformula
    have hunmarked {s : WalkState} (hs : opt.Reliable book book.cells.length s) : a ∉ s.active :=
      fun h => absurd (hs.active a h) (Nat.not_le_of_lt ha)
    have hframes (s : WalkState) :
        FramesAt book (Earned (fun _ => True) book) False (s.mark a)
          (opt.optimize book (some f) (some a)) :=
      frames_optimize trivial False.elim (some f) False.elim (some a) _ _ rfl
    have hleft := hframes s
    have hright := hframes t
    rw [optimizeCell_formula hformula (hunmarked hst.left),
      optimizeCell_formula hformula (hunmarked hst.right), bind_apply, bind_apply, marking_apply,
      marking_apply]
    have hmatch := abreast_optimize hacyclic (some a) hlow (Nat.le_of_lt ha) (s.mark a) (t.mark a)
      ⟨hst.bindings, hst.left.mark (Nat.le_of_lt ha), hst.right.mark (Nat.le_of_lt ha)⟩
    unfold FramesAt at hleft hright
    generalize hrun : opt.optimize book (some f) (some a) (s.mark a) = run at hmatch hleft ⊢
    generalize opt.optimize book (some f) (some a) (t.mark a) = run' at hmatch hright ⊢
    cases hmatch with
    | error hst' =>
      exact .error ⟨hst'.bindings,
        hst.left.of_grows (growth_unmark (hunmarked hst.left) hleft.1) hst'.left.unmark,
        hst.right.of_grows (growth_unmark (hunmarked hst.right) hright.1) hst'.right.unmark⟩
    | @ok o _ s' t' ho hst' =>
      subst ho
      refine abreast_rememberKnown (fun v t hknown => ?_) _ _ ⟨hst'.bindings,
        hst.left.of_grows (growth_unmark (hunmarked hst.left) hleft) hst'.left.unmark,
        hst.right.of_grows (growth_unmark (hunmarked hst.right) hright) hst'.right.unmark⟩
      -- The formula would have been found to have the same value from the start.
      obtain ⟨k, hk⟩ := exists_walk_of_optimize hrun
      have hfirst := abreast_walkDeep opt hacyclic _ _ _ (some a) f hlow (Nat.le_of_lt ha)
        (Nat.le_of_lt ha) .initial (under .empty (s.mark a)) ⟨rfl, Optimizer.reliable_initial _,
          (hst.left.mark (Nat.le_of_lt ha)).of_core rfl rfl⟩
      rw [hk, hknown] at hfirst
      generalize hfound : opt.walkDeep book book.cells.length (some a) f .initial = found at hfirst
      cases hfirst with
      | ok ho _ =>
        rw [← Outcome.eq_of_like_same ho] at hfound
        exact (Optimizer.finds_iff_of_formula hformula).mpr ⟨_, hfound⟩

theorem abreast_perform (hacyclic : book.Acyclic) (call : Optimizer.Call) :
    Abreast (opt.Twins book book.cells.length) (· = ·) (opt.perform book call)
      (opt.perform book call) := by
  cases call with
  | formula e origin =>
    cases e with
    | none => exact abreast_throw _
    | some e =>
      exact abreast_optimize hacyclic origin
        (fun a f _ hf => Workbook.rank_lt_length hacyclic hf) (Nat.le_refl _)
  | cell a => exact abreast_optimizeCell hacyclic a

theorem Walk.Abreast.final {α α' : Type} {S : WalkState → WalkState → Prop} {R : α → α' → Prop}
    {x : Walk α} {x' : Walk α'} (h : Abreast S R x x') {t : WalkState} (hst : S s t) :
    S (x.final s) (x'.final t) := by
  have hmatch := h s t hst
  unfold Walk.final
  generalize x s = r at hmatch ⊢
  generalize x' t = r' at hmatch ⊢
  cases hmatch with
  | ok _ hst => exact hst
  | error hst => exact hst

/-- Calls made one after the other leave a state that is as good as the first one. -/
theorem twins_session (opt : Optimizer) (hacyclic : book.Acyclic) (calls : List Optimizer.Call) :
    opt.Twins book book.cells.length (opt.session book calls) .initial := by
  have hrun (s : WalkState) (hearned : Earned (· = opt) book s.memo)
      (hs : opt.Twins book book.cells.length s .initial) :
      opt.Twins book book.cells.length
        (calls.foldl (fun s call => (opt.perform book call).final s) s) .initial := by
    induction calls generalizing s with
    | nil => exact hs
    | cons call rest ih =>
      have hgrows := (framesAt_perform hearned call).final
      have hnext := (abreast_perform hacyclic call).final
        (⟨rfl, hs.left, hs.left⟩ : opt.Twins book book.cells.length s s)
      exact ih _ (hgrows.earned hearned)
        ⟨hs.bindings.trans hgrows.bindings.symm, hnext.left, hs.right⟩
  exact hrun .initial .empty ⟨rfl, Optimizer.reliable_initial _, Optimizer.reliable_initial _⟩

end Walks

/-- What an action answers, apart from the state it leaves. -/
def Walk.answer {α : Type} (x : Walk α) (s : WalkState) : Except Fault α :=
  match x s with
  | .ok a _ => .ok a
  | .error f _ => .error f

/-- **Memory is transparent.**  On a workbook without cycles every call answers what it would have
answered as the first one: the same known value with the same data type, the same formula, or the
same fault; so the order of the calls does not matter. -/
theorem answer_session (opt : Optimizer) {book : Workbook} (hacyclic : book.Acyclic)
    (calls : List Optimizer.Call) (call : Optimizer.Call) :
    (opt.perform book call).answer (opt.session book calls) =
      (opt.perform book call).answer .initial := by
  have hmatch := abreast_perform hacyclic call _ _ (twins_session opt hacyclic calls)
  unfold Walk.answer
  generalize opt.perform book call (opt.session book calls) = r at hmatch ⊢
  generalize opt.perform book call .initial = r' at hmatch ⊢
  cases hmatch with
  | ok ho _ => rw [ho]
  | error _ => rfl

namespace ChainExample

open Sample

/-- A formula that chooses the first cell. -/
def choice : Expr :=
  .call "IF" [some (.cell (cellAt 1)), some (.cell (cellAt 1)), some (.cell (cellAt 3))] .unknown

/-- A truth value, the choice of it, and a formula with a name that nothing binds. -/
def book : Workbook :=
  ⟨[formulaAt 1 (truth true), formulaAt 2 choice, formulaAt 3 (.letVar "x" .unknown)], []⟩

theorem acyclic_book : book.Acyclic := by
  refine book.acyclic_of_lt (fun a => if a = cellAt 2 then 1 else 0) ?_
  rintro a c ⟨f, hf, hc⟩
  obtain ⟨cell, hcell, rfl, hformula⟩ := Workbook.exists_cell_of_formula hf
  obtain rfl | rfl | rfl : cell = formulaAt 1 (truth true) ∨ cell = formulaAt 2 choice ∨
      cell = formulaAt 3 (.letVar "x" .unknown) := by
    simpa [book] using hcell
  · cases hformula
    simp [truth] at hc
  · cases hformula
    rw [choice, Expr.mentions_iff_of_ne (by simp)] at hc
    obtain rfl | rfl : cellAt 1 = c ∨ cellAt 3 = c := by simpa [parts, present] using hc
    · decide
    · decide
  · cases hformula
    simp at hc

end ChainExample

open Sample ChainExample in
/-- A call that failed before and a cell that is remembered make no difference. -/
theorem answer_session_chain : book.Acyclic ∧
    ((optimizer true).perform book (.cell (cellAt 2))).answer
      ((optimizer true).session book [.cell (cellAt 3), .cell (cellAt 1)]) =
        .ok (.known (.bool true) .numeric) ∧
    ((optimizer true).perform book (.cell (cellAt 2))).answer .initial =
      .ok (.known (.bool true) .numeric) := by
  have hfirst : ((optimizer true).perform book (.cell (cellAt 2))).answer .initial =
      .ok (.known (.bool true) .numeric) := rfl
  exact ⟨acyclic_book, (answer_session (optimizer true) acyclic_book _ _).trans hfirst, hfirst⟩

end FormulaFold
