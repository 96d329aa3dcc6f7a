import FormulaFold.Proofs.Restored
import FormulaFold.Proofs.Surroundings
import FormulaFold.Proofs.Transparency

/-! # Termination

Walks and runs go through the formulas of cells, so the size of a formula does not bound them.  What
bounds them is that a cell is marked while its formula is walked or run, and a marked cell is not
entered: no chain of entries is longer than the number of cells.

`Optimizer.walkAlong` and `Evaluator.runAlong` make this bound visible.  They recurse on the cells
that are not on the chain of entries, and stop at a cell that is on it.  **Walks and runs at any
depth from the number of cells on are these, and never stop so** (`terminates`).  On a workbook
without cycles the marks are not needed for it: no reference ever finds its cell marked.
-/
namespace FormulaFold

open Walk

variable {a : Address} {ev : Evaluator} {acyclic : Prop} {f : RunFault}

/-! ## Chains of entries -/

namespace Workbook

variable (book : Workbook)

/-- The number of cells that are not on a chain. -/
def unentered (chain : List Address) : Nat :=
  ((book.cells.map (·.address)).filter fun a => !chain.contains a).length

/-- Whether a cell of the workbook can be entered at the end of a chain. -/
def CanEnter (chain : List Address) (a : Address) : Prop :=
  a ∈ book.cells.map (·.address) ∧ a ∉ chain

instance (chain : List Address) (a : Address) : Decidable (book.CanEnter chain a) :=
  inferInstanceAs (Decidable (_ ∧ _))

theorem unentered_nil : book.unentered [] = book.cells.length := by
  simp [unentered]

variable {book}

theorem CanEnter.unentered_lt (h : book.CanEnter chain a) :
    book.unentered (a :: chain) < book.unentered chain := by
  unfold unentered
  have hsub : (book.cells.map (·.address)).filter (fun c => !(a :: chain).contains c) =
      ((book.cells.map (·.address)).filter fun c => !chain.contains c).filter (· ≠ a) := by
    rw [List.filter_filter]
    congr 1
    funext c
    simp [Bool.not_or]
  rw [hsub]
  refine List.length_filter_lt_length_iff_exists.mpr ⟨a, ?_, by simp⟩
  simpa [CanEnter, List.mem_filter] using h

end Workbook

/-- Taking the mark off a cell that was marked last. -/
theorem filter_ne_cons_self {marks : List Address} (ha : a ∉ marks) :
    (a :: marks).filter (· ≠ a) = marks := by
  rw [List.filter_cons_of_neg (by simp)]
  refine filter_eq_self.mpr fun c hc => decide_eq_true ?_
  rintro rfl
  exact ha hc

/-- Run `x` as if no cell was marked. -/
def Walk.unmarked {α : Type} (x : Walk α) : Walk α := fun s =>
  ensuring x (fun s' => { s' with active := s.active }) { s with active := [] }

/-- The walk of a formula that enters a cell at most once along a chain; `inside` is done to the
walks of the formulas that it enters. -/
def Optimizer.walkAlong (opt : Optimizer) (book : Workbook) (inside : Action → Action)
    (chain : List Address) (origin : Option Address) (e : Expr) : Action :=
  e.walk (opt.site book origin) fun a formula =>
    if _h : book.CanEnter chain a then
      inside (opt.walkAlong book inside (a :: chain) (some a) formula)
    else throw .tooDeep
termination_by book.unentered chain
decreasing_by exact _h.unentered_lt

/-- The run of a formula that enters a cell at most once along a chain. -/
def Evaluator.runAlong (ev : Evaluator) (chain : List Address) (e : Expr) : Evaluation :=
  e.evaluation ev fun a formula =>
    if _h : ev.book.CanEnter chain a then ev.runAlong (a :: chain) formula
    else fun _ => throw .tooDeep
termination_by ev.book.unentered chain
decreasing_by exact _h.unentered_lt

/-! ## Walks -/

namespace Walk

variable {α β : Type} {M B : List Address}

/-- Mark other cells at the end of an action. -/
def remark (B : List Address) : EStateM.Result Fault WalkState α → EStateM.Result Fault WalkState α
  | .ok a s => .ok a { s with active := B }
  | .error f s => .error f { s with active := B }

/-- Whether `y` does with the marks `B` what `x` does with the marks `M`.  Neither changes the
marks, and neither stops because too many formulas were entered. -/
def Mirrors (M B : List Address) (x y : Walk α) : Prop :=
  ∀ s, s.active = M → y { s with active := B } = remark B (x s) ∧
    match x s with
    | .ok _ s' => s'.active = M
    | .error f s' => s'.active = M ∧ f ≠ .tooDeep

theorem Mirrors.bind {k l : α → Walk β} (hx : Mirrors M B x y) (hk : ∀ a, Mirrors M B (k a) (l a)) :
    Mirrors M B (x >>= k) (y >>= l) := by
  intro s hs
  obtain ⟨hy, hmarks⟩ := hx s hs
  rw [bind_apply, bind_apply, hy]
  cases h : x s with
  | ok a s' =>
    rw [h] at hmarks
    exact hk a s' hmarks
  | error f s' =>
    rw [h] at hmarks
    exact ⟨rfl, hmarks⟩

theorem mirrors_pure (a : α) : Mirrors M B (pure a : Walk α) (pure a) := fun _ hs => ⟨rfl, hs⟩

theorem mirrors_throw {f : Fault} (hf : f ≠ .tooDeep) : Mirrors M B (throw f : Walk α) (throw f) :=
  fun _ hs => ⟨rfl, hs, hf⟩

/-- States that differ in their marks. -/
def Marked (M B : List Address) (s t : WalkState) : Prop :=
  s.active = M ∧ t = { s with active := B }

theorem couples_marked (c : Bool) (M B : List Address) : Couples c c (Marked M B) where
  bindings _ _ h := by rw [h.2]
  change hf _ _ h := by
    obtain ⟨hs, rfl⟩ := h
    cases hf <;> exact ⟨hs, rfl⟩
  foldInPart _ _ _ h := by
    obtain ⟨hs, rfl⟩ := h
    cases c <;> exact ⟨hs, rfl⟩

/-- All that forms do is mirrored. -/
def mirroring (engine : Engine) (c : Bool) (M B : List Address) : Congruence engine c c :=
  (couples_marked c M B).congruence (F := (· ≠ .tooDeep)) fun hf => by
    rintro rfl
    exact hf

section Rel

variable {R : α → α → Prop}

theorem Mirrors.rel (hx : Mirrors M B x y) (hR : ∀ a, R a a) :
    (mirroring engine c M B).Rel R x y := by
  refine ⟨fun s t hst => ?_, fun s t hst f s' h => ?_⟩
  all_goals
    obtain ⟨hs, rfl⟩ := hst
    obtain ⟨hy, hmarks⟩ := hx s hs
  · rw [hy]
    cases h : x s with
    | ok a s' =>
      rw [h] at hmarks
      exact .ok (hR a) ⟨hmarks, rfl⟩
    | error f s' =>
      rw [h] at hmarks
      exact .error ⟨hmarks.1, rfl⟩
  · rw [h] at hmarks
    exact hmarks.2

theorem mirrors_of_rel (h : (mirroring engine c M B).Rel R x y) (hR : ∀ a b, R a b → b = a) :
    Mirrors M B x y := by
  intro s hs
  have hst : Marked M B s { s with active := B } := ⟨hs, rfl⟩
  have hmatch := h.1 s _ hst
  have hheeds := h.2 s _ hst
  generalize x s = r at hmatch hheeds ⊢
  generalize y { s with active := B } = r' at hmatch ⊢
  cases hmatch with
  | ok ha hst =>
    obtain ⟨hs, rfl⟩ := hst
    cases hR _ _ ha
    exact ⟨rfl, hs⟩
  | error hst =>
    obtain ⟨hs, rfl⟩ := hst
    exact ⟨rfl, hs, hheeds _ _ rfl⟩

end Rel

theorem mirrors_dynamic (site : Site) (e : Expr) :
    Mirrors M B (site.dynamic e) (site.dynamic e) :=
  mirrors_of_rel ((mirroring site.engine true M B).dynamic (agreeable_same site.book)
    ((agreeable_same site.book).like_refl e)) fun _ _ => Outcome.eq_of_like_same

/-- Walking with the names of before hidden is mirrored. -/
theorem Mirrors.isolated (hx : Mirrors M B x y) : Mirrors M B (isolated x) (isolated y) := by
  intro s hs
  rw [isolated_apply, isolated_apply]
  obtain ⟨hy, hmarks⟩ := hx (under .empty s) hs
  have hy : y (under .empty { s with active := B }) = remark B (x (under .empty s)) := hy
  unfold within
  rw [hy]
  cases h : x (under .empty s) with
  | ok a s' =>
    rw [h] at hmarks
    exact ⟨rfl, hmarks⟩
  | error f s' =>
    rw [h] at hmarks
    exact ⟨rfl, hmarks⟩

/-- Walking a marked cell is mirrored if the cell was not marked on either side. -/
theorem Mirrors.marking (ha : a ∉ M) (hb : a ∉ B) (hx : Mirrors (a :: M) (a :: B) x y) :
    Mirrors M B (marking a x) (marking a y) := by
  intro s hs
  rw [marking_apply, marking_apply]
  obtain ⟨hy, hmarks⟩ := hx (s.mark a) (by rw [← hs]; rfl)
  have hy : y (WalkState.mark { s with active := B } a) = remark (a :: B) (x (s.mark a)) := hy
  rw [hy]
  cases h : x (s.mark a) with
  | ok r s' =>
    rw [h] at hmarks
    refine ⟨?_, ?_⟩
    · simp only [remark, WalkState.unmark, filter_ne_cons_self hb]
    · simp only [WalkState.unmark, hmarks, filter_ne_cons_self ha]
  | error f s' =>
    rw [h] at hmarks
    refine ⟨?_, ?_, hmarks.2⟩
    · simp only [remark, WalkState.unmark, filter_ne_cons_self hb]
    · simp only [WalkState.unmark, hmarks.1, filter_ne_cons_self ha]

/-- Hiding the marks is mirrored by not having them. -/
theorem Mirrors.unmarked (hx : Mirrors M [] x y) : Mirrors M B x (unmarked y) := by
  intro s hs
  obtain ⟨hy, hmarks⟩ := hx s hs
  refine ⟨?_, hmarks⟩
  unfold Walk.unmarked Walk.ensuring
  dsimp only
  rw [hy]
  cases x s <;> rfl

theorem mirrors_remember (a : Address) (v : Value) (t : DataType) :
    Mirrors M B (remember a v t) (remember a v t) := by
  intro s hs
  cases hc : s.memo.find? a with
  | none =>
    have hc' : ({ s with active := B } : WalkState).memo.find? a = none := hc
    rw [remember_none v t hc, remember_none v t hc']
    exact ⟨rfl, hs⟩
  | some c =>
    have hc' : ({ s with active := B } : WalkState).memo.find? a = some c := hc
    rw [remember_some v t hc, remember_some v t hc']
    by_cases hrender : c.value.render ≠ v.render
    · simp only [if_pos hrender]
      exact ⟨rfl, hs, by simp⟩
    · simp only [if_neg hrender]
      exact ⟨rfl, hs⟩

/-- A reference to a cell is mirrored if the cell is marked on both sides or on none, and then so is
what is done to enter it. -/
theorem mirrors_cellForm {enter enter' : Address → Expr → Action}
    (hmarked : a ∈ M ↔ a ∈ B) (henter : ∀ f, (site.book.get a).formula = some f → a ∉ M →
      Mirrors (a :: M) (a :: B) (enter a f) (enter' a f)) :
    Mirrors M B (cellForm site enter a) (cellForm site enter' a) := by
  have hdynamic : Mirrors M B (site.dynamic (.cell a)) (site.dynamic (.cell a)) :=
    mirrors_dynamic site _
  have hremember (v : Value) (t : DataType) (o : Outcome) :
      Mirrors M B (remember a v t >>= fun _ => (pure o : Action))
        (remember a v t >>= fun _ => pure o) :=
    (mirrors_remember a v t).bind fun _ => mirrors_pure o
  by_cases hinput : (site.book.get a).input = true
  · rw [cellForm_input hinput, cellForm_input hinput]
    exact hdynamic
  have hinput : (site.book.get a).input = false := by simpa using hinput
  intro s hs
  have hmemo : ({ s with active := B } : WalkState).memo = s.memo := rfl
  cases hc : s.memo.find? a with
  | some c =>
    rw [cellForm_remembered hinput hc, cellForm_remembered hinput (hmemo ▸ hc)]
    exact ⟨rfl, hs⟩
  | none =>
    cases hformula : (site.book.get a).formula with
    | none =>
      rw [cellForm_literal hinput hformula hc, cellForm_literal hinput hformula (hmemo ▸ hc)]
      exact hremember _ _ _ s hs
    | some f =>
      by_cases ha : a ∈ M
      · rw [cellForm_active hinput hformula hc (hs ▸ ha),
          cellForm_active hinput hformula (hmemo ▸ hc) (hmarked.mp ha)]
        exact hdynamic s hs
      · have hb : a ∉ B := fun hb => ha (hmarked.mpr hb)
        rw [cellForm_enter hinput hformula hc (hs ▸ ha),
          cellForm_enter hinput hformula (hmemo ▸ hc) hb]
        refine ((henter f hformula ha).isolated.marking ha hb).bind (fun o => ?_) s hs
        cases o with
        | known v t => exact hremember v t _
        | residual _ => exact hdynamic

/-- What is mirrored with the same marks is the same. -/
theorem Mirrors.apply_eq (hx : Mirrors s.active s.active x y) : x s = y s := by
  obtain ⟨hy, hmarks⟩ := hx s rfl
  refine Eq.trans ?_ hy.symm
  cases h : x s with
  | ok a s' =>
    rw [h] at hmarks
    simp only [remark, ← hmarks]
  | error f s' =>
    rw [h] at hmarks
    simp only [remark, ← hmarks.1]

end Walk

section Walks

variable {opt : Optimizer} {book : Workbook} {e : Expr}

/-- A walk is mirrored along a chain if entering the cells that can be entered is. -/
theorem mirrors_of_canEnter {inside : Action → Action} (hchain : chain ⊆ M)
    (hmarked : ∀ a, e.Mentions a → (a ∈ M ↔ a ∈ B))
    (henter : ∀ a f, e.Mentions a → (book.get a).formula = some f → book.CanEnter chain a →
      Mirrors (a :: M) (a :: B) (opt.enter book n a f)
        (inside (opt.walkAlong book inside (a :: chain) (some a) f))) :
    Mirrors M B (opt.walkDeep book n origin e) (opt.walkAlong book inside chain origin e) := by
  have hQ := agreeable_same book
  have hblind : Blind (opt.site book origin) opt.partialFolds Expr.Same := fun hp => absurd rfl hp
  rw [opt.walkDeep_eq, Optimizer.walkAlong]
  refine mirrors_of_rel ((mirroring opt.engine opt.partialFolds M B).walk hQ hblind e
    (fun _ _ _ => ⟨rfl, rfl⟩) fun a ha =>
    (mirrors_cellForm (hmarked a ha) fun f hf haM => ?_).rel hQ.outcome_refl)
    fun _ _ => Outcome.eq_of_like_same
  have hcan : book.CanEnter chain a := ⟨Workbook.mem_of_formula hf, fun h => haM (hchain h)⟩
  rw [dif_pos hcan]
  exact henter a f ha hf hcan

/-- A walk that may go deep enough enters no cell twice along a chain. -/
theorem mirrors_walkAlong (hn : book.unentered chain ≤ n) (hchain : chain ⊆ M) :
    Mirrors M M (opt.walkDeep book n origin e) (opt.walkAlong book id chain origin e) := by
  induction n generalizing chain M origin e with
  | zero =>
    refine mirrors_of_canEnter hchain (fun _ _ => Iff.rfl) fun a f _ _ hcan => ?_
    exact absurd hcan.unentered_lt (by omega)
  | succ n ih =>
    refine mirrors_of_canEnter hchain (fun _ _ => Iff.rfl) fun a f _ _ hcan => ?_
    have hlt := hcan.unentered_lt
    exact ih (by omega) (List.cons_subset_cons a hchain)

/-- On a workbook without cycles, a cell that a formula leads to does not lead back to where the
formula leads. -/
theorem Workbook.Acyclic.not_reaches (hacyclic : book.Acyclic) {f : Expr}
    (hM : ∀ c ∈ M, ¬book.Reaches e c) (ha : e.Mentions a) (hf : (book.get a).formula = some f) :
    ∀ c ∈ a :: M, ¬book.Reaches f c := by
  rintro c hc ⟨d, hd, hdc⟩
  have had : book.RefersTo a d := ⟨f, hf, hd⟩
  rcases mem_cons.mp hc with rfl | hc
  · exact hacyclic c (.head' had hdc)
  · exact hM c hc ⟨a, ha, .head had hdc⟩

/-- On a workbook without cycles, a walk that may go deep enough finds no cell marked that it refers
to. -/
theorem mirrors_walkAlong_unmarked (hacyclic : book.Acyclic) (hn : book.unentered chain ≤ n)
    (hchain : chain ⊆ M) (hM : ∀ a ∈ M, ¬book.Reaches e a) :
    Mirrors M [] (opt.walkDeep book n origin e)
      (opt.walkAlong book unmarked chain origin e) := by
  have hmarked {M : List Address} {e : Expr} (hM : ∀ a ∈ M, ¬book.Reaches e a) (a : Address)
      (ha : e.Mentions a) : a ∈ M ↔ a ∈ [] :=
    iff_of_false (fun h => hM a h ⟨a, ha, .refl⟩) not_mem_nil
  induction n generalizing chain M origin e with
  | zero =>
    refine mirrors_of_canEnter hchain (hmarked hM) fun a f _ _ hcan => ?_
    exact absurd hcan.unentered_lt (by omega)
  | succ n ih =>
    refine mirrors_of_canEnter hchain (hmarked hM) fun a f ha hf hcan => ?_
    have hlt := hcan.unentered_lt
    exact (ih (by omega) (List.cons_subset_cons a hchain) (hacyclic.not_reaches hM ha hf)).unmarked

/-! ## Calls -/

/-- A walk as deep as there are cells is mirrored by itself. -/
theorem mirrors_walkDeep (M : List Address) :
    Mirrors M M (opt.walkDeep book book.cells.length origin e)
      (opt.walkDeep book book.cells.length origin e) := by
  have hwalk {M : List Address} : Mirrors M M (opt.walkDeep book book.cells.length origin e)
      (opt.walkAlong book id [] origin e) :=
    mirrors_walkAlong book.unentered_nil.le (List.nil_subset _)
  have heq : opt.walkDeep book book.cells.length origin e = opt.walkAlong book id [] origin e :=
    funext fun _ => hwalk.apply_eq
  nth_rewrite 2 [heq]
  exact hwalk

theorem mirrors_optimize (M : List Address) (e : Option Expr) (origin : Option Address) :
    Mirrors M M (opt.optimize book e origin) (opt.optimize book e origin) := by
  cases e with
  | none => exact mirrors_throw (by simp)
  | some e =>
    have hwritten (e : Expr) : Mirrors M M ((opt.site book origin).written e)
        ((opt.site book origin).written e) :=
      mirrors_of_rel ((mirroring (opt.site book origin).engine true M M).written e)
        fun _ _ => Eq.symm
    have hbalanced : Mirrors M M (opt.balanced book e origin) (opt.balanced book e origin) := by
      have hcheck (o : Outcome) (left : Nat) : Mirrors M M
          (if left ≠ 0 then throw (.leftover (book.shown e) left) else pure o : Action)
          (if left ≠ 0 then throw (.leftover (book.shown e) left) else pure o) := by
        split
        · exact mirrors_throw (by simp)
        · exact mirrors_pure o
      exact (mirrors_walkDeep M).bind fun o s hs => hcheck o s.bindings.depth s hs
    rw [optimize_some]
    exact hbalanced.isolated.bind fun o => (hwritten e).bind fun _ =>
      (hwritten o.expr).bind fun _ =>
      Mirrors.bind (fun _ hs => ⟨rfl, hs⟩) fun _ => mirrors_pure o

/-- No call stops because too many formulas were entered. -/
theorem perform_ne_tooDeep (opt : Optimizer) (book : Workbook) (call : Optimizer.Call)
    (s s' : WalkState) : opt.perform book call s ≠ .error .tooDeep s' := by
  have hne {x : Action} {s : WalkState} (hx : Mirrors s.active s.active x x) :
      x s ≠ .error .tooDeep s' := by
    intro h
    have hmarks := (hx s rfl).2
    rw [h] at hmarks
    exact hmarks.2 rfl
  cases call with
  | formula e origin => exact hne (mirrors_optimize _ e origin)
  | cell a =>
    change opt.optimizeCell book a s ≠ _
    cases hformula : (book.get a).formula with
    | none =>
      simp only [Optimizer.optimizeCell, hformula]
      exact hne (mirrors_optimize _ _ _)
    | some f =>
      by_cases ha : a ∈ s.active
      · have hcontains : s.active.contains a = true := by simpa using ha
        simp only [Optimizer.optimizeCell, hformula, bind_apply, get_apply, hcontains, if_true]
        exact hne (mirrors_dynamic (opt.site book none) _)
      · rw [optimizeCell_formula hformula ha]
        refine hne (((mirrors_optimize _ _ _).marking ha ha).bind fun o => ?_)
        cases o with
        | residual e => exact mirrors_pure _
        | known v t => exact (mirrors_remember a v t).bind fun _ => mirrors_pure _

end Walks

/-! ## Runs -/

namespace Run

variable {α β : Type} {P : RunFault → Prop}

/-- Whether `y` does what `x` does while the cells `V` are being run, stopping at faults of the
given sort only. -/
def SameAt (V : List Address) (P : RunFault → Prop) (x y : Run α) : Prop :=
  y V = x V ∧ match x V with
    | .ok _ V' => V' = V
    | .error f V' => V' = V ∧ P f

/-- Being the same is respected by all that forms do. -/
def sameAt (V : List Address) (P : RunFault → Prop) (hP : ∀ f : RunFault, f.IsOwn False → P f) :
    Congruence False where
  Rel x y := SameAt V P x y
  pure _ := ⟨rfl, rfl⟩
  throw hf := ⟨rfl, rfl, hP _ hf⟩
  bind := by
    rintro α β x y k l ⟨hxy, hx⟩ hk
    unfold SameAt
    rw [bind_apply, bind_apply, hxy]
    cases h : x V with
    | ok a V' =>
      rw [h] at hx
      cases hx
      exact hk a
    | error f V' =>
      rw [h] at hx
      exact ⟨rfl, hx⟩

/-- Running a cell that was not being run before. -/
theorem SameAt.visiting (ha : a ∉ V) (h : SameAt (a :: V) P x y) :
    SameAt V P (visiting a x) (visiting a y) := by
  obtain ⟨hxy, hx⟩ := h
  unfold SameAt Run.visiting
  rw [hxy]
  cases h : x (a :: V) with
  | ok r V' =>
    rw [h] at hx
    cases hx
    exact ⟨rfl, filter_ne_cons_self ha⟩
  | error f V' =>
    rw [h] at hx
    obtain ⟨rfl, hf⟩ := hx
    exact ⟨rfl, filter_ne_cons_self ha, hf⟩

theorem sameAt_cellForm {ev : Evaluator} {enter enter' : Address → Expr → Evaluation} {a : Address}
    {env : Env} (hP : ∀ f : RunFault, f.IsOwn False → P f) (hcircular : a ∈ V → P (.circular a))
    (henter : ∀ f, (ev.book.get a).formula = some f → a ∉ V → ∀ env,
      SameAt (a :: V) P (enter a f env) (enter' a f env)) :
    SameAt V P (ev.cellForm enter a env) (ev.cellForm enter' a env) := by
  unfold SameAt
  rw [cellForm_apply, cellForm_apply]
  cases env.cell? a with
  | some v => exact ⟨rfl, rfl⟩
  | none =>
    cases (ev.book.get a).input with
    | true =>
      cases ev.inputs.cell? a with
      | some v => exact ⟨rfl, rfl⟩
      | none => exact ⟨rfl, rfl, hP _ trivial⟩
    | false =>
      cases hformula : (ev.book.get a).formula with
      | none => exact ⟨rfl, rfl⟩
      | some f =>
        by_cases ha : a ∈ V
        · have hcontains : V.contains a = true := by simpa using ha
          simp only [hcontains, if_true]
          exact ⟨trivial, rfl, hcircular ha⟩
        · have hcontains : V.contains a = false := by simpa using ha
          simp only [hcontains, false_eq_true, if_false]
          exact (henter f hformula ha _).visiting ha

end Run

section Runs

open Run

variable {e : Expr}

/-- The faults of runs that go deep enough; where that is promised, a cell that is being run is not
run into. -/
def RunFault.Ends (acyclic : Prop) (f : RunFault) : Prop :=
  f ≠ .tooDeep ∧ (acyclic → ∀ a, f ≠ .circular a)

theorem RunFault.ends_of_isOwn (hf : f.IsOwn False) : f.Ends acyclic := by
  refine ⟨?_, fun _ a => ?_⟩
  · rintro rfl
    cases hf
  · rintro rfl
    cases hf

/-- A run that may go deep enough enters no cell twice along a chain. -/
theorem sameAt_runAlong (hacyclic : acyclic → ev.book.Acyclic) (hn : ev.book.unentered chain ≤ n)
    (hchain : chain ⊆ V) (hV : acyclic → ∀ a ∈ V, ¬ev.book.Reaches e a) (env : Env) :
    SameAt V (RunFault.Ends acyclic) (ev.runDeep n e env) (ev.runAlong chain e env) := by
  have hstep {n : Nat} {chain V : List Address} {e : Expr} (hchain : chain ⊆ V)
      (hV : acyclic → ∀ a ∈ V, ¬ev.book.Reaches e a)
      (henter : ∀ a f, e.Mentions a → (ev.book.get a).formula = some f → ev.book.CanEnter chain a →
        ∀ env, SameAt (a :: V) (RunFault.Ends acyclic) (ev.enter n a f env)
          (ev.runAlong (a :: chain) f env)) (env : Env) :
      SameAt V (RunFault.Ends acyclic) (ev.runDeep n e env) (ev.runAlong chain e env) := by
    rw [ev.runDeep_eq, Evaluator.runAlong]
    refine (sameAt V _ fun _ => RunFault.ends_of_isOwn).evaluation e (fun a ha env => ?_) env
      (fun _ => true) False.elim False.elim
    refine sameAt_cellForm (fun _ => RunFault.ends_of_isOwn) (fun haV => ?_) fun f hf haV => ?_
    · exact ⟨by simp, fun h => absurd ⟨a, ha, .refl⟩ (hV h a haV)⟩
    · have hcan : ev.book.CanEnter chain a :=
        ⟨Workbook.mem_of_formula hf, fun h => haV (hchain h)⟩
      rw [dif_pos hcan]
      exact henter a f ha hf hcan
  induction n generalizing chain V e env with
  | zero =>
    refine hstep hchain hV (fun a f _ _ hcan => ?_) env
    exact absurd hcan.unentered_lt (by omega)
  | succ n ih =>
    refine hstep hchain hV (fun a f ha hf hcan env => ?_) env
    have hlt := hcan.unentered_lt
    exact ih (by omega) (List.cons_subset_cons a hchain)
      (fun h => (hacyclic h).not_reaches (hV h) ha hf) env

end Runs

theorem evaluate_ends (hacyclic : acyclic → ev.book.Acyclic) {visited visited' : List Address}
    (hvisited : acyclic → visited = []) {e : Option Expr} {origin : Option Address}
    (h : ev.evaluate e origin visited = .error f visited') : f.Ends acyclic := by
  cases e with
  | none => cases h
  | some e =>
    have hrun := sameAt_runAlong hacyclic ev.book.unentered_nil.le (List.nil_subset visited)
      (fun ha => by simp [hvisited ha]) (Env.start origin) (e := e)
    have hmap :=
      (Run.sameAt visited (RunFault.Ends acyclic) fun _ => RunFault.ends_of_isOwn).bind hrun
      fun y => Run.Congruence.pure _ y.single
    have heval : ev.evaluate (some e) origin =
      (ev.runDeep ev.book.cells.length e (.start origin) >>= fun y => pure y.single) := rfl
    rw [heval] at h
    have hends := hmap.2
    rw [h] at hends
    exact hends.2

/-- **Folding and evaluating terminate on every workbook**, with cycles or without.  Walks and runs
at any depth from the number of cells on are the ones by recursion on the cells that are not on the
chain of entries, which enter a cell at most once along a chain; and neither calls nor evaluations
stop because too many formulas were entered, from whatever state.

Without cycles the marks make no difference.  A walk from the states that calls start it in, where
nothing is marked but the cell whose formula is walked, is the one in which no mark is ever seen;
so no reference finds its cell marked.  And no evaluation runs into a cell that is being run. -/
theorem terminates (ev : Evaluator) (opt : Optimizer) :
    (∀ n, ev.book.cells.length ≤ n → ∀ origin e,
      opt.walkDeep ev.book n origin e = opt.walkAlong ev.book id [] origin e) ∧
    (∀ n, ev.book.cells.length ≤ n → ∀ e env, ev.runDeep n e env = ev.runAlong [] e env) ∧
    (∀ call s s', opt.perform ev.book call s ≠ .error .tooDeep s') ∧
    (∀ e origin visited visited', ev.evaluate e origin visited ≠ .error .tooDeep visited') ∧
    (∀ history, (WalkState.after ev.book history).active = []) ∧
    (ev.book.Acyclic →
      (∀ n, ev.book.cells.length ≤ n → ∀ origin e s,
        s.active = [] ∨ (∃ a, s.active = [a] ∧ (ev.book.get a).formula = some e) →
          opt.walkDeep ev.book n origin e s =
            unmarked (opt.walkAlong ev.book unmarked [] origin e) s) ∧
      ∀ e origin a visited', ev.evaluate e origin [] ≠ .error (.circular a) visited') := by
  refine ⟨fun n hn origin e => ?_, fun n hn e env => ?_, perform_ne_tooDeep opt ev.book,
    fun e origin visited visited' h => ?_, active_after ev.book, fun hacyclic => ⟨?_, ?_⟩⟩
  · rw [← ev.book.unentered_nil] at hn
    exact funext fun s => (mirrors_walkAlong hn (List.nil_subset _)).apply_eq
  · rw [← ev.book.unentered_nil] at hn
    exact funext fun visited =>
      (sameAt_runAlong False.elim hn (List.nil_subset visited) False.elim env).1.symm
  · exact (evaluate_ends False.elim False.elim h).1 rfl
  · intro n hn origin e s hs
    rw [← ev.book.unentered_nil] at hn
    have hM : ∀ c ∈ s.active, ¬ev.book.Reaches e c := by
      rcases hs with hs | ⟨a, hs, hformula⟩
      · simp [hs]
      · rw [hs]
        exact hacyclic.not_reaches (M := []) (by simp) (Expr.mentions_cell a) hformula
    exact (mirrors_walkAlong_unmarked hacyclic hn (List.nil_subset _) hM).unmarked.apply_eq
  · intro e origin a visited' h
    exact (evaluate_ends (fun _ : True => hacyclic) (fun _ => rfl) h).2 trivial a rfl

open Sample ChainExample in
/-- On the chain of cells the formula of the second cell is walked as if no cell was ever marked,
and evaluating the second cell does not run into a cell that is being run. -/
theorem terminates_chain : book.Acyclic ∧
    (∀ f, (book.get (cellAt 2)).formula = some f →
      (optimizer true).walkDeep book book.cells.length (some (cellAt 2)) f
        (WalkState.initial.mark (cellAt 2)) =
        unmarked ((optimizer true).walkAlong book unmarked [] (some (cellAt 2)) f)
          (WalkState.initial.mark (cellAt 2))) ∧
    ∀ a visited', (Evaluator.mk engine book ⟨[], []⟩).evaluate (some (.cell (cellAt 2))) none
      [] ≠ .error (.circular a) visited' := by
  obtain ⟨-, -, -, -, -, hacyclic⟩ := terminates ⟨engine, book, ⟨[], []⟩⟩ (optimizer true)
  obtain ⟨hwalk, hrun⟩ := hacyclic acyclic_book
  exact ⟨acyclic_book, fun f hf => hwalk _ (Nat.le_refl _) _ f _ (.inr ⟨cellAt 2, rfl, hf⟩),
    fun a => hrun _ none a⟩

end FormulaFold
