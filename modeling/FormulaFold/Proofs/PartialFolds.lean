import FormulaFold.Proofs.Abreast
import FormulaFold.Proofs.Writable

/-! # Folds done in part

Doing folds in part changes only how folds are left to the run.  A walk that does not do so goes
the same way otherwise: it finds the same constants, remembers them, counts the same and stops at
the same faults (`abreast_withoutPartialFolds`).  Where it leaves a fold, it leaves it with the
definition, the seeds and the number of folded elements that it has in the formula
(`label_of_gives`).

The two walks leave formulas of the same kind and the same data type, and no walk looks at more
than that.
-/
namespace FormulaFold

open Walk

variable {e node : Expr} {o : Outcome} {α : Type} {book : Workbook}

/-! ## What is left of a fold -/

/-- What a fold carries beside its elements. -/
structure FoldLabel where
  kind : Kind
  d : FoldDef Expr
  seeds : List Expr
  folded : Nat

/-- What a fold carries; a fold of one array carries no seeds. -/
def Expr.label? : Expr → Option FoldLabel
  | fold form d seeds folded elements t =>
    some ⟨(fold form d seeds folded elements t).kind, d, seeds, folded⟩
  | reduce d seed folded _ _ => some ⟨.reduce, d, seed.toList, folded⟩
  | foldArray d _ _ => some ⟨.foldArray, d, [], 0⟩
  | foldVectors d seeds folded _ _ => some ⟨.foldVectors, d, seeds, folded⟩
  | foldTable d seeds folded _ _ _ _ _ => some ⟨.foldDatabase, d, seeds, folded⟩
  | _ => none

/-- Every fold that occurs in a formula carries one of the labels. -/
def Expr.Labelled (S : Set FoldLabel) (e : Expr) : Prop :=
  ∀ x : Expr, x.OccursIn e → ∀ l, x.label? = some l → l ∈ S

namespace Expr

variable {S : Set FoldLabel}

theorem labelled_iff :
    e.Labelled S ↔ (∀ l, e.label? = some l → l ∈ S) ∧ ∀ p ∈ e.parts, p.Labelled S := by
  constructor
  · intro h
    exact ⟨h e .refl, fun p hp x hx => h x (hx.tail hp)⟩
  · rintro ⟨hnode, hparts⟩ x hx
    rcases occursIn_iff.mp hx with rfl | ⟨p, hp, hx⟩
    · exact hnode
    · exact hparts p hp x hx

theorem label_of_withChildren (hladen : node.isLaden = true) (h : node.withChildren es = .ok e) :
    e.label? = node.label? ∧ ∀ p ∈ e.parts, p ∈ node.parts ∨ some p ∈ es := by
  cases node with
  | fold form =>
    cases h
    refine ⟨by cases form <;> rfl, fun p hp => ?_⟩
    simp only [parts, mem_append, mem_present] at hp ⊢
    tauto
  | reduce | foldVectors =>
    cases h
    refine ⟨rfl, fun p hp => ?_⟩
    simp only [parts, mem_append, mem_present] at hp ⊢
    tauto
  | foldArray | foldTable =>
    obtain _ | ⟨x, _ | ⟨y, rest⟩⟩ := es
    · cases h
    · cases h
      refine ⟨rfl, fun p hp => ?_⟩
      simp only [parts, mem_append, mem_toList, mem_singleton] at hp ⊢
      grind
    · cases h
  | subSection s elements =>
    cases h
    exact ⟨rfl, fun p hp => .inr (by simpa [parts] using hp)⟩
  | cell a =>
    rw [eq_of_withChildren_cell h]
    exact ⟨rfl, fun p hp => .inl hp⟩
  | _ => cases hladen

/-- Folds with the same definition carry labels with the same definition. -/
theorem exists_label_of_definition? (he : e.isFold = true) (h : e.definition? = node.definition?) :
    ∃ l l', node.label? = some l ∧ e.label? = some l' ∧ l'.d = l.d := by
  cases e <;> cases he
  all_goals
    cases node <;> simp only [definition?, reduceCtorEq, Option.some.injEq, Prod.mk.injEq] at h
    all_goals exact ⟨_, _, rfl, rfl, h.1⟩

/-- The parts of a fold that are not used belong to its definition. -/
theorem mem_liveParts_or_of_mem_parts {p : Expr} (h : p ∈ e.parts) :
    p ∈ e.liveParts ∨ ∃ d columns, e.definition? = some (d, columns) ∧ p ∈ d.parts := by
  have hseeds {d : FoldDef Expr} {seeds : List Expr} (hp : p ∈ seeds) : some p ∈ d.start seeds := by
    rw [FoldDef.start, if_neg (by simpa using List.ne_nil_of_mem hp)]
    exact List.mem_map_of_mem hp
  cases e with
  | fold | reduce | foldArray | foldVectors | foldTable =>
    simp only [parts, liveParts, definition?, mem_append, mem_present] at h ⊢
    grind
  | _ => exact .inl h

end Expr

/-- The labels that folds carry last; a fold done in part keeps no more of its label than the
definition. -/
theorem lasting_labelled {partialFolds : Bool} {S : Set FoldLabel}
    (hS : partialFolds = true → ∀ l ∈ S, ∀ l' : FoldLabel, l'.d = l.d → l' ∈ S) :
    Lasting partialFolds (Expr.Labelled S) where
  part e he p hp := (Expr.labelled_iff.mp he).2 p (Expr.mem_parts_of_mem_liveParts hp)
  plain e he hparts := by
    have hlabel : e.label? = none := by
      cases e <;> first | rfl | cases he
    have hlive : e.liveParts = e.parts := by
      cases e <;> first | rfl | cases he
    rw [Expr.labelled_iff, hlabel, ← hlive]
    exact ⟨by simp, hparts⟩
  rebuilt node es e hladen hnode hes he := by
    rw [Expr.labelled_iff] at hnode ⊢
    obtain ⟨hlabel, hparts⟩ := Expr.label_of_withChildren hladen he
    refine ⟨hlabel ▸ hnode.1, fun p hp => ?_⟩
    rcases hparts p hp with hp | hp
    · exact hnode.2 p hp
    · exact hes p hp
  resumed hpartial node hnode e he hdef hparts := by
    rw [Expr.labelled_iff] at hnode ⊢
    obtain ⟨l, l', hl, hl', hd⟩ := Expr.exists_label_of_definition? he hdef
    refine ⟨fun l'' hl'' => ?_, fun p hp => ?_⟩
    · cases hl'.symm.trans hl''
      exact hS hpartial l (hnode.1 l hl) l' hd
    · rcases Expr.mem_liveParts_or_of_mem_parts hp with hp | ⟨d, columns, hd, hp⟩
      · exact hparts p hp
      · exact hnode.2 p (Expr.mem_parts_of_definition? (hdef ▸ hd) hp)

/-- Without folds done in part, a walk leaves folds with what they carry in the formula. -/
theorem label_of_gives {opt : Optimizer} (hopt : opt.partialFolds = false) {L U : Memo} {n : Nat}
    {origin : Option Address} (h : Gives L U .empty (opt.walkDeep book n origin e) o) {x : Expr}
    (hx : x.OccursIn o.expr) {l : FoldLabel} (hl : x.label? = some l) :
    ∃ y : Expr, y.OccursIn e ∧ y.label? = some l := by
  have hlasting : Lasting opt.partialFolds
      (Expr.Labelled {l | ∃ y : Expr, y.OccursIn e ∧ y.label? = some l}) :=
    lasting_labelled fun hpartial => absurd (hpartial.symm.trans hopt) (by decide)
  exact lasts_of_gives hlasting e h Bindings.constant_empty (fun y hy l hl => ⟨y, hy, hl⟩) x hx l hl

/-! ## Formulas that a walk does not tell apart -/

/-- Formulas that say nothing of their value, of one kind and one data type. -/
def Expr.Peers (book : Workbook) (e e' : Expr) : Prop :=
  e.isOpen = true ∧ e'.kind = e.kind ∧ book.typeOf? e' = book.typeOf? e

section Peers

/-- The child that a node has its data type from, if it has it from one. -/
def Expr.typedBy? : Expr → Option Nat
  | letIn .. => some 1
  | switchCase _ | parentSection .. => some 0
  | _ => none

theorem Expr.type?_of_withChildren {cellType : Address → DataType}
    (h : node.withChildren es = .ok e) : e.type? cellType = match node.typedBy? with
      | some i => typeOf? cellType es[i]?.join
      | none => node.type? cellType := by
  cases node with
  | operator | call | reduce | foldVectors | subSection | count | splice | fold =>
    cases h
    simp [type?, typedBy?]
  | range =>
    simp only [withChildren] at h
    split at h <;> cases h <;> simp [type?, typedBy?]
  | constant | cell | letVar =>
    simp only [withChildren] at h
    split at h <;> cases h
    rfl
  | letIn | switchCase | foldArray | foldTable | parentSection =>
    simp only [withChildren] at h
    split at h <;> cases h
    simp [type?, typedBy?]
  | switch =>
    obtain ⟨_, _, _, rfl⟩ := exists_switch_of_withChildren h
    simp [type?, typedBy?]

theorem typeOf?_of_like_peers {e e' : Option Expr}
    (h : Option.Rel (Expr.Like (Expr.Peers book)) e e') :
    Expr.typeOf? book.cellType e' = Expr.typeOf? book.cellType e := by
  cases h with
  | none => rfl
  | @some e e' h =>
    cases e with
    | constant v t => rw [show e' = .constant v t from h]
    | range rows cols elements | splice elements =>
      obtain ⟨elements', rfl, _⟩ := h
      simp [Expr.typeOf?, Expr.type?]
    | _ => exact ((Expr.like_of_isOpen rfl).mp h).2.2

theorem rel_join_getElem? {β : Type} {P : α → β → Prop} {xs : List (Option α)}
    {ys : List (Option β)} (h : Forall₂ (Option.Rel P) xs ys) (i : Nat) :
    Option.Rel P xs[i]?.join ys[i]?.join := by
  induction h generalizing i with
  | nil => exact .none
  | cons hx _ ih =>
    cases i with
    | zero => simpa using hx
    | succ i => simpa using ih i

theorem agreeable_peers (book : Workbook) : Agreeable book (Expr.Peers book) where
  refl _ he := ⟨he, rfl, rfl⟩
  isOpen _ _ h := h.1
  kind _ _ h := h.2.1
  type _ _ h := h.2.2
  rebuild node es es' e e' hnode hes he he' := by
    refine ⟨Expr.isOpen_of_withChildren hnode he,
      (Expr.kind_of_withChildren he').trans (Expr.kind_of_withChildren he).symm, ?_⟩
    unfold Workbook.typeOf?
    rw [Expr.type?_of_withChildren he, Expr.type?_of_withChildren he']
    cases node.typedBy? with
    | none => rfl
    | some i => exact typeOf?_of_like_peers (rel_join_getElem? (Expr.allLike_iff.mp hes) i)

end Peers

/-! ## Walks with and without folds done in part -/

/-- Two states that differ only in what they tell of folds done in part; the second one counts `k`
of them. -/
structure WalkState.Abreast (k : Nat) (s t : WalkState) : Prop where
  memo : t.memo = s.memo
  active : t.active = s.active
  bindings : t.bindings = s.bindings
  folded : t.stats.folded = s.stats.folded
  refused : t.stats.refused = s.stats.refused
  cacheHits : t.stats.cacheHits = s.stats.cacheHits
  partialFolds : t.stats.partialFolds = k

namespace WalkState.Abreast

variable {k : Nat} {a : Address}

theorem couples (c : Bool) (k : Nat) : Couples c false (WalkState.Abreast k) where
  bindings _ _ h := h.bindings
  change hf _ _ h := by
    cases hf with
    | event =>
      exact ⟨h.memo, h.active, h.bindings, h.folded, h.refused, h.cacheHits, h.partialFolds⟩
    | bindings => exact ⟨h.memo, h.active, rfl, h.folded, h.refused, h.cacheHits, h.partialFolds⟩
    | folded => exact ⟨h.memo, h.active, h.bindings, congrArg (· + 1) h.folded, h.refused,
        h.cacheHits, h.partialFolds⟩
    | refused => exact ⟨h.memo, h.active, h.bindings, h.folded, congrArg (· + 1) h.refused,
        h.cacheHits, h.partialFolds⟩
  foldInPart _ _ _ h := by
    cases c
    · exact h
    · exact ⟨h.memo, h.active, h.bindings, h.folded, h.refused, h.cacheHits, h.partialFolds⟩

theorem mark (h : WalkState.Abreast k s t) : WalkState.Abreast k (s.mark a) (t.mark a) :=
  ⟨h.memo, congrArg (a :: ·) h.active, h.bindings, h.folded, h.refused, h.cacheHits,
    h.partialFolds⟩

theorem unmark (h : WalkState.Abreast k s t) : WalkState.Abreast k (s.unmark a) (t.unmark a) :=
  ⟨h.memo, congrArg (List.filter _) h.active, h.bindings, h.folded, h.refused, h.cacheHits,
    h.partialFolds⟩

theorem learn (h : WalkState.Abreast k s t) (c : Constant) :
    WalkState.Abreast k (s.learn a c) (t.learn a c) :=
  ⟨congrArg (Memo.set · a c) h.memo, h.active, h.bindings, h.folded, h.refused, h.cacheHits,
    h.partialFolds⟩

theorem hit (h : WalkState.Abreast k s t) : WalkState.Abreast k
    { s with stats := { s.stats with cacheHits := s.stats.cacheHits + 1 } }
    { t with stats := { t.stats with cacheHits := t.stats.cacheHits + 1 } } :=
  ⟨h.memo, h.active, h.bindings, h.folded, h.refused, congrArg (· + 1) h.cacheHits,
    h.partialFolds⟩

end WalkState.Abreast

theorem abreast_remember (k : Nat) (a : Address) (v : Value) (t : DataType) :
    Abreast (WalkState.Abreast k) (· = ·) (remember a v t) (remember a v t) := by
  intro s s' hs
  cases hc : s.memo.find? a with
  | none =>
    rw [remember_none v t hc, remember_none v t (hs.memo ▸ hc)]
    exact .ok rfl (hs.learn _)
  | some c =>
    rw [remember_some v t hc, remember_some v t (hs.memo ▸ hc)]
    split
    · exact .error hs
    · exact .ok rfl (hs.learn _)

theorem abreast_marking {α' : Type} {R : α → α' → Prop} {k : Nat} {x : Walk α} {x' : Walk α'}
    (hx : Abreast (WalkState.Abreast k) R x x') (a : Address) :
    Abreast (WalkState.Abreast k) R (marking a x) (marking a x') := by
  intro s t hst
  have hmatch := hx _ _ (hst.mark (a := a))
  rw [marking_apply, marking_apply]
  generalize x (s.mark a) = r at hmatch ⊢
  generalize x' (t.mark a) = r' at hmatch ⊢
  cases hmatch with
  | ok ha hst => exact .ok ha hst.unmark
  | error hst => exact .error hst.unmark

namespace Optimizer

/-- The optimizer that does not do folds in part. -/
def withoutPartialFolds (opt : Optimizer) : Optimizer := { opt with partialFolds := false }

variable (opt : Optimizer) (k : Nat)

theorem abreast_reference {enter enter' : Address → Expr → Action} (origin : Option Address)
    (a : Address)
    (henter : ∀ f, Abreast (WalkState.Abreast k) (Outcome.Like (Expr.Peers book)) (enter a f)
      (enter' a f)) :
    Abreast (WalkState.Abreast k) (Outcome.Like (Expr.Peers book))
      (cellForm (opt.site book origin) enter a)
      (cellForm (opt.withoutPartialFolds.site book origin) enter' a) := by
  have hQ := agreeable_peers book
  have hdynamic : Abreast (WalkState.Abreast k) (Outcome.Like (Expr.Peers book))
      ((opt.site book origin).dynamic (.cell a))
      ((opt.withoutPartialFolds.site book origin).dynamic (.cell a)) :=
    abreast_dynamic (WalkState.Abreast.couples true k) hQ (hQ.like_refl _)
  intro s t hst
  cases hinput : (book.get a).input with
  | true =>
    rw [cellForm_input hinput, cellForm_input hinput]
    exact hdynamic s t hst
  | false =>
  cases hc : s.memo.find? a with
  | some c =>
    rw [cellForm_remembered hinput hc, cellForm_remembered hinput (hst.memo ▸ hc)]
    exact .ok (hQ.outcome_refl _) hst.hit
  | none =>
  have hc' : t.memo.find? a = none := hst.memo ▸ hc
  cases hformula : (book.get a).formula with
  | none =>
    rw [cellForm_literal hinput hformula hc, cellForm_literal hinput hformula hc']
    exact (abreast_remember k a _ _).bind (fun _ _ _ => abreast_pure (hQ.outcome_refl _)) s t hst
  | some f =>
    by_cases ha : a ∈ s.active
    · rw [cellForm_active hinput hformula hc ha,
        cellForm_active hinput hformula hc' (hst.active ▸ ha)]
      exact hdynamic s t hst
    · rw [cellForm_enter hinput hformula hc ha,
        cellForm_enter hinput hformula hc' (hst.active ▸ ha)]
      refine (abreast_marking (abreast_isolated (WalkState.Abreast.couples true k) (henter f))
        a).bind (fun o o' ho => ?_) s t hst
      cases o with
      | residual e =>
        obtain ⟨e', rfl, _⟩ := ho
        exact hdynamic
      | known v t =>
        cases ho
        exact (abreast_remember k a v t).bind fun _ _ _ => abreast_pure (hQ.outcome_refl _)

/-- **A walk that does not do folds in part goes the same way otherwise.** -/
theorem abreast_withoutPartialFolds (n : Nat) : ∀ (origin : Option Address) (e : Expr),
    Abreast (WalkState.Abreast k) (Outcome.Like (Expr.Peers book)) (opt.walkDeep book n origin e)
      (opt.withoutPartialFolds.walkDeep book n origin e) := by
  have hstep (n : Nat) (henter : ∀ a f, Abreast (WalkState.Abreast k)
      (Outcome.Like (Expr.Peers book)) (opt.enter book n a f)
      (opt.withoutPartialFolds.enter book n a f)) (origin : Option Address) (e : Expr) :
      Abreast (WalkState.Abreast k) (Outcome.Like (Expr.Peers book))
        (opt.walkDeep book n origin e) (opt.withoutPartialFolds.walkDeep book n origin e) := by
    rw [opt.walkDeep_eq, opt.withoutPartialFolds.walkDeep_eq]
    have hblind : Blind (opt.site book origin) false (Expr.Peers book) :=
      fun _ _ _ hopen hkind htype => ⟨hopen, hkind, htype⟩
    exact abreast_walk (WalkState.Abreast.couples _ k) (agreeable_peers book) hblind e fun a _ =>
      opt.abreast_reference k origin a (henter a)
  induction n with
  | zero => exact hstep 0 fun a f => abreast_throw _
  | succ n ih => exact hstep (n + 1) fun a f => ih (some a) f

theorem abreast_balanced (book : Workbook) (e : Expr) (origin : Option Address) :
    Abreast (WalkState.Abreast k) (Outcome.Like (Expr.Peers book)) (opt.balanced book e origin)
      (opt.withoutPartialFolds.balanced book e origin) := by
  refine (opt.abreast_withoutPartialFolds k _ origin e).bind fun o o' ho => ?_
  intro s t hst
  have hb := hst.bindings
  simp only [bind_apply, get_apply, hb]
  split
  · exact .error hst
  · exact .ok ho hst

end Optimizer

/-- Outcomes that agree in what is known: one is constant if the other one is, and then they are
the same value with the same data type. -/
structure Outcome.Agree (o o' : Outcome) : Prop where
  isKnown : o'.isKnown = o.isKnown
  isConstant : o'.isConstant = o.isConstant
  eq : o.isConstant = true → o' = o

theorem Outcome.Like.agree {o' : Outcome} (h : o.Like (Expr.Peers book) o') : o.Agree o' :=
  ⟨h.isKnown_eq, (agreeable_peers book).isConstant_eq h, h.eq_of_isConstant⟩

/-- **Doing folds in part changes only the folds that are left.**  From any state, folding a formula
with and without it ends alike: at the same fault, or with outcomes that agree in what is known.
The same is remembered and counted; without it no fold is counted as done in part, and every fold
that is left carries what a fold of the formula carries. -/
theorem optimize_withoutPartialFolds (opt : Optimizer) (book : Workbook) (e : Option Expr)
    (origin : Option Address) (s : WalkState) :
    Matches (WalkState.Abreast s.stats.partialFolds)
      (fun o o' => o.Agree o' ∧ ∀ (x : Expr) l, x.OccursIn o'.expr → x.label? = some l →
        ∃ f y : Expr, e = some f ∧ y.OccursIn f ∧ y.label? = some l)
      (opt.optimize book e origin s) (opt.withoutPartialFolds.optimize book e origin s) := by
  have hself : WalkState.Abreast s.stats.partialFolds s s := ⟨rfl, rfl, rfl, rfl, rfl, rfl, rfl⟩
  cases e with
  | none => exact .error hself
  | some e =>
  have hmatch := abreast_isolated (WalkState.Abreast.couples true _)
    (opt.abreast_balanced s.stats.partialFolds book e origin) s s hself
  rw [optimize_some, optimize_some, bind_apply, bind_apply]
  have hgives (opt : Optimizer) (o : Outcome) (t : WalkState)
      (h : isolated (opt.balanced book e origin) s = .ok o t) :
      Gives s.memo t.memo .empty (opt.walkDeep book book.cells.length origin e) o :=
    gives_balanced (b := s.bindings) (gives_of_ok h)
  have hleft := hgives opt
  have hright := hgives opt.withoutPartialFolds
  generalize isolated (opt.balanced book e origin) s = r at hmatch hleft ⊢
  generalize isolated (opt.withoutPartialFolds.balanced book e origin) s = r' at hmatch hright ⊢
  cases hmatch with
  | error hst => exact .error hst
  | @ok o o' t t' ho hst =>
    have hlabels (x : Expr) (l : FoldLabel) (hx : x.OccursIn o'.expr) (hl : x.label? = some l) :
        ∃ f y : Expr, some e = some f ∧ y.OccursIn f ∧ y.label? = some l := by
      obtain ⟨y, hy, hyl⟩ := label_of_gives rfl (hright o' t' rfl) hx hl
      exact ⟨e, y, rfl, hy, hyl⟩
    -- What can be written of the formula can be written of both outcomes.
    cases he : book.render e with
    | none =>
      simp only [Site.written, Optimizer.site, he]
      exact .error hst
    | some text =>
      have hwritable : e.isWritable book.sectionPath = true := Option.isSome_iff_exists.mpr ⟨_, he⟩
      obtain ⟨result, hresult⟩ := Option.isSome_iff_exists.mp
        (isWritable_of_gives (hleft o t rfl) hwritable)
      obtain ⟨result', hresult'⟩ := Option.isSome_iff_exists.mp
        (isWritable_of_gives (hright o' t' rfl) hwritable)
      have hresult : book.render o.expr = some result := hresult
      have hresult' : book.render o'.expr = some result' := hresult'
      simp only [Site.written, Optimizer.site, he, hresult, hresult']
      exact .ok ⟨ho.agree, hlabels⟩ ⟨hst.memo, hst.active, hst.bindings, hst.folded, hst.refused,
        hst.cacheHits, hst.partialFolds⟩

end FormulaFold
