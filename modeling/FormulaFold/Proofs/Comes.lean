import FormulaFold.Proofs.Transparency
import FormulaFold.Proofs.Writable

/-! # Actions that are sure to give

`Walk.Comes P b x a` says that `x`, run with the names `b` bound, gives `a` from every state with
the property `P`, and keeps the property.  `Walk.Gives` takes walks apart; this relation puts them
together.  The rules below do so for the forms.
-/
namespace FormulaFold

namespace Walk

variable {α β : Type} {P : WalkState → Prop}

/-- What a property of states must not look at: the bound names, the record of events, and how many
formulas were computed or left to the run. -/
structure Lenient (P : WalkState → Prop) : Prop where
  under : ∀ s b, P s → P (under b s)
  events : ∀ s es, P s → P { s with events := es }
  folded : ∀ s n, P s → P { s with stats := { s.stats with folded := n } }
  refused : ∀ s n, P s → P { s with stats := { s.stats with refused := n } }

/-- `x` gives `a` under the names `b` from every state with the property `P`, and keeps it. -/
def Comes (P : WalkState → Prop) (b : Bindings) (x : Walk α) (a : α) : Prop :=
  ∀ s, P s → s.bindings = b → ∃ s', x s = .ok a s' ∧ P s' ∧ s'.bindings = b

theorem comes_pure (a : α) : Comes P b (pure a) a := fun s hs hb => ⟨s, rfl, hs, hb⟩

theorem Comes.bind {f : α → Walk β} (hx : Comes P b x a)
    (hf : Comes P b (f a) c) : Comes P b (x >>= f) c := by
  intro s hs hb
  obtain ⟨s₁, hxs, hs₁, hb₁⟩ := hx s hs hb
  obtain ⟨s₂, hfs, hs₂, hb₂⟩ := hf s₁ hs₁ hb₁
  refine ⟨s₂, ?_, hs₂, hb₂⟩
  rw [bind_apply, hxs]
  exact hfs

theorem comes_if_pos {p : Prop} [Decidable p] (hp : p)
    (hx : Comes P b x a) : Comes P b (if p then x else y) a := by
  rw [if_pos hp]
  exact hx

theorem comes_if_neg {p : Prop} [Decidable p] (hp : ¬p)
    (hy : Comes P b y a) : Comes P b (if p then x else y) a := by
  rw [if_neg hp]
  exact hy

section Lenient

variable (hP : Lenient P)
include hP

theorem comes_record (e : Event) : Comes P b (record e) () :=
  fun s hs hb => ⟨_, rfl, hP.events s _ hs, hb⟩

theorem comes_within (hx : Comes P next x a) :
    Comes P b (within next x) a := by
  intro s hs hb
  obtain ⟨t, ht, hPt, _⟩ := hx (Walk.under next s) (hP.under s next hs) rfl
  refine ⟨Walk.under s.bindings t, ?_, hP.under t _ hPt, hb⟩
  rw [within, ht]

variable {E : Memo → Prop} {bound : Prop}

theorem comes_binding
    (hframes : Frames book E bound (b.push name o) x) (hx : Comes P (b.push name o) x a) :
    Comes P b (binding name o x) a := by
  intro s hs hb
  rw [binding_apply hframes hb]
  exact comes_within hP hx s hs hb

theorem comes_bindingAll
    (hlen : names.length = os.length) (hframes : Frames book E bound (b.pushAll (names.zip os)) x)
    (hx : Comes P (b.pushAll (names.zip os)) x a) : Comes P b (bindingAll names os x) a := by
  intro s hs hb
  rw [bindingAll_apply hlen hframes hb]
  exact comes_within hP hx s hs hb

end Lenient

end Walk

open Walk

variable {P : WalkState → Prop} {site : Site} {w : Expr → Action} {node : Expr}

/-! ## Computed nodes -/

theorem comes_dynamic (htype : (site.book.typeOf? e).isSome) :
    Comes P b (site.dynamic e) (.ofExpr e) := by
  obtain ⟨t, ht⟩ := isSome_iff_exists.mp htype
  exact comes_if_neg (by simp [ht]) (comes_pure _)

theorem comes_residual (he : node.withChildren (keepMissing node.children os) = .ok e)
    (htype : (site.book.typeOf? e).isSome) : Comes P b (site.residual node os) (.ofExpr e) := by
  unfold Site.residual
  rw [he]
  exact comes_dynamic htype

theorem comes_written (hwritable : node.isWritable site.book.sectionPath = true) :
    ∃ text, Comes P b (site.written node) text := by
  obtain ⟨text, htext⟩ := isSome_iff_exists.mp hwritable
  refine ⟨text, ?_⟩
  unfold Site.written
  rw [Workbook.render, htext]
  exact comes_pure _

theorem comes_runAll (h : Forall₂ (Child fun e o => Comes P b (w e) o) es os) :
    Comes P b (runAll (es.map (Option.map w))) os := by
  induction h with
  | nil => exact comes_pure _
  | @cons e o es os ho _ ih =>
    cases e with
    | none =>
      obtain rfl : o = .blank := ho
      exact ih.bind (comes_pure _)
    | some e =>
      have ho : Comes P b (w e) o := ho
      exact ho.bind (ih.bind (comes_pure _))

section Lenient

variable (hP : Lenient P)
include hP

theorem comes_accept (htype : (site.book.typeOf? node).isSome) (v : Value) :
    Comes P b (Site.tryConstant.accept site node v) (some (site.keep node v)) := by
  have htally : Comes P b (tally fun s => { s with folded := s.folded + 1 }) () :=
    fun s hs hb => ⟨_, rfl, hP.folded s _ hs, hb⟩
  obtain ⟨t, ht⟩ := isSome_iff_exists.mp htype
  unfold Site.tryConstant.accept Site.keep
  refine htally.bind ?_
  by_cases hv : (site.engine.adjust v).dataType = .unknown
  · rw [if_pos hv, if_pos hv, ht]
    exact comes_pure _
  · rw [if_neg hv, if_neg hv]
    exact comes_pure _

/-- A computation whose failures are expected comes to what is kept of it. -/
theorem comes_tryConstant (hwritable : node.isWritable site.book.sectionPath = true)
    (htype : (site.book.typeOf? node).isSome) {result : Except Failure Value}
    (hexpected : ∀ f, result = .error f → f.expected = true) :
    Comes P b (site.tryConstant node result) (site.kept? node result) := by
  obtain ⟨text, hwritten⟩ := comes_written (P := P) (b := b) hwritable
  have htally : Comes P b (tally fun s => { s with refused := s.refused + 1 }) () :=
    fun s hs hb => ⟨_, rfl, hP.refused s _ hs, hb⟩
  have hrefuse (event : String → Event) : Comes P b (do
      tally fun s => { s with refused := s.refused + 1 }
      record (event (← site.written node))
      return none : Walk (Option Outcome)) none :=
    htally.bind (hwritten.bind ((comes_record hP _).bind (comes_pure _)))
  unfold Site.tryConstant Site.kept?
  cases result with
  | error f => exact comes_if_pos (hexpected f rfl) (hrefuse _)
  | ok v =>
    cases v with
    | number x =>
      by_cases hx : isFinite x
      · simp only [hx, if_true]
        exact comes_accept hP htype _
      · simp only [hx]
        exact hrefuse _
    | _ => exact comes_accept hP htype _

/-- A node whose computation is refused, or not tried, comes to the node around its children. -/
theorem comes_settle {compute : Computation}
    (hwritable : node.isWritable site.book.sectionPath = true)
    (htype : (site.book.typeOf? node).isSome)
    (hleft : os.all (·.isConstant) = true → site.kept? node (compute (Outcome.values os)) = none)
    (hexpected : os.all (·.isConstant) = true →
      ∀ f, compute (Outcome.values os) = .error f → f.expected = true)
    (hresidual : Comes P b (site.residual node os) (.ofExpr e)) :
    Comes P b (site.settle node compute os) (.ofExpr e) := by
  unfold Site.settle
  by_cases hconst : os.all (·.isConstant) = true
  · rw [if_pos hconst]
    have htry := comes_tryConstant (b := b) hP hwritable htype (hexpected hconst)
    rw [hleft hconst] at htry
    exact htry.bind hresidual
  · rw [if_neg hconst]
    exact hresidual

end Lenient

/-! ## Folding -/

/-- Folding gives what the walk gives, if the formula and what is left of it can be written. -/
theorem comes_optimize {opt : Optimizer} {book : Workbook} {e : Expr} (hP : Lenient P)
    (b : Bindings) (hwalk : Comes P .empty (opt.walkDeep book book.cells.length origin e) o)
    (he : e.isWritable book.sectionPath = true) (ho : o.expr.isWritable book.sectionPath = true) :
    Comes P b (opt.optimize book (some e) origin) o := by
  have hdepth : Comes P .empty (get >>= fun s : WalkState =>
      if s.bindings.depth ≠ 0 then throw (.leftover (book.shown e) s.bindings.depth)
      else pure o : Action) o := by
    intro s hs hb
    refine ⟨s, ?_, hs, hb⟩
    simp only [bind_apply, get_apply, hb]
    rfl
  have hisolated : Comes P b (isolated (opt.balanced book e origin)) o := by
    intro s
    rw [isolated_apply]
    exact comes_within hP (hwalk.bind hdepth) s
  have hwrites {x : Expr} (hx : x.isWritable book.sectionPath = true) :
      ∃ text, Comes P b ((opt.site book origin).written x) text := comes_written hx
  obtain ⟨text, htext⟩ := hwrites he
  obtain ⟨result, hresult⟩ := hwrites ho
  rw [optimize_some]
  exact hisolated.bind (htext.bind (hresult.bind ((comes_record hP _).bind (comes_pure _))))

theorem lenient_true : Lenient fun _ => True := ⟨by simp, by simp, by simp, by simp⟩

/-- A formula that can be written is folded if its walk is sure to give. -/
theorem exists_optimize_eq_ok {opt : Optimizer} {book : Workbook} {e : Expr}
    (hwalk : Comes (fun _ => True) .empty (opt.walkDeep book book.cells.length origin e) o)
    (he : e.isWritable book.sectionPath = true) (s : WalkState) :
    ∃ s', opt.optimize book (some e) origin s = .ok o s' := by
  obtain ⟨t, ht, -⟩ := hwalk (under .empty s) trivial rfl
  have ho := isWritable_of_gives (gives_of_ok ht) he
  obtain ⟨s', hs', -⟩ := comes_optimize lenient_true s.bindings hwalk he ho s trivial rfl
  exact ⟨s', hs'⟩

end FormulaFold
