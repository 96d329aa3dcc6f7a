import FormulaFold.Proofs.Complaints
import FormulaFold.Proofs.Preservation
import FormulaFold.Proofs.UpheldVectors

/-! # Vectors of different lengths

A fold over vectors asks for vectors of equal length.  Ahead of the run every element counts as one,
and a fold whose vectors differ is rejected.  **If it is rejected for itself and every element comes
to one value in a run, the run fails as well** (`evaluate_of_optimize_mismatch`).  An input that is
an array may make up for the difference.

An action is `Shapely` if it never complains about a shape.  A fold is shapely if its parts are and
its vectors agree.
-/
namespace FormulaFold

open Walk

/-- `x` never stops at a complaint about a shape. -/
abbrev Walk.Shapely {α : Type} (x : Walk α) : Prop := Spares .shapeMismatch x

/-! ## Folds -/

section Folds

variable {plan : FoldPlan} (hd : ∀ act ∈ plan.d.parts, Shapely act) {st : FoldState}
include hd

theorem shapely_step? {elements : List Outcome} {extra : Pairs}
    (hlength : elements.length = plan.d.elementNames.length) :
    Shapely (plan.step? st elements extra) := by
  unfold FoldPlan.step?
  rw [if_neg (not_not.mpr hlength)]
  dsimp only
  split
  · split
    · exact spares_throw rfl
    · exact spares_pure _
  · refine ((spares_runConstants fun act hact => hd act ?_).bindingAll _ _).then fun _ =>
      spares_pure _
    exact FoldDef.mem_parts_of_mem_steps (by simpa using hact)

theorem shapely_foldTuples {tuples : List (List Outcome)}
    (htuples : ∀ tuple ∈ tuples, tuple.length = plan.d.elementNames.length) :
    Shapely (plan.foldTuples st tuples) := by
  induction tuples generalizing st with
  | nil => exact spares_pure st
  | cons tuple rest ih =>
    have htuples := forall_mem_cons.mp htuples
    rw [foldTuples_cons]
    refine Spares.then (spares_ite (fun _ => spares_pure _) fun _ => ?_) fun _ => ih htuples.2
    exact (shapely_step? hd htuples.1).then fun _ => spares_pure _

theorem shapely_result : Shapely (plan.result st) := by
  have hfinish : Shapely (FoldPlan.result.finish plan st st.accs plan.d.merge) := by
    unfold FoldPlan.result.finish
    split
    · exact spares_pure _
    · split
      · exact spares_throw rfl
      · exact spares_pure _
    · exact (hd _ (by simp [FoldDef.parts, *])).bindingAll _ _
  unfold FoldPlan.result
  split
  · refine spares_ite (fun _ => hd _ ?_) fun _ => hfinish
    simp [FoldDef.parts, *]
  · exact hfinish

theorem shapely_complete {whole : Action} {rebuild : FoldState → Expr} (hwhole : Shapely whole) :
    Shapely (plan.complete st whole rebuild) := by
  refine spares_ite (fun _ => shapely_result hd) fun _ => spares_ite (fun _ => hwhole) fun _ => ?_
  exact Spares.then (spares_of_ok fun s => ⟨(), _, rfl⟩) fun _ =>
    Spares.then (spares_of_ok fun s => ⟨(), _, rfl⟩) fun _ => spares_dynamic _

omit hd in
theorem exists_vectorElements?
    (hos : ∀ o ∈ os, ∃ es, o.elements? = some es ∧ (flattenOutcomes es).length = n)
    (first : Option Nat) (hfirst : first.getD n = n) (position : Nat) :
    ∃ vs, vectorElements? first position os = some (.ok vs) ∧ vs.length = os.length ∧
      ∀ v ∈ vs, v.length = n := by
  induction os generalizing first position with
  | nil => exact ⟨[], rfl, rfl, by simp⟩
  | cons o os ih =>
    have hos := forall_mem_cons.mp hos
    obtain ⟨es, hes, hlength⟩ := hos.1
    obtain ⟨vs, hvs, hcount, hall⟩ := ih hos.2 (some n) rfl (position + 1)
    refine ⟨flattenOutcomes es :: vs, ?_, by simp [hcount], forall_mem_cons.mpr ⟨hlength, hall⟩⟩
    rw [vectorElements?_cons, hes, bind_some, hlength, hfirst, if_neg (by simp), hvs]
    rfl

/-- A fold over vectors that agree does not complain about a shape, unless a part of it does. -/
theorem shapely_foldVectorsForm
    {rebuild : FoldState → List Expr → Expr} (hinits : ∀ act, some act ∈ plan.inits → Shapely act)
    (hacts : ∀ act, some act ∈ acts → Shapely act) (hne : acts ≠ [])
    (hlength : acts.length = plan.d.elementNames.length)
    (hargs : ∀ s os s', runAll acts s = .ok os s' → os.length = acts.length ∧
      ∀ o ∈ os, ∃ es, o.elements? = some es ∧ (flattenOutcomes es).length = n) :
    Shapely (foldVectorsForm plan folded acts rebuild) := by
  unfold foldVectorsForm
  refine (spares_runAll hacts).bind fun os s s' hos => ?_
  obtain ⟨hcount, hos⟩ := hargs s os s' hos
  have hcount' : ¬(os.isEmpty = true ∨ os.length ≠ plan.d.elementNames.length) := by
    rintro (hempty | hlen)
    · rw [isEmpty_iff.mp hempty] at hcount
      exact hne (length_eq_zero_iff.mp hcount.symm)
    · exact hlen (hcount.trans hlength)
  obtain ⟨vs, hvs, hlen, hall⟩ := exists_vectorElements? hos none rfl 1
  rw [if_neg hcount']
  simp only [hvs]
  have hstart : Shapely (plan.start? folded) := by
    unfold FoldPlan.start?
    split
    · exact spares_pure _
    · exact (spares_runConstants hinits).then fun _ => spares_pure _
  refine hstart.then fun r => ?_
  cases r with
  | none => exact spares_residual _ _
  | some st =>
    refine (shapely_foldTuples hd fun tuple htuple => ?_).then fun _ =>
      shapely_complete hd (spares_residual _ _)
    have hhead : (vs.headD []).length = n := by
      cases vs with
      | nil => exact absurd (length_eq_zero_iff.mp (hcount ▸ hlen.symm)) hne
      | cons v vs => exact hall v mem_cons_self
    rw [hhead] at htuple
    rw [length_of_mem_columnsOf hall htuple, hlen, hcount, hlength]

end Folds

/-! ## Vectors that are written out -/

/-- Whether the formula is a literal, an input cell or a table of a section. -/
def Expr.isElement (book : Workbook) : Expr → Bool
  | constant .. | subSection .. => true
  | cell a => (book.get a).input
  | _ => false

/-- The formula writes out literals, input cells and tables of sections. -/
def Expr.Lists (book : Workbook) (e : Expr) : Prop :=
  e.isVector = true ∧ ∀ c ∈ e.children, ∃ x, c = some x ∧ x.isElement book = true

section Elements

variable {opt : Optimizer} {book : Workbook} {e : Expr} {A : List Address → Prop}

/-- Ahead of the run every element counts as one. -/
theorem length_flatten_of_isElement (he : e.isElement book = true)
    (h : GivesAmid A L U b (opt.walkDeep book n origin e) o) : o.expr.flatten.length = 1 := by
  have h := gives_walkDeep (P := fun _ _ _ => True) (fun _ _ _ _ _ => trivial) h
  cases e with
  | constant v t =>
    cases h
    rfl
  | cell a =>
    cases h with
    | cell ho =>
      have hinput : (book.get a).input = true := he
      cases ho with
      | input => rfl
      | _ => simp_all [Optimizer.site]
  | subSection s es =>
    cases h with
    | subSection _ ho =>
      obtain ⟨_, ⟨⟩, rfl⟩ := ho
      rfl
  | _ => cases he

theorem length_flattenChildren_of_one {R : Giving}
    (hes : ∀ c ∈ es, ∃ x, c = some x ∧ ∀ o, R x o → o.expr.flatten.length = 1)
    (h : Forall₂ (Becomes R) es es') : (flattenChildren es').length = es.length := by
  induction h with
  | nil => rfl
  | cons hc _ ih =>
    have hes := forall_mem_cons.mp hes
    obtain ⟨x, rfl, hx⟩ := hes.1
    obtain ⟨o, ho, rfl⟩ := hc
    rw [flattenChildren, length_append, ih hes.2, hx o ho, length_cons]
    omega

/-- Ahead of the run a vector is as long as it has elements. -/
theorem elements?_of_lists (he : e.Lists book)
    (h : GivesAmid A L U b (opt.walkDeep book n origin e) o) :
    ∃ es, o.elements? = some es ∧ (flattenOutcomes es).length = e.children.length := by
  have h := gives_walkDeep (P := fun _ x o => x.isElement book = true → o.expr.flatten.length = 1)
    (fun _ _ _ _ hx hp => length_flatten_of_isElement hp hx) h
  have hlength {es : Children} {os : List Outcome}
      (hes : ∀ c ∈ es, ∃ x, c = some x ∧ x.isElement book = true)
      (hos : Forall₂ (Child fun x o => x.isElement book = true →
        o.expr.flatten.length = 1) (trimmed es) os) :
      (flattenOutcomes ((keepMissing es os).map ofChild)).length = es.length := by
    rw [flattenOutcomes_map_ofChild]
    refine length_flattenChildren_of_one (fun c hc => ?_) (becomes_keepMissing_trimmed hos)
    obtain ⟨x, rfl, hx⟩ := hes c hc
    exact ⟨x, rfl, fun o ho => ho hx⟩
  obtain ⟨hvector, hes⟩ := he
  cases h with
  | range hos ho => exact ⟨_, by rw [rebuilt_range ho]; rfl, hlength hes hos⟩
  | splice hos ho =>
    obtain ⟨r, hr, rfl⟩ := ho
    cases hr
    exact ⟨_, rfl, hlength hes hos⟩
  | _ => cases hvector

/-- In a run a vector has as many leaves as it has elements, if each element has one. -/
theorem length_leaves_of_lists {ev : Runner} {env : Env} {y : Yield} (he : e.Lists book)
    (hsingle : ∀ x z, some x ∈ e.children → ev.Runs env x z → z.leaves.length = 1)
    (h : ev.Runs env e y) : y.leaves.length = e.children.length := by
  have hlength {es : Children} {ys : List Yield}
      (hes : ∀ c ∈ es, ∃ x, c = some x ∧ x.isElement book = true)
      (hone : ∀ x z, some x ∈ es → ev.Runs env x z → z.leaves.length = 1)
      (hys : Forall₂ (ChildYields (ev.Runs env)) es ys) :
      (ys.flatMap Yield.leaves).length = es.length := by
    induction hys with
    | nil => rfl
    | cons hy _ ih =>
      have hes := forall_mem_cons.mp hes
      obtain ⟨x, rfl, _⟩ := hes.1
      rw [flatMap_cons, length_append, hone x _ mem_cons_self hy,
        ih hes.2 fun x z hx => hone x z (mem_cons_of_mem _ hx), length_cons]
      omega
  obtain ⟨hvector, hes⟩ := he
  cases e with
  | range rows cols es =>
    obtain ⟨ys, hys, rfl⟩ := runs_range.mp h
    have hleaves : (Yield.one (.grid rows cols (ys.map Yield.single))).leaves =
        ys.flatMap Yield.leaves := by
      simp [Yield.leaves, Yield.items, leavesOf, leaves_grid, leavesOf_map_single]
    rw [hleaves]
    exact hlength hes hsingle hys
  | splice es =>
    obtain ⟨ys, hys, rfl⟩ := runs_splice.mp h
    rw [Yield.leaves, Yield.items, leavesOf_flatMap_items]
    exact hlength hes hsingle hys
  | _ => cases hvector

end Elements

/-! ## Folds over them -/

theorem FoldDef.map_parts {α β : Type} (d : FoldDef α) (f : α → β) :
    (d.map f).parts = d.parts.map f := by
  cases hmerge : d.merge <;> cases hempty : d.whenEmpty <;>
    simp [parts, present, List.reduceOption_map, hmerge, hempty]

section Rejected

variable {ev : Evaluator} {opt : Optimizer}

/-- A fold over vectors that are written out with as many elements each does not complain about a
shape, unless a part of it does. -/
theorem shapely_foldVectors {book : Workbook}
    (hlists : ∀ c ∈ vectors, ∃ x, c = some x ∧ x.Lists book)
    (hparts : ∀ p ∈ (Expr.foldVectors d seeds folded vectors t).parts,
      Shapely (opt.walkDeep book n origin p))
    (hne : vectors ≠ []) (hlen : vectors.length = d.elementNames.length) {k : Nat}
    (hk : ∀ x, some x ∈ vectors → x.children.length = k) :
    Shapely (opt.walkDeep book n origin (.foldVectors d seeds folded vectors t)) := by
  have hw : walk (opt.site book origin) (opt.enter book n) = opt.walkDeep book n origin :=
    funext fun e => (opt.walkDeep_eq book n origin e).symm
  simp only [parts, mem_append, mem_present] at hparts
  rw [opt.walkDeep_eq, walk, walkDef_eq, walkSeeds_eq, walkAll_eq, resume_eq, hw]
  refine shapely_foldVectorsForm (fun act hact => ?_) (fun act hact => ?_) (fun act hact => ?_)
    (by simpa using hne) (by simpa [planOf] using hlen) (n := k) fun s os s' hos => ?_
  · obtain ⟨p, hp, rfl⟩ := mem_map.mp (d.map_parts _ ▸ hact)
    exact hparts p (.inl (.inl hp))
  · obtain ⟨c, hc, hact⟩ := mem_map.mp hact
    obtain ⟨p, rfl, rfl⟩ := map_eq_some_iff.mp hact
    exact hparts p (.inl (FoldDef.mem_parts_of_mem_start d hc))
  · obtain ⟨c, hc, hact⟩ := mem_map.mp hact
    obtain ⟨p, rfl, rfl⟩ := map_eq_some_iff.mp hact
    exact hparts p (.inr hc)
  · have hframes (x : Expr) : Frames book (Earned (fun _ => True) book) False s.bindings
        (opt.walkDeep book n origin x) := frames_walkDeep_open trivial n origin x s.bindings
    have hos := (holds_runAll (A := True) fun x _ => holds_gives (hframes x)).of_gives trivial
      (gives_of_ok hos)
    refine ⟨by simpa using hos.length_eq.symm, fun o ho => ?_⟩
    obtain ⟨c, hc, ho⟩ := exists_of_forall₂_of_mem hos ho
    obtain ⟨x, rfl, hx⟩ := hlists c hc
    rw [← hk x hc]
    exact elements?_of_lists (A := fun _ => True) hx ho

/-- **A fold over vectors that is rejected for its shape fails in every run in which each element
comes to one value**, if its parts are not rejected for a shape by themselves. -/
theorem evaluate_of_optimize_mismatch
    (hlists : ∀ c ∈ vectors, ∃ x, c = some x ∧ x.Lists ev.book)
    (hparts : ∀ p ∈ (Expr.foldVectors d seeds folded vectors t).parts,
      Shapely (opt.walkDeep ev.book ev.book.cells.length origin p))
    (hsingle : ∀ x, some x ∈ vectors → ∀ y z, some y ∈ x.children →
      ev.Runs ev.book.cells.length [] (.start origin) y z → z.leaves.length = 1)
    {s s' : WalkState} {f : Fault} (hf : f.isOf .shapeMismatch = true)
    (h : opt.optimize ev.book (some (.foldVectors d seeds folded vectors t)) origin s =
      .error f s') :
    ∃ g visited, ev.evaluate (some (.foldVectors d seeds folded vectors t)) origin [] =
      .error g visited := by
  refine evaluate_fails_iff.mpr fun y hy => ?_
  cases runs_iff.mp hy with
  | foldVectors hy =>
  obtain ⟨hne, hlen, hys, hn, -, -, -⟩ := hy
  rename_i k
  have hk (x : Expr) (hx : some x ∈ vectors) : x.children.length = k := by
    obtain ⟨z, hz, hxz⟩ := exists_of_forall₂_of_mem hys.flip hx
    obtain ⟨_, ⟨⟩, hlists⟩ := hlists _ hx
    rw [← hn z hz]
    exact (length_leaves_of_lists hlists (hsingle x hx) hxz).symm
  obtain ⟨t', ht⟩ := exists_walkDeep_of_optimize_error h hf
  have hshapely := shapely_foldVectors hlists hparts hne hlen hk _ f t' ht
  exact Bool.false_ne_true (hshapely.symm.trans hf)

end Rejected

namespace MismatchExample

open Sample KeptExample

def vectors : List Expr := [.range 1 1 [some (.cell (cellAt 1))],
  .range 1 2 [some (text "b"), some (text "c")]]

/-- The last element of the first of two vectors. -/
def lopsided : Expr := .foldVectors ⟨[⟨"acc", some (text ""), .letVar "x" .unknown⟩],
  some ["x", "y"], "", "", none, none, false⟩ [] 0 (vectors.map some) .string

/-- The evaluator in which the input has the given value. -/
def given (v : Value) : Evaluator := ⟨engine, ⟨[input], []⟩, ⟨[(cellAt 1, v)], []⟩⟩

theorem spares_range (hes : ∀ x, some x ∈ es → Shapely ((optimizer true).walkDeep book 1 none x)) :
    Shapely ((optimizer true).walkDeep book 1 none (.range rows cols es)) := by
  rw [Optimizer.walkDeep_eq, walk, walkAll_eq, rebuildForm, trimmed_map]
  refine (spares_runAll fun act hact => ?_).then fun _ => spares_residual _ _
  obtain ⟨c, hc, hact⟩ := mem_map.mp hact
  obtain ⟨x, rfl, rfl⟩ := map_eq_some_iff.mp hact
  rw [← Optimizer.walkDeep_eq]
  exact hes x (mem_of_mem_trimmed hc)

theorem spares_parts : ∀ p ∈ lopsided.parts,
    Shapely ((optimizer true).walkDeep (given .null).book 1 none p) := by
  have hname : Shapely ((optimizer true).walkDeep (given .null).book 1 none
      (.letVar "x" .unknown)) := by
    rw [Optimizer.walkDeep_eq, walk]
    refine (spares_naming _).then fun o => ?_
    cases o with
    | some o => exact spares_pure o
    | none => exact spares_dynamic _
  have htext (s : String) :
      Shapely ((optimizer true).walkDeep (given .null).book 1 none (text s)) :=
    spares_pure _
  have hcell : Shapely ((optimizer true).walkDeep (given .null).book 1 none (.cell (cellAt 1))) :=
    spares_of_ok fun s => ⟨_, s, rfl⟩
  simpa [lopsided, vectors, parts, FoldDef.parts, FoldDef.inits, FoldDef.steps, present,
    htext, hname] using ⟨spares_range (by simpa using hcell), spares_range (by simp [htext])⟩

end MismatchExample

open Sample KeptExample MismatchExample in
/-- One element against two, of which the first is an input with a single value. -/
theorem evaluate_of_optimize_mismatch_single : ∃ g visited,
    (given (.text "a")).evaluate (some lopsided) none [] = .error g visited := by
  obtain ⟨f, s', hf, hr⟩ : ∃ f s', f.isOf .shapeMismatch = true ∧ (optimizer true).optimize
      (given (.text "a")).book (some lopsided) none .initial = .error f s' := ⟨_, _, rfl, rfl⟩
  refine evaluate_of_optimize_mismatch (fun c hc => ?_) spares_parts
    (fun x hx y z hy hz => ?_) hf hr
  · obtain ⟨x, hx, rfl⟩ := List.mem_map.mp hc
    refine ⟨x, rfl, ?_⟩
    obtain rfl | rfl : x = _ ∨ x = _ := by simpa [vectors] using hx
    · exact ⟨rfl, by simp [Expr.children, Expr.isElement, given, input, Workbook.get,
        Workbook.find?]⟩
    · exact ⟨rfl, by simp [Expr.children, Expr.isElement, text]⟩
  · obtain rfl | rfl : x = _ ∨ x = _ := by simpa [vectors] using hx
    · obtain rfl : y = .cell (cellAt 1) := by simpa [Expr.children] using hy
      cases hz
      rfl
    · obtain rfl | rfl : y = text "b" ∨ y = text "c" := by simpa [Expr.children] using hy
      all_goals
        cases hz
        rfl

open Sample KeptExample MismatchExample in
/-- **An array makes up for the difference.**  The fold is rejected, but in a run the input has two
values. -/
theorem evaluate_of_optimize_mismatch_array :
    (∃ f s', f.isOf .shapeMismatch = true ∧ (optimizer true).optimize (given .null).book
      (some lopsided) none .initial = .error f s') ∧
    (given (.array 1 2 [.text "5", .text "6"])).evaluate (some lopsided) none [] =
      .ok (.text "6") [] :=
  ⟨⟨_, _, rfl, rfl⟩, rfl⟩

end FormulaFold
