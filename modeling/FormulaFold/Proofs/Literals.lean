import FormulaFold.Proofs.GrantedFolds
import FormulaFold.Proofs.Preservation

/-! # Literal formulas

A formula without references and sub-sections has nothing to wait for.  Folding it gives its value,
unless a computation is refused or the formula fails in a run (`optimize_literal`).

`Expr.Literal` says which formulas these are.  They stand where they may, as sorted formulas do;
their folds need not go through their elements in order.
-/
namespace FormulaFold

open Walk Walk.Contract

namespace Expr

/-! ## Formulas without references -/

/-- The parts of a formula that are walked, each with the place where it stands. -/
def placed (place : Place) : Expr → List (Place × Expr)
  | constant .. | cell _ | letVar .. | count .. => []
  | operator _ args _ => (present args).map (.argument, ·)
  | call fn args _ => (present args).map (argumentPlace (ofName? fn), ·)
  | range _ _ elements => (present elements).map (place.inRange, ·)
  | splice elements => (present elements).map (place.inSplice, ·)
  | letIn _ value body => (present [value, body]).map (.scalar, ·)
  | switch selector cases otherwise _ =>
    (present (selector :: otherwise :: cases.map (·.branch))).map (.scalar, ·)
  | switchCase c => (present [c.branch]).map (.scalar, ·)
  | fold _ d seeds _ elements _ | foldVectors d seeds _ elements _ =>
    (d.parts ++ seeds).map (.scalar, ·) ++ (present elements).map (.element, ·)
  | reduce d seed _ elements _ =>
    (d.parts ++ present [seed]).map (.scalar, ·) ++ (present elements).map (.element, ·)
  | foldArray d array _ => d.parts.map (.scalar, ·) ++ (present [array]).map (.element, ·)
  | foldTable d seeds _ _ filter _ table _ =>
    (d.parts ++ seeds ++ present [filter]).map (.scalar, ·) ++ (present [table]).map (.argument, ·)
  | parentSection _ inner => (present [inner]).map (.scalar, ·)
  | subSection _ elements => (present elements).map (.scalar, ·)

/-- Whether a fold may start: all first values are there, or the first element is the only one. -/
def startsFull (inits : Children) : Bool :=
  inits.length == 1 || inits.all (·.isSome)

/-- What is asked of a node beside its parts. -/
def isLiteralAt (plain : Bool) (place : Place) : Expr → Bool
  | constant v _ => v.fits plain
  | call fn args _ => fitsCall args (ofName? fn)
  | range rows cols elements =>
    place.takesRange rows cols elements.length && elements.all (·.isSome)
  | splice elements => place.takesSplice && elements.all (·.isSome)
  | fold _ d seeds _ _ _ | foldTable d seeds _ _ _ _ _ _ => startsFull (d.start seeds)
  | foldVectors d seeds _ vectors _ =>
    startsFull (d.start seeds) && vectors.all (·.any isVector)
  | foldArray d _ _ => startsFull d.inits
  | count _ args => !anySubSection args
  | operator .. | letIn .. | letVar .. | switch .. | reduce .. | parentSection .. => true
  | cell _ | subSection .. | switchCase _ => false

/-- Whether a formula without references and sub-sections may stand at the place. -/
inductive Literal (plain : Bool) : Place → Expr → Prop
  | node {place : Place} {e : Expr} (hnode : e.isLiteralAt plain place = true)
      (hparts : ∀ p ∈ e.placed place, Literal plain p.1 p.2) : Literal plain place e

/-- Whether the node is a `ROW` or a `COLUMN`. -/
def isPosition : Expr → Bool
  | call fn _ _ => ofName? fn == some .row || ofName? fn == some .column
  | _ => false

/-- What `INDEX` selects from a written range is rounded by a run only, and what `ROW` and `COLUMN`
give only ahead of it.  A steady node is none of these, unless rounding does not change it. -/
structure Steady (engine : Engine) (plain : Bool) (x : Expr) : Prop where
  ranges : plain = false → x.indexesRange = false
  positions : 0 < engine.precision → x.isPosition = false

theorem mem_parts_of_mem_placed {place : Place} {e : Expr} {p : Place × Expr}
    (h : p ∈ e.placed place) : p.2 ∈ e.parts := by
  cases e <;> simp [placed, parts] at h ⊢ <;> grind

end Expr

/-! ## Nodes -/

/-- What is granted of the outcome of a formula: where the formula is literal, it stands for what
the formula yields. -/
def Runner.Grants (ev : Runner) (plain : Bool) (origin : Option Address) (b : Bindings) (e : Expr)
    (o : Outcome) : Prop :=
  ∀ place, e.Literal plain place → (∀ x : Expr, x.OccursIn e → x.Steady ev.engine plain) →
    ev.Shows plain origin place b e o

variable {ev : Runner} {b : Bindings} {site : Site}

theorem exists_eq_map_some (h : es.all (·.isSome) = true) :
    ∃ xs : List Expr, es = xs.map some := by
  induction es with
  | nil => exact ⟨[], rfl⟩
  | cons e es ih =>
    rw [all_cons, and_eq_true] at h
    obtain ⟨x, rfl⟩ := isSome_iff_exists.mp h.1
    obtain ⟨xs, rfl⟩ := ih h.2
    exact ⟨x :: xs, rfl⟩

theorem startsFull_iff :
    Expr.startsFull inits = true ↔ inits = [none] ∨ none ∉ inits := by
  rcases inits with _ | ⟨_ | x, _ | ⟨y, rest⟩⟩ <;> simp [Expr.startsFull, Option.isSome_iff_ne_none]
  grind

section Calls

variable (hengine : site.engine = ev.engine) (hprecision : plain = true → ev.engine.precision ≤ 0)
include hengine hprecision

theorem stands_of_callGives {fn : String} {args : Children} {t : DataType}
    {R : Giving} {env : Env} {y : Yield} (hfits : fitsCall args (ofName? fn) = true)
    (hsteady : (Expr.call fn args t).Steady ev.engine plain)
    (hargs : ∀ x o, some x ∈ args → R x o →
      ev.Shows plain site.origin (argumentPlace (ofName? fn)) b x o)
    (helements : ∀ rows cols elements rest, ofName? fn = some .index →
      args = some (.range rows cols elements) :: rest → ∀ x o, some x ∈ elements → R x o →
        ev.Shows plain site.origin .scalar b x o)
    (ho : CallGives True site R fn args t o (ofName? fn))
    (henv : b.Agrees plain site.origin env) (hy : ev.Runs env (.call fn args t) y) :
    o.Stands plain .scalar y := by
  have hposition (hpos : (Expr.call fn args t).isPosition = true) : ev.engine.precision ≤ 0 := by
    by_contra hlt
    rw [hsteady.positions (by omega)] at hpos
    cases hpos
  have hcompute {os : List Outcome} (hif : ofName? fn ≠ some .ifElse)
      (hargs : ∀ x o, some x ∈ args → R x o → ev.Shows plain site.origin .argument b x o)
      (hos : Forall₂ (Child R) (trimmed args) os)
      (ho : (∀ o ∈ os, o.isConstant = true) → ∃ v t,
        ev.engine.call fn (Outcome.values os) = .ok v ∧ o = .known (site.engine.adjust v) t)
      (hy : ComputedYields ev.engine (ev.Runs env) (ev.engine.call fn) args y) :
      o.Stands plain .scalar y :=
    stands_of_computes hengine (fun _ _ hvs hv => fits_of_call hprecision hif hvs hv)
      (forall₂_child_imp (fun x o hx => hargs x o (mem_of_mem_trimmed hx)) hos) ho henv hy
  have hother (hif : ofName? fn ≠ some .ifElse)
      (hargs : ∀ x o, some x ∈ args → R x o → ev.Shows plain site.origin .argument b x o)
      (ho : ∃ os, Forall₂ (Child R) (trimmed args) os ∧
        Settles True site (.call fn args t) (fun args => if site.engine.isVolatile fn then
          .error (.volatile fn) else site.engine.call fn args) os o)
      (hy : ComputedYields ev.engine (ev.Runs env) (ev.engine.call fn) args y) :
      o.Stands plain .scalar y := by
    obtain ⟨os, hos, ho⟩ := ho
    refine hcompute hif hargs hos (fun hconst => ?_) hy
    obtain ⟨v, u, hv, rfl⟩ := ho.exists_computed hconst
    split at hv
    · cases hv
    · rw [hengine] at hv
      exact ⟨v, u, hv, rfl⟩
  have hruns := runs_call_iff.mp hy
  rcases hf : ofName? fn with _ | f
  · rw [hf] at hargs ho hruns
    exact hother (by rw [hf]; simp) hargs ho hruns
  rw [hf] at hargs hfits ho hruns
  cases f
  case ifElse =>
    obtain ⟨condition, branches, rfl⟩ := exists_condition_of_fitsCall hfits
    obtain ⟨condition, branches, c, heq, hc, ho⟩ | ⟨hne, _⟩ := ho
    · cases heq
      have ho := ho.imp fun x o hx => hargs x o (mem_cons_of_mem _ hx)
      exact stands_of_if henv hf (hargs _ _ mem_cons_self hc) ho hy
    · exact absurd rfl (hne _ _)
  case and | or =>
    obtain ⟨r, hr, ho⟩ := ho
    exact stands_of_bool henv hengine (hr.imp fun x o hx => hargs x o (mem_of_mem_trimmed hx)) ho
      hruns
  case index =>
    refine stands_of_selection hengine hprecision hf henv hruns hargs
      (fun rows cols elements rest heq => ⟨?_, helements rows cols elements rest hf heq⟩) ho
    cases hplain : plain with
    | true => rfl
    | false =>
      subst heq
      have hindex := hsteady.ranges hplain
      rw [Expr.indexesRange, hf] at hindex
      cases hindex
  case concatenate =>
    obtain ⟨os, hos, rfl, hkept⟩ := ho
    refine hcompute (by rw [hf]; simp) hargs hos (fun hconst => ?_) hruns
    rw [← call_eq_of_ofName? hf, ← hengine]
    exact exists_concatenated hconst (hkept trivial (all_eq_true.mpr hconst))
  case row | column =>
    exact stands_of_position hengine (hposition (by rw [Expr.isPosition, hf]; rfl)) ho henv hruns
  all_goals exact hother (by rw [hf]; simp) hargs ho hruns

/-- **What is granted of the parts of a formula is granted of the formula.** -/
theorem grants_of_nodeGives {C : Address → Outcome → Prop} {e : Expr}
    (h : NodeGives True site C (ev.Grants plain site.origin) b e o) :
    ev.Grants plain site.origin b e o := by
  rintro place ⟨hnode, hliteral⟩ hsteady env y henv hy
  have hpart (q : Place) {x : Expr} (hx : (q, x) ∈ e.placed place) {b : Bindings} {o : Outcome}
      (ho : ev.Grants plain site.origin b x o) :
      ev.Shows plain site.origin q b x o :=
    ho q (hliteral _ hx) fun z hz => hsteady z (hz.tail (Expr.mem_parts_of_mem_placed hx))
  have hruns := runs_iff.mp hy
  cases h with
  | constant =>
    cases hruns
    exact stands_constant _ hnode
  | operator hos ho =>
    cases hruns with
    | operator hruns =>
      refine (stands_of_computes hengine (fun vs v _ hv => ?_)
        (forall₂_child_imp (fun x o hx => hpart .argument ?_) hos) ho.exists_computed henv
          hruns).of_scalar place
      · exact Engine.fits_adjust hprecision (Op.isArray_of_compute hv)
      · simpa [Expr.placed] using mem_of_mem_trimmed hx
  | @call fn args t _ ho =>
    refine (stands_of_callGives hengine hprecision hnode (hsteady _ .refl)
      (fun x o hx => hpart _ ?_)
      (fun rows cols elements rest hf heq x o hx hxo => ?_) ho henv hy).of_scalar place
    · simpa [Expr.placed] using hx
    · have hrange : (Place.argument, Expr.range rows cols elements) ∈
          (Expr.call fn args t).placed place := by
        simp [Expr.placed, hf, argumentPlace, heq]
      obtain ⟨_, hinner⟩ := hliteral _ hrange
      have hx : (Place.scalar, x) ∈ (Expr.range rows cols elements).placed .argument := by
        simpa [Expr.placed, Place.inRange] using hx
      exact hxo _ (hinner _ hx) fun z hz => hsteady z
        ((hz.tail (Expr.mem_parts_of_mem_placed hx)).tail (Expr.mem_parts_of_mem_placed hrange))
  | range hos ho =>
    rw [Expr.isLiteralAt, and_eq_true] at hnode
    obtain ⟨xs, rfl⟩ := exists_eq_map_some hnode.2
    refine stands_of_range henv (by simpa using hnode.1)
      (forall₂_child_imp (fun x o hx => hpart place.inRange ?_) hos) ho hy
    simpa [Expr.placed] using mem_of_mem_trimmed hx
  | splice hos ho =>
    rw [Expr.isLiteralAt, and_eq_true] at hnode
    obtain ⟨xs, rfl⟩ := exists_eq_map_some hnode.2
    refine stands_of_splice henv hnode.1
      (forall₂_child_imp (fun x o hx => hpart place.inSplice ?_) hos) ho hy
    simpa [Expr.placed] using mem_of_mem_trimmed hx
  | letIn hv hr ho =>
    exact (stands_of_letIn henv (hpart .scalar (by simp [Expr.placed]) hv)
      (hpart .scalar (by simp [Expr.placed]) hr) ho hy).of_scalar place
  | letVar ho => exact (stands_of_name henv ho hy).of_scalar place
  | letVarLeft ho => exact absurd ho (henv.defined _)
  | switch hx ho =>
    refine (stands_of_switch henv (hpart .scalar (by simp [Expr.placed]) hx)
      (ho.imp fun x hx => hpart .scalar ?_) hy).of_scalar place
    rcases mem_branches_of_chosenBranch hx with hx | hx
    · simpa [Expr.placed] using .inr (.inr (mem_map.mp hx))
    · simp [Expr.placed, hx]
  | switchLeft hx =>
    obtain ⟨k, hk, _⟩ := runs_switch_iff.mp hy
    obtain ⟨_, _, heq, _⟩ := (hpart .scalar (by simp [Expr.placed]) hx env k henv hk).fits.1
    cases heq
  | count ho =>
    exact (stands_of_count (by simpa [Expr.isLiteralAt] using hnode) ho hy).of_scalar place
  | parentSection hr ho =>
    exact (stands_of_parentSection henv (hpart .scalar (by simp [Expr.placed]) hr) ho
      hy).of_scalar place
  | @fold _ d _ _ _ _ _ _ hos ho =>
    cases hruns with
    | fold hruns =>
      refine (stands_of_elementsGive (fun x hx b o => hpart .scalar ?_) (startsFull_iff.mp hnode)
        (fun x o hx => hpart .scalar ?_) henv
          (forall₂_child_imp (fun x o hx => hpart .element ?_) hos) ho hruns).of_scalar place
      · simp [Expr.placed, hx]
      · simpa [Expr.placed] using FoldDef.mem_parts_of_mem_start d hx
      · simp [Expr.placed, hx]
  | @reduce _ seed _ _ _ _ _ hos ho =>
    cases hruns with
    | reduce hruns =>
      have hinits : [seed] = [none] ∨ none ∉ [seed] := by cases seed <;> simp
      refine (stands_of_elementsGive (fun x hx b o => hpart .scalar ?_) hinits
        (fun x o hx => hpart .scalar ?_) henv
          (forall₂_child_imp (fun x o hx => hpart .element ?_) hos) ho hruns).of_scalar place
      · simp [Expr.placed, hx]
      · simp [Expr.placed, mem_singleton.mp hx]
      · simp [Expr.placed, hx]
  | foldArray ha ho =>
    cases hruns with
    | foldArray hruns =>
      refine (stands_of_arrayGives (fun x hx b o => hpart .scalar ?_) (startsFull_iff.mp hnode)
        (fun x o hx => hpart .scalar ?_) henv rfl (ha.imp fun x hx => hpart .element ?_) ho
          hruns).of_scalar place
      · simp [Expr.placed, hx]
      · simp [Expr.placed, FoldDef.parts, hx]
      · simp [Expr.placed, hx]
  | @foldVectors d _ _ _ _ _ _ hos _ _ ho =>
    rw [Expr.isLiteralAt, and_eq_true] at hnode
    cases hruns with
    | foldVectors hruns =>
      refine (stands_of_vectorsGive (fun x hx b o => hpart .scalar ?_) (startsFull_iff.mp hnode.1)
        (fun x o hx => hpart .scalar ?_) henv (fun e he => ?_)
          (forall₂_child_imp (fun x o hx => hpart .element ?_) hos) ho hruns).of_scalar place
      · simp [Expr.placed, hx]
      · simpa [Expr.placed] using FoldDef.mem_parts_of_mem_start d hx
      · have hvector := all_eq_true.mp hnode.2 e he
        cases e with
        | none => cases hvector
        | some x => exact ⟨x, rfl, hvector⟩
      · simp [Expr.placed, hx]
  | @foldTable d _ _ _ _ _ _ _ _ _ ha ho =>
    cases hruns with
    | foldTable hruns =>
      refine (stands_of_tableGives (fun x hx b o => hpart .scalar ?_) (startsFull_iff.mp hnode)
        (fun x o hx => hpart .scalar ?_) henv (fun x hx b o => hpart .scalar ?_)
          (ha.imp fun x hx => hpart .argument ?_) ho hruns).of_scalar place
      · simp [Expr.placed, hx]
      · simpa [Expr.placed, or_assoc] using (FoldDef.mem_parts_of_mem_start d hx).imp_right .inl
      · simp [Expr.placed, hx]
      · simp [Expr.placed, hx]
  | cell | subSection | switchCase => cases hnode

/-- **What the walk of a literal formula gives stands for what the formula yields**, if the walk
refuses nothing. -/
theorem holds_grants {E : Memo → Prop} {enter : Address → Expr → Action} (hE : Earns E site enter)
    (henter : ∀ a f, Frames site.book E False .empty (enter a f)) (e : Expr) : ∀ b : Bindings,
      (quietly site.book E).Holds True b (e.walk site enter)
        (ev.Grants plain site.origin b e) := by
  induction e using induction_on_parts with
  | step e ih =>
    intro b
    refine (holds_walk (J := quietly site.book E) (C := fun _ _ => True)
      (fun b' x hx => ih x hx.inside b') (fun a _ => ?_) False.elim).imp fun o _ ho => ?_
    · exact holds_framing (frames_cellForm hE fun f _ => henter a f)
    · exact grants_of_nodeGives hengine hprecision ho

end Calls

/-! ## Folding -/

/-- **Literal formulas fold completely.**  A literal formula is folded into its value, unless a
computation was refused or the formula fails in a run.  Nothing is asked of the workbook, of the
inputs and of what was folded before. -/
theorem optimize_literal (ev : Evaluator) (opt : Optimizer) (hengine : opt.engine = ev.engine)
    {plain : Bool} (hprecision : plain = true → ev.engine.precision ≤ 0) {e : Expr}
    (he : e.Literal plain .scalar) (hsteady : ∀ x : Expr, x.OccursIn e → x.Steady ev.engine plain)
    {origin : Option Address} {r : Outcome} {s s' : WalkState}
    (hr : opt.optimize ev.book (some e) origin s = .ok r s') :
    (∃ v t, r = .known v t ∧ ev.evaluate (some e) origin [] = .ok v []) ∨
      s.stats.refused < s'.stats.refused ∨
        ∃ f visited, ev.evaluate (some e) origin [] = .error f visited := by
  have hsite : (opt.site ev.book origin).engine = ev.engine := hengine
  let J := quietly ev.book (Earned (fun _ => True) ev.book)
  have hwalk : J.Holds True .empty (opt.walkDeep ev.book ev.book.cells.length origin e)
      (ev.atStart.Grants plain origin .empty e) := by
    rw [opt.walkDeep_eq]
    exact holds_grants hsite hprecision (earns_earned trivial origin _) (frames_enter _) e .empty
  cases heval : ev.evaluate (some e) origin [] with
  | error f visited => exact .inr (.inr ⟨f, visited, rfl⟩)
  | ok v visited =>
    by_cases hlt : s.stats.refused < s'.stats.refused
    · exact .inr (.inl hlt)
    obtain ⟨rfl, y, hy, rfl⟩ := evaluate_eq_ok_iff.mp heval
    have hholds := holds_optimize (b := s.bindings) hwalk
    have hle := ((hholds s rfl).1.growth hr).refused
    have hgrants := (hholds.result hr rfl trivial trivial ⟨trivial, fun _ => by omega⟩).2
    have hstands := hgrants .scalar he hsteady _ y (.empty origin) hy
    obtain ⟨⟨v, t, rfl, _⟩, rfl⟩ := hstands.fits
    exact .inl ⟨v, t, rfl, rfl⟩

namespace LiteralExample

open Sample KeptExample

/-- The given texts joined in any order. -/
def joinedAny (elements : List Expr) : Expr :=
  .fold .single ⟨[⟨"acc", some (text ""), join (.letVar "acc" .unknown) (.letVar "x" .unknown)⟩],
    some ["x"], "", "", none, none, true⟩ [] 0 (elements.map some) .string

/-- The second element of a written range. -/
def second (x y : Expr) : Expr :=
  .call "INDEX" [some (.range 1 2 [some x, some y]), some (number 2.0)]
    .unknown

/-- A name for a text, and texts that are joined, one of which is selected. -/
def literal : Expr :=
  .letIn "k" (some (text "c")) (some (joinedAny [text "a", .splice
    [some (second (text "z") (text "b")), some (.letVar "k" .unknown)]]))

section

variable {e : Expr}

theorem literal_leaf (h : e.isLiteralAt plain place = true) (hplaced : e.placed place = []) :
    e.Literal plain place := ⟨h, by simp [hplaced]⟩

theorem literal_one {p : Place × Expr} (h : e.isLiteralAt plain place = true)
    (hplaced : e.placed place = [p]) (hp : p.2.Literal plain p.1) : e.Literal plain place :=
  ⟨h, by simpa [hplaced] using hp⟩

theorem literal_two {p q : Place × Expr} (h : e.isLiteralAt plain place = true)
    (hplaced : e.placed place = [p, q]) (hp : p.2.Literal plain p.1) (hq : q.2.Literal plain q.1) :
    e.Literal plain place :=
  ⟨h, by simpa [hplaced] using ⟨hp, hq⟩⟩

theorem literal_text (s : String) : (text s).Literal plain place :=
  literal_leaf (by cases plain <;> rfl) rfl

theorem literal_second (hx : x.Literal plain .scalar) (hy : y.Literal plain .scalar) :
    (second x y).Literal plain place :=
  literal_two rfl rfl (literal_two rfl rfl hx hy) (literal_leaf (by cases plain <;> decide) rfl)

theorem literal_joinedAny (h : ∀ z ∈ elements, z.Literal plain .element) :
    (joinedAny elements).Literal plain place := by
  have hname (name : String) (place : Place) :
      (Expr.letVar name .unknown).Literal plain place := literal_leaf rfl rfl
  have hstep : (join (.letVar "acc" .unknown) (.letVar "x" .unknown)).Literal plain .scalar :=
    literal_two rfl rfl (hname "acc" _) (hname "x" _)
  refine .node rfl (forall_mem_append.mpr ⟨?_, fun p hp => ?_⟩)
  · exact forall_mem_cons.mpr ⟨literal_text "", forall_mem_cons.mpr ⟨hstep, by simp⟩⟩
  · obtain ⟨z, hz, rfl⟩ := mem_map.mp hp
    exact h z (by simpa using hz)

theorem literal_literal : literal.Literal true .scalar := by
  have hsplice : (Expr.splice [some (second (text "z") (text "b")),
      some (.letVar "k" .unknown)]).Literal true .element :=
    literal_two rfl rfl (literal_second (literal_text "z") (literal_text "b"))
      (literal_leaf rfl rfl)
  refine literal_two rfl rfl (literal_text "c") (literal_joinedAny ?_)
  exact forall_mem_cons.mpr ⟨literal_text "a", forall_mem_cons.mpr ⟨hsplice, by simp⟩⟩

/-- A conjunction that fails unless two formulas are equal. -/
def asserted (x y : Expr) : Expr :=
  .call "AND" [some (.call "IF" [some (.operator .eq [some x, some y] .unknown),
    some (truth true), some (text "abc")] .unknown)] .unknown

theorem literal_asserted (hx : x.Literal plain .argument) (hy : y.Literal plain .argument) :
    (asserted x y).Literal plain place := by
  have hequal : (Expr.operator .eq [some x, some y] .unknown).Literal plain .scalar :=
    literal_two rfl rfl hx hy
  have htrue : (Expr.constant (.bool true) .numeric).Literal plain .scalar :=
    literal_leaf (by cases plain <;> rfl) rfl
  refine literal_one rfl rfl (.node rfl (forall_mem_cons.mpr ⟨hequal, ?_⟩))
  exact forall_mem_cons.mpr ⟨htrue, forall_mem_cons.mpr ⟨literal_text "abc", by simp⟩⟩

end

/-- Negative zero, as it is selected from a written range, has the text of zero. -/
def zeroSelected : Expr := asserted negative (text "0")

/-- The formula stands in the twelfth row. -/
def twelfthRow : Expr := asserted (.call "ROW" [] .unknown) (number 12.0)

theorem literal_zeroSelected : zeroSelected.Literal false .scalar := by
  have hrange : (Expr.range 1 1 [some (number (-0.0))]).Literal false .argument :=
    literal_one rfl rfl (literal_leaf rfl rfl)
  refine literal_asserted (literal_one rfl rfl ?_) (literal_text "0")
  exact literal_two rfl rfl hrange (literal_leaf rfl rfl)

theorem literal_twelfthRow : twelfthRow.Literal false .scalar :=
  literal_asserted (literal_leaf rfl rfl) (literal_leaf rfl rfl)

/-- What is left of both formulas. -/
def leftover : Expr := .call "AND" [some (text "abc")] .unknown

/-- An engine that rounds to one digit. -/
def rounding : Engine := ⟨1, [], ⟨0.0, 0.0⟩⟩

end LiteralExample

open Sample KeptExample LiteralExample in
/-- A fold in any order over a name and a selected element is folded into its value. -/
theorem optimize_literal_joined :
    literal.Literal true .scalar ∧
      (∃ s', s'.stats.refused = 0 ∧ (optimizer true).optimize (evaluator []).book (some literal)
        none .initial = .ok (.known (.text "abc") .string) s') ∧
      (evaluator []).evaluate (some literal) none [] = .ok (.text "abc") [] := by
  obtain ⟨s', hrefused, hr⟩ : ∃ s', s'.stats.refused = 0 ∧ (optimizer true).optimize
      (evaluator []).book (some literal) none .initial = .ok (.known (.text "abc") .string) s' :=
    ⟨_, rfl, rfl⟩
  have hruns : ∃ v, (evaluator []).evaluate (some literal) none [] = .ok v [] := ⟨_, rfl⟩
  refine ⟨literal_literal, ⟨s', hrefused, hr⟩, ?_⟩
  rcases optimize_literal (evaluator []) (optimizer true) rfl (fun _ => Int.le_refl 0)
    literal_literal (fun x _ => ⟨by simp, fun h => absurd h (by decide)⟩) hr with
    ⟨v, t, heq, hv⟩ | hlt | ⟨f, visited, hf⟩
  · cases heq
    exact hv
  · rw [hrefused] at hlt
    cases hlt
  · obtain ⟨v, hv⟩ := hruns
    cases hv.symm.trans hf

open Sample KeptExample LiteralExample in
/-- **Literal formulas that are not folded completely.**  A run settles what is selected from a
written range and leaves the row of a cell as it is, and a walk does it the other way round.
Neither formula fails in a run and nothing is refused, but none of them is folded into a value. -/
theorem optimize_literal_unsteady :
    (zeroSelected.Literal false .scalar ∧
      (evaluator []).evaluate (some zeroSelected) none [] = .ok (.bool true) [] ∧
      ∃ s', s'.stats.refused = 0 ∧ (optimizer true).optimize (evaluator []).book (some zeroSelected)
        none .initial = .ok (.residual leftover) s') ∧
    (twelfthRow.Literal false .scalar ∧
      (Evaluator.mk rounding ⟨[], []⟩ ⟨[], []⟩).evaluate (some twelfthRow) (some (cellAt 12)) [] =
        .ok (.bool true) [] ∧
      ∃ s', s'.stats.refused = 0 ∧ (Optimizer.mk rounding true).optimize ⟨[], []⟩ (some twelfthRow)
        (some (cellAt 12)) .initial = .ok (.residual leftover) s') :=
  ⟨⟨literal_zeroSelected, rfl, ⟨_, rfl, rfl⟩⟩, literal_twelfthRow, rfl, ⟨_, rfl, rfl⟩⟩

end FormulaFold
