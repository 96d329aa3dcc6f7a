import FormulaFold.Proofs.Contracts

/-! # What an action can give

`Walk.Gives L U b x a` says that `x`, run with the names `b` bound, can give `a`, from a state
that remembers at least `L` to one that remembers at most `U`; `Walk.GivesAmid` also says which
cells are being walked meanwhile.  States are gone from this relation.  It is what the contract
`Walk.giving` is about: **whatever is owed under this contract holds of all that an action gives**
(`Contract.Holds.of_gives`).

The rest of this module is about children, and about nodes that are computed from them.
-/
namespace FormulaFold

variable {Q : Outcome → Prop} {P : Prop} {ρ : Type}

/-- What formulas may come to when they are walked. -/
abbrev Giving := Expr → Outcome → Prop

namespace Walk

variable {α : Type}

/-- `x` can give `a` under the names `b`, remembering at least `L` and at most `U`, while the cells
that `A` speaks of are being walked. -/
def GivesAmid (A : List Address → Prop) (L U : Memo) (b : Bindings) (x : Walk α) (a : α) : Prop :=
  ∃ s s', s.bindings = b ∧ A s.active ∧ L.Within s.memo ∧ x s = .ok a s' ∧ s'.memo.Within U

/-- `GivesAmid` whatever cells are being walked. -/
abbrev Gives (L U : Memo) (b : Bindings) (x : Walk α) (a : α) : Prop :=
  GivesAmid (fun _ => True) L U b x a

theorem gives_of_ok (h : x s = .ok a s') :
    Gives s.memo s'.memo s.bindings x a :=
  ⟨s, s', rfl, trivial, .refl _, h, .refl _⟩

variable {E : Memo → Prop} {bound : Prop} {A : List Address → Prop}

/-- The contract of actions that remember at least `L` and at most `U` while the cells that `A`
speaks of are being walked. -/
def giving (book : Workbook) (E : Memo → Prop) (bound : Prop) (A : List Address → Prop)
    (L U : Memo) : Contract book E bound :=
  ⟨fun active m => A active ∧ L.Within m, (·.Within U), False, .trans⟩

/-- The contract that asks for nothing but the frame. -/
def framing (book : Workbook) (E : Memo → Prop) (bound quiet : Prop) : Contract book E bound :=
  ⟨fun _ _ => True, fun _ => True, quiet, fun _ _ => trivial⟩

theorem holds_framing {quiet : Prop} (hx : Frames book E bound b x) :
    (framing book E bound quiet).Holds P b x fun _ => True := by
  refine fun s hs => ⟨hx s hs, fun _ _ _ => ⟨trivial, ?_⟩⟩
  cases x s with
  | ok => trivial
  | error => trivial

/-- What an action gives is owed by it. -/
theorem holds_gives (hx : Frames book E bound b x) :
    (giving book E bound A L U).Holds P b x fun a => GivesAmid A L U b x a := by
  intro s hs
  refine ⟨hx s hs, fun _ hkeeps hcalm => ?_⟩
  have hgrows := (hx s hs).final
  refine ⟨⟨hgrows.active ▸ hkeeps.1, hkeeps.2.trans hgrows.memo⟩, ?_⟩
  have hU := hcalm.allows
  unfold Walk.final at hU
  cases hok : x s with
  | error f s' => trivial
  | ok a s' =>
    rw [hok] at hU
    exact ⟨s, s', hs, hkeeps.1, hkeeps.2, hok, hU⟩

/-- **Whatever is owed of the results of an action holds of all that it gives.** -/
theorem Contract.Holds.of_gives {Q : α → Prop} (hx : (giving book E bound A L U).Holds P b x Q)
    (hP : P) (h : GivesAmid A L U b x a) : Q a := by
  obtain ⟨s, s', hs, hA, hL, hok, hU⟩ := h
  exact (hx.result hok hs hP ⟨hA, hL⟩ ⟨hU, False.elim⟩).2

theorem GivesAmid.within (h : GivesAmid A L U b x a) (hx : Frames book E bound b x) :
    L.Within U := by
  obtain ⟨s, s', hs, hA, hL, hok, hU⟩ := h
  exact hL.trans (((hx s hs).growth hok).memo.trans hU)

end Walk

open Walk Walk.Contract

/-! ## Children -/

/-- How a child that may be missing and what it comes to are related: a missing one comes to
`missing`, any other one is related by `R`. -/
def ChildOr {ρ : Type} (missing : ρ) (R : Expr → ρ → Prop) : Option Expr → ρ → Prop
  | none, r => r = missing
  | some e, r => R e r

/-- `ChildOr` for the outcomes of children, which are blank when missing. -/
abbrev Child (R : Giving) : Option Expr → Outcome → Prop := ChildOr .blank R

theorem ChildOr.imp {R S : Expr → ρ → Prop}
    (hRS : ∀ x, e = some x → R x r → S x r) (h : ChildOr missing R e r) :
    ChildOr missing S e r := by
  cases e with
  | none => exact h
  | some x => exact hRS x rfl h

theorem forall₂_imp_of_mem {α β : Type} {P Q : α → β → Prop} {xs : List α} {ys : List β}
    (hPQ : ∀ x ∈ xs, ∀ y, P x y → Q x y) (h : Forall₂ P xs ys) : Forall₂ Q xs ys := by
  induction h with
  | nil => exact .nil
  | cons hx _ ih =>
    exact .cons (hPQ _ mem_cons_self _ hx) (ih fun x hx => hPQ x (mem_cons_of_mem _ hx))

/-- `List.Forall₂.imp` with the children at hand. -/
theorem forall₂_child_imp {R S : Expr → ρ → Prop} (hRS : ∀ x r, some x ∈ es → R x r → S x r)
    (h : Forall₂ (ChildOr missing R) es rs) : Forall₂ (ChildOr missing S) es rs := by
  refine forall₂_imp_of_mem (fun e he r hr => ?_) h
  exact hr.imp fun x hx => hRS x r (hx ▸ he)

/-- The node around its walked children, as an outcome. -/
def Rebuilt (node : Expr) (os : List Outcome) (o : Outcome) : Prop :=
  ∃ e, node.withChildren (keepMissing node.children os) = .ok e ∧ o = .ofExpr e

/-- The outcome of a node that was computed to `v`. -/
def Site.keep (site : Site) (node : Expr) (v : Value) : Outcome :=
  .constant (site.engine.adjust v)
    (if (site.engine.adjust v).dataType = .unknown then (site.book.typeOf? node).getD .unknown
      else (site.engine.adjust v).dataType)

/-- The outcome of a computation, unless it is left to the run. -/
def Site.kept? (site : Site) (node : Expr) : Except Failure Value → Option Outcome
  | .error _ => none
  | .ok (.number x) => if isFinite x then some (site.keep node (.number x)) else none
  | .ok v => some (site.keep node v)

/-- What trying a computation gives; without a result, the computation was refused. -/
structure Tries (quiet : Prop) (site : Site) (node : Expr) (result : Except Failure Value)
    (r : Option Outcome) : Prop where
  eq : r = site.kept? node result
  loud : r = none → ¬quiet
  expected : r = none → ∀ f, result = .error f → f.expected = true

/-- The second half of `Site.generic`: compute the node when all arguments are constant. -/
def Site.settle (site : Site) (node : Expr) (compute : Computation)
    (args : List Outcome) : Action :=
  if args.all (·.isConstant) then
    site.tryConstant node (compute (Outcome.values args)) >>= fun
      | some o => pure o
      | none => site.residual node args
  else site.residual node args

theorem generic_eq {site : Site} (node : Expr) (compute : Computation)
    (done : List Outcome) (acts : List (Option Action)) :
    site.generic node compute done acts =
      runAll acts >>= fun os => site.settle node compute (done ++ os) := by
  unfold Site.generic Site.settle
  congr 1
  funext os
  dsimp only
  split
  · congr 1
    funext o
    cases o <;> rfl
  · rfl

/-- What computing a node from its walked arguments gives. -/
inductive Settles (quiet : Prop) (site : Site) (node : Expr)
    (compute : Computation) (args : List Outcome) : Outcome → Prop
  | kept {o : Outcome} (hconst : args.all (·.isConstant) = true)
      (hkept : site.kept? node (compute (Outcome.values args)) = some o) :
      Settles quiet site node compute args o
  | left {e : Expr}
      (hleft : args.all (·.isConstant) = true →
        site.kept? node (compute (Outcome.values args)) = none)
      (he : node.withChildren (keepMissing node.children args) = .ok e)
      (hexpected : args.all (·.isConstant) = true →
        ∀ f, compute (Outcome.values args) = .error f → f.expected = true)
      (hloud : args.all (·.isConstant) = true → ¬quiet) :
      Settles quiet site node compute args (.ofExpr e)

section

variable {E : Memo → Prop} {bound : Prop} {J : Contract book E bound} {A : Prop} {site : Site}
  {w : Expr → Action} {R : Giving} {compute : Computation}

theorem holds_runAll (hw : ∀ x, some x ∈ es → J.Holds True b (w x) (R x)) :
    J.Holds A b (runAll (es.map (Option.map w))) (Forall₂ (Child R) es) := by
  induction es generalizing A with
  | nil => exact holds_pure fun _ => .nil
  | cons e es ih =>
    cases e with
    | none =>
      refine (ih fun x hx => hw x (mem_cons_of_mem _ hx)).bind fun os => ?_
      exact holds_pure fun ⟨_, hos⟩ => .cons rfl hos
    | some e =>
      refine (hw e mem_cons_self).any.bind fun o =>
        (ih fun x hx => hw x (mem_cons_of_mem _ hx)).bind fun os => ?_
      exact holds_pure fun ⟨⟨_, ho⟩, hos⟩ => .cons ho hos

theorem holds_runOr {missing : Outcome} (hw : ∀ x, e = some x → J.Holds True b (w x) (R x)) :
    J.Holds A b (runOr missing (e.map w)) (ChildOr missing R e) := by
  cases e with
  | none => exact holds_pure fun _ => rfl
  | some x => exact (hw x rfl).any

/-! ## Computed nodes -/

theorem holds_written (e : Expr) : J.Holds A b (site.written e) fun _ => True := by
  unfold Site.written
  split
  · exact holds_pure fun _ => trivial
  · exact holds_raise rfl

theorem holds_dynamic {e : Expr} (h : A → Q (.ofExpr e)) : J.Holds A b (site.dynamic e) Q :=
  holds_ite (fun _ => holds_raise rfl) fun _ => holds_pure h

theorem holds_residual : J.Holds A b (site.residual node os) (Rebuilt node os) := by
  unfold Site.residual
  split
  · exact holds_dynamic fun _ => ⟨_, ‹_›, rfl⟩
  · exact holds_raise rfl

theorem holds_accept (v : Value) :
    J.Holds A b (Site.tryConstant.accept site node v) (· = some (site.keep node v)) := by
  unfold Site.tryConstant.accept
  refine Holds.bind (holds_tally ?_) fun _ => holds_ite (fun htype => ?_) fun htype => ?_
  · exact fun _ => Nat.le_refl _
  · cases ht : site.book.typeOf? node with
    | some t => exact holds_pure fun _ => by rw [Site.keep, if_pos htype, ht, Option.getD_some]
    | none => exact holds_raise rfl
  · exact holds_pure fun _ => by rw [Site.keep, if_neg htype]

theorem holds_tryConstant :
    J.Holds A b (site.tryConstant node result) (Tries J.quiet site node result) := by
  have hrefuse (event : String → Event) (hkept : site.kept? node result = none)
      (hexpected : ∀ f, result = .error f → f.expected = true) : J.Holds A b (do
        Walk.tally fun s => { s with refused := s.refused + 1 }
        Walk.record (event (← site.written node))
        return none : Walk (Option Outcome)) (Tries J.quiet site node result) := by
    refine holds_refuse.bind fun _ => (holds_written node).bind fun _ =>
      (holds_record _).bind fun _ => holds_pure fun ⟨⟨⟨_, hloud⟩, _⟩, _⟩ => ?_
    exact ⟨hkept.symm, fun _ => hloud, fun _ => hexpected⟩
  have haccept (v : Value) (hkept : site.kept? node result = some (site.keep node v)) :
      J.Holds A b (Site.tryConstant.accept site node v) (Tries J.quiet site node result) := by
    refine (holds_accept v).imp fun r _ hr => ?_
    subst hr
    exact ⟨hkept.symm, nofun, nofun⟩
  unfold Site.tryConstant
  cases result with
  | error f =>
    refine holds_ite (fun hf => hrefuse _ rfl ?_) fun hf => ?_
    · rintro _ ⟨⟩
      exact hf
    · exact holds_raise (by simpa [Fault.isRaised] using hf)
  | ok v =>
    cases v
    case number x =>
      refine holds_ite (fun hx => haccept _ ?_) fun hx => hrefuse _ ?_ nofun
      · simp only [Site.kept?, if_pos hx]
      · simp only [Site.kept?, if_neg hx]
    all_goals exact haccept _ rfl

/-- A computation that is tried, and another action where it is left to the run. -/
theorem holds_tryConstant_or {x : Action} (hkept : ∀ o, A → site.kept? node result = some o → Q o)
    (hx : J.Holds (A ∧ Tries J.quiet site node result none) b x Q) :
    J.Holds A b (site.tryConstant node result >>= fun
      | some o => pure o
      | none => x) Q := by
  refine holds_tryConstant.bind fun r => ?_
  cases r with
  | some o => exact holds_pure fun ⟨hA, hr⟩ => hkept o hA hr.eq.symm
  | none => exact hx

theorem holds_settle :
    J.Holds A b (site.settle node compute os) (Settles J.quiet site node compute os) := by
  refine holds_ite (fun hconst => ?_) fun hconst => holds_residual.imp fun o _ ho => ?_
  · refine holds_tryConstant_or (fun o _ ho => .kept hconst ho) ?_
    refine holds_residual.imp fun o htries ho => ?_
    obtain ⟨e, he, rfl⟩ := ho
    exact .left (fun _ => htries.2.eq.symm) he (fun _ => htries.2.expected rfl)
      fun _ => htries.2.loud rfl
  · obtain ⟨e, he, rfl⟩ := ho
    exact .left (absurd · hconst) he (absurd · hconst) (absurd · hconst)

/-- What is left of the arguments is walked, and the node is computed. -/
theorem holds_generic {done : List Outcome} (hw : ∀ x, some x ∈ es → J.Holds True b (w x) (R x)) :
    J.Holds A b (site.generic node compute done (es.map (Option.map w))) fun o =>
      ∃ os, Forall₂ (Child R) es os ∧ Settles J.quiet site node compute (done ++ os) o := by
  rw [generic_eq]
  exact (holds_runAll hw).bind fun os => holds_settle.imp fun o ⟨_, hos⟩ ho => ⟨os, hos, ho⟩

end

end FormulaFold
