import FormulaFold.Proofs.Monotone

/-! # Outcomes that go the same way

Two walks of one formula may leave different formulas to the run and still take every decision
alike.  What a walk decides on is little: constants, the elements of ranges and splices, and of
any other formula its kind and its data type.  Formulas that are neither constants nor ranges nor
splices may stand for each other if they agree in this (`Agreeable`).  With equality for `Q`, only
equal formulas are alike.
-/
namespace FormulaFold

variable {e e' : Expr} {Q : Expr → Expr → Prop}

/-- When formulas that say nothing of their value may stand for each other: a walk cannot tell
them apart, and neither can it tell apart the nodes around them. -/
structure Agreeable (book : Workbook) (Q : Expr → Expr → Prop) : Prop where
  refl : ∀ e : Expr, e.isOpen = true → Q e e
  isOpen : ∀ e e', Q e e' → e.isOpen = true
  kind : ∀ e e', Q e e' → e'.kind = e.kind
  type : ∀ e e', Q e e' → book.typeOf? e' = book.typeOf? e
  rebuild : ∀ (node : Expr) es es' e e', node.isOpen = true → Expr.AllLike Q es es' →
    node.withChildren es = .ok e → node.withChildren es' = .ok e' → Q e e'

theorem Expr.eq_of_allLike_same (h : AllLike Same es es') : es' = es := by
  rw [allLike_iff] at h
  induction h with
  | nil => rfl
  | cons hx _ ih =>
    rw [ih]
    cases hx with
    | none => rfl
    | some hx => rw [eq_of_like_same _ hx]

theorem agreeable_same (book : Workbook) : Agreeable book Expr.Same where
  refl _ he := ⟨he, rfl⟩
  isOpen _ _ h := h.1
  kind _ _ h := by rw [h.2]
  type _ _ h := by rw [h.2]
  rebuild node es es' e e' hnode hes he he' := by
    rw [Expr.eq_of_allLike_same hes, he] at he'
    cases he'
    exact ⟨Expr.isOpen_of_withChildren hnode he, rfl⟩

namespace Agreeable

variable {book : Workbook} (hQ : Agreeable book Q)
include hQ

theorem like_refl (e : Expr) : e.Like Q e := Expr.like_refl hQ.refl e

theorem kind_eq (h : e.Like Q e') : e'.kind = e.kind := by
  cases e with
  | constant v t => rw [show e' = .constant v t from h]
  | range rows cols elements =>
    obtain ⟨elements', rfl, _⟩ := h
    rfl
  | splice elements =>
    obtain ⟨elements', rfl, _⟩ := h
    rfl
  | _ => exact hQ.kind _ _ ((Expr.like_of_isOpen rfl).mp h)

theorem typeOf?_eq (h : e.Like Q e') :
    book.typeOf? e' = book.typeOf? e := by
  cases e with
  | constant v t => rw [show e' = .constant v t from h]
  | range rows cols elements =>
    obtain ⟨elements', rfl, _⟩ := h
    simp [Workbook.typeOf?, Expr.type?]
  | splice elements =>
    obtain ⟨elements', rfl, _⟩ := h
    simp [Workbook.typeOf?, Expr.type?]
  | _ => exact hQ.type _ _ ((Expr.like_of_isOpen rfl).mp h)

end Agreeable

theorem Expr.kind_eq_switchCase : e.kind = .switchCase ↔ ∃ c, e = .switchCase c := by
  rcases e with _ | _ | _ | _ | _ | _ | _ | _ | _ | c | ⟨_ | _⟩ <;> simp [kind]

theorem Expr.casesOf_of_kind_ne (h : e.kind ≠ .switchCase) (es : Children) :
    casesOf (some e :: es) = .error (.notACase (some e.kind)) := by
  rcases e with _ | _ | _ | _ | _ | _ | _ | _ | _ | c | ⟨_ | _⟩
  case switchCase => exact absurd rfl h
  all_goals rfl

/-! ## Nodes around children that are alike -/

namespace Agreeable

variable {book : Workbook} (hQ : Agreeable book Q)
include hQ

theorem casesOf_like (h : Forall₂ (Option.Rel (Expr.Like Q)) es es') :
    (∃ cs cs', Expr.casesOf es = .ok cs ∧ Expr.casesOf es' = .ok cs') ∨
      ∃ m, Expr.casesOf es = .error m ∧ Expr.casesOf es' = .error m := by
  induction h with
  | nil => exact .inl ⟨[], [], rfl, rfl⟩
  | @cons x x' es es' hx _ ih =>
    cases hx with
    | none => exact .inr ⟨_, rfl, rfl⟩
    | @some e e' he =>
      have hkind := hQ.kind_eq he
      by_cases hcase : e.kind = .switchCase
      · obtain ⟨c, rfl⟩ := Expr.kind_eq_switchCase.mp hcase
        obtain ⟨c', rfl⟩ := Expr.kind_eq_switchCase.mp (hkind.trans hcase)
        rcases ih with ⟨cs, cs', hcs, hcs'⟩ | ⟨m, hm, hm'⟩
        · exact .inl ⟨c :: cs, c' :: cs', by rw [Expr.casesOf, hcs]; rfl,
            by rw [Expr.casesOf, hcs']; rfl⟩
        · exact .inr ⟨m, by rw [Expr.casesOf, hm]; rfl, by rw [Expr.casesOf, hm']; rfl⟩
      · refine .inr ⟨_, Expr.casesOf_of_kind_ne hcase es, ?_⟩
        rw [Expr.casesOf_of_kind_ne (fun h => hcase (hkind.symm.trans h)), hkind]

/-- A node takes children that are alike, or neither. -/
theorem withChildren_takes (node : Expr)
    (h : Forall₂ (Option.Rel (Expr.Like Q)) es es') :
    (∃ e e', node.withChildren es = .ok e ∧ node.withChildren es' = .ok e') ∨
      ∃ m, node.withChildren es = .error m ∧ node.withChildren es' = .error m := by
  have hlen := h.length_eq
  cases node with
  | operator | call | splice | fold | reduce | foldVectors | subSection | count =>
    exact .inl ⟨_, _, rfl, rfl⟩
  | range rows cols elements =>
    simp only [Expr.withChildren, ← hlen]
    split
    · exact .inl ⟨_, _, rfl, rfl⟩
    · exact .inl ⟨_, _, rfl, rfl⟩
  | constant | cell | letVar =>
    rcases h with _ | ⟨_, _⟩
    · exact .inl ⟨_, _, rfl, rfl⟩
    · refine .inr ⟨_, rfl, ?_⟩
      simp_all [Expr.withChildren]
  | letIn =>
    rcases h with _ | ⟨_, _ | ⟨_, _ | ⟨_, _⟩⟩⟩
    · exact .inr ⟨_, rfl, rfl⟩
    · exact .inr ⟨_, rfl, rfl⟩
    · exact .inl ⟨_, _, rfl, rfl⟩
    · refine .inr ⟨_, rfl, ?_⟩
      simp_all [Expr.withChildren]
  | switchCase | foldArray | foldTable | parentSection =>
    rcases h with _ | ⟨_, _ | ⟨_, _⟩⟩
    · exact .inr ⟨_, rfl, rfl⟩
    · exact .inl ⟨_, _, rfl, rfl⟩
    · refine .inr ⟨_, rfl, ?_⟩
      simp_all [Expr.withChildren]
  | switch =>
    rcases h with _ | @⟨selector, selector', _, _, _, _ | @⟨x, x', es, es', hx, hes⟩⟩
    · exact .inr ⟨_, rfl, rfl⟩
    · exact .inr ⟨_, rfl, rfl⟩
    have hcases := hQ.casesOf_like (List.forall₂_take es.length (List.Forall₂.cons hx hes))
    have htake : (x' :: es').take es.length = (x' :: es').dropLast := by
      rw [List.dropLast_eq_take]
      simp_all
    rw [htake, show (x :: es).take es.length = (x :: es).dropLast by
      rw [List.dropLast_eq_take]; rfl] at hcases
    simp only [Expr.withChildren]
    rcases hcases with ⟨cs, cs', hcs, hcs'⟩ | ⟨m, hm, hm'⟩
    · rw [hcs, hcs']
      exact .inl ⟨_, _, rfl, rfl⟩
    · rw [hm, hm']
      exact .inr ⟨m, rfl, rfl⟩

/-- A node around children that are alike. -/
theorem withChildren_like (node : Expr)
    (h : Forall₂ (Option.Rel (Expr.Like Q)) es es') :
    (∃ e e', node.withChildren es = .ok e ∧ node.withChildren es' = .ok e' ∧ e.Like Q e') ∨
      ∃ m, node.withChildren es = .error m ∧ node.withChildren es' = .error m := by
  rcases hQ.withChildren_takes node h with ⟨e, e', he, he'⟩ | herror
  swap
  · exact .inr herror
  refine .inl ⟨e, e', he, he', ?_⟩
  have hall := Expr.allLike_iff.mpr h
  cases node with
  | constant v t =>
    rcases h with _ | ⟨_, _⟩
    · cases he
      cases he'
      exact hQ.like_refl _
    · cases he
  | range rows cols elements =>
    simp only [Expr.withChildren, ← h.length_eq] at he he'
    split at he
    · rw [if_pos ‹_›] at he'
      cases he
      cases he'
      exact ⟨_, rfl, hall⟩
    · rw [if_neg ‹_›] at he'
      cases he
      cases he'
      exact ⟨_, rfl, hall⟩
  | splice elements =>
    cases he
    cases he'
    exact ⟨_, rfl, hall⟩
  | _ =>
    rw [Expr.like_of_isOpen (Expr.isOpen_of_withChildren rfl he)]
    exact hQ.rebuild _ _ _ _ _ rfl hall he he'

/-- A node that takes any children, around children that are alike. -/
theorem node_like (node : Expr)
    (h : Forall₂ (Option.Rel (Expr.Like Q)) es es') (he : node.withChildren es = .ok e)
    (he' : node.withChildren es' = .ok e') : e.Like Q e' := by
  rcases hQ.withChildren_like node h with ⟨x, x', hx, hx', hlike⟩ | ⟨m, hm, _⟩
  · rw [hx] at he
    rw [hx'] at he'
    cases he
    cases he'
    exact hlike
  · rw [hm] at he
    cases he

end Agreeable

theorem forall₂_map_some {α β : Type} {P : α → β → Prop} {xs : List α} {ys : List β}
    (h : Forall₂ P xs ys) :
    Forall₂ (Option.Rel P) (xs.map some) (ys.map some) := by
  rw [forall₂_map_left_iff, forall₂_map_right_iff]
  exact h.imp fun _ _ => .some

/-! ## Outcomes -/

/-- Whether two outcomes are alike up to `Q`. -/
def Outcome.Like (Q : Expr → Expr → Prop) : Outcome → Outcome → Prop
  | known v t, o' => o' = known v t
  | residual e, o' => ∃ e', o' = residual e' ∧ e.Like Q e'

namespace Expr

theorem kind_eq_constant : e.kind = .constant ↔ ∃ v t, e = .constant v t := by
  rcases e with _ | _ | _ | _ | _ | _ | _ | _ | _ | _ | ⟨_ | _⟩ <;> simp [kind]

theorem allAggregate_cons_of_kind_ne (h : e.kind ≠ .constant) (es : Children) :
    allAggregate (some e :: es) = (e.isAggregate && allAggregate es) := by
  rw [allAggregate]
  rintro v t rfl
  exact h rfl

end Expr

namespace Agreeable

variable {book : Workbook} (hQ : Agreeable book Q)
include hQ

theorem isOpen_eq (h : e.Like Q e') : e'.isOpen = e.isOpen :=
  Expr.isOpen_eq_of_kind (hQ.kind_eq h)

theorem isAggregate_eq (e : Expr) : ∀ {e' : Expr}, e.Like Q e' →
    e'.isAggregate = e.isAggregate := by
  induction e using induction_on_parts with
  | step e ih =>
    intro e' h
    have hall {es es' : Children} (hes : ∀ x, some x ∈ es → x ∈ e.parts)
        (h : Expr.AllLike Q es es') : Expr.allAggregate es' = Expr.allAggregate es := by
      rw [Expr.allLike_iff] at h
      induction h with
      | nil => rfl
      | @cons x x' es es' hx _ ih' =>
        have hrest := ih' fun x hx => hes x (mem_cons_of_mem _ hx)
        cases hx with
        | none => rfl
        | @some y y' hy =>
          by_cases hkind : y.kind = .constant
          · obtain ⟨v, t, rfl⟩ := Expr.kind_eq_constant.mp hkind
            rw [show y' = .constant v t from hy]
            exact hrest
          · have hkind' : y'.kind ≠ .constant := fun h => hkind ((hQ.kind_eq hy).symm.trans h)
            rw [Expr.allAggregate_cons_of_kind_ne hkind, Expr.allAggregate_cons_of_kind_ne hkind',
              hrest, ih y (.part (hes y mem_cons_self)) hy]
    cases e with
    | constant v t => rw [show e' = .constant v t from h]
    | range rows cols elements =>
      obtain ⟨elements', rfl, h⟩ := h
      exact hall (fun x hx => by simpa [parts] using hx) h
    | splice elements =>
      obtain ⟨elements', rfl, h⟩ := h
      exact hall (fun x hx => by simpa [parts] using hx) h
    | _ =>
      have hopen := hQ.isOpen_eq h
      cases e' <;> simp [Expr.isOpen] at hopen <;> rfl

end Agreeable

namespace Outcome

variable {o o' : Outcome}

theorem Like.below (h : o.Like Q o') : o.Below o' := by
  cases o with
  | known v t => exact h
  | residual e =>
    obtain ⟨e', rfl, h⟩ := h
    exact below_residual (h.imp e fun _ _ _ _ => trivial)

theorem Like.expr (h : o.Like Q o') : o.expr.Like Q o'.expr := by
  cases o with
  | known v t =>
    cases h
    rfl
  | residual e =>
    obtain ⟨e', rfl, h⟩ := h
    exact h

theorem Like.isKnown_eq (h : o.Like Q o') : o'.isKnown = o.isKnown := by
  cases o with
  | known v t =>
    cases h
    rfl
  | residual e =>
    obtain ⟨e', rfl, h⟩ := h
    rfl

/-- Outcomes that are alike are alike in every part that a walk looks at. -/
theorem eq_of_like_same (h : o.Like Expr.Same o') : o' = o := by
  cases o with
  | known v t => exact h
  | residual e =>
    obtain ⟨e', rfl, h⟩ := h
    rw [Expr.eq_of_like_same e h]

end Outcome

namespace Agreeable

variable {book : Workbook} (hQ : Agreeable book Q) {o o' : Outcome}
include hQ

theorem outcome_refl (o : Outcome) : o.Like Q o := by
  cases o with
  | known v t => rfl
  | residual e => exact ⟨e, rfl, hQ.like_refl e⟩

theorem isConstant_eq (h : o.Like Q o') :
    o'.isConstant = o.isConstant := by
  cases o with
  | known v t =>
    cases h
    rfl
  | residual e =>
    obtain ⟨e', rfl, h⟩ := h
    exact hQ.isAggregate_eq e h

theorem like_ofExpr (h : e.Like Q e') :
    (ofExpr e).Like Q (.ofExpr e') := by
  by_cases hkind : e.kind = .constant
  · obtain ⟨v, t, rfl⟩ := Expr.kind_eq_constant.mp hkind
    rw [show e' = .constant v t from h]
    rfl
  · have hkind' : e'.kind ≠ .constant := fun h' => hkind ((hQ.kind_eq h).symm.trans h')
    have hofExpr {x : Expr} (hx : x.kind ≠ .constant) : ofExpr x = .residual x := by
      rw [ofExpr]
      rintro v t rfl
      exact hx rfl
    rw [hofExpr hkind, hofExpr hkind']
    exact ⟨e', rfl, h⟩

theorem like_ofChild {e e' : Option Expr}
    (h : Option.Rel (Expr.Like Q) e e') : (ofChild e).Like Q (.ofChild e') := by
  cases h with
  | none => exact hQ.outcome_refl _
  | some h => exact hQ.like_ofExpr h

theorem forall₂_ofChild (h : Forall₂ (Option.Rel (Expr.Like Q)) es es') :
    Forall₂ (Outcome.Like Q) (es.map ofChild) (es'.map ofChild) := by
  rw [forall₂_map_left_iff, forall₂_map_right_iff]
  exact h.imp fun _ _ => hQ.like_ofChild

theorem all_isConstant_eq (h : Forall₂ (Outcome.Like Q) os os') :
    os'.all (·.isConstant) = os.all (·.isConstant) := by
  induction h with
  | nil => rfl
  | cons ho _ ih => rw [all_cons, all_cons, ih, hQ.isConstant_eq ho]

end Agreeable

theorem Outcome.Like.eq_of_isConstant {o o' : Outcome} (h : o.Like Q o')
    (hconst : o.isConstant = true) : o' = o :=
  h.below.eq_of_isConstant hconst

theorem all_isKnown_eq (h : Forall₂ (Outcome.Like Q) os os') :
    os'.all (·.isKnown) = os.all (·.isKnown) := by
  induction h with
  | nil => rfl
  | cons ho _ ih => rw [all_cons, all_cons, ih, ho.isKnown_eq]

theorem eq_of_forall₂_like_of_isConstant (h : Forall₂ (Outcome.Like Q) os os')
    (hconst : os.all (·.isConstant) = true) : os' = os :=
  eq_of_forall₂_below_of_isConstant (h.imp fun _ _ ho => ho.below) hconst

theorem eq_of_forall₂_like_of_isKnown (h : Forall₂ (Outcome.Like Q) os os')
    (hknown : os.all (·.isKnown) = true) : os' = os :=
  eq_of_forall₂_below_of_isKnown (h.imp fun _ _ ho => ho.below) hknown

/-! ## Elements -/

section Elements

variable {book : Workbook} (hQ : Agreeable book Q) {o : Outcome}
include hQ

theorem elements?_like (h : o.Like Q o') :
    Option.Rel (Forall₂ (Outcome.Like Q)) o.elements? o'.elements? := by
  cases o with
  | known v t =>
    cases h
    exact .none
  | residual e =>
    obtain ⟨e', rfl, h⟩ := h
    cases e with
    | range rows cols elements =>
      obtain ⟨elements', rfl, h⟩ := h
      exact .some (hQ.forall₂_ofChild (Expr.allLike_iff.mp h))
    | splice elements =>
      obtain ⟨elements', rfl, h⟩ := h
      exact .some (hQ.forall₂_ofChild (Expr.allLike_iff.mp h))
    | constant v t =>
      rw [show e' = .constant v t from h]
      exact .none
    | _ =>
      have hopen := hQ.isOpen_eq h
      cases e' <;> simp [Expr.isOpen] at hopen <;> exact .none

theorem flatten_like_expr (e : Expr) : ∀ {e' : Expr}, e.Like Q e' →
    Forall₂ (Outcome.Like Q) e.flatten e'.flatten := by
  induction e using induction_on_parts with
  | step e ih =>
    intro e' h
    have hall {es es' : Children} (hes : ∀ x, some x ∈ es → x ∈ e.parts)
        (h : Expr.AllLike Q es es') :
        Forall₂ (Outcome.Like Q) (flattenChildren es) (flattenChildren es') := by
      rw [Expr.allLike_iff] at h
      simp only [flattenChildren_eq]
      induction h with
      | nil => exact .nil
      | cons hx _ ih' =>
        rw [flatMap_cons, flatMap_cons]
        refine rel_append ?_ (ih' fun x hx => hes x (mem_cons_of_mem _ hx))
        cases hx with
        | none => exact .cons (hQ.outcome_refl _) .nil
        | some hx => exact ih _ (.part (hes _ mem_cons_self)) hx
    cases e with
    | constant v t =>
      rw [show e' = .constant v t from h]
      exact forall₂_same.mpr fun o _ => hQ.outcome_refl o
    | range rows cols elements =>
      obtain ⟨elements', rfl, h⟩ := h
      simp only [Expr.flatten]
      exact hall (fun x hx => by simpa [parts] using hx) h
    | splice elements =>
      obtain ⟨elements', rfl, h⟩ := h
      simp only [Expr.flatten]
      exact hall (fun x hx => by simpa [parts] using hx) h
    | _ =>
      rw [Expr.flatten_of_isOpen rfl, Expr.flatten_of_isOpen (hQ.isOpen_eq h)]
      exact .cons ⟨e', rfl, h⟩ .nil

theorem flatten_like (h : o.Like Q o') :
    Forall₂ (Outcome.Like Q) o.flatten o'.flatten := by
  cases o with
  | known v t =>
    cases h
    exact forall₂_same.mpr fun o _ => hQ.outcome_refl o
  | residual e =>
    obtain ⟨e', rfl, h⟩ := h
    exact flatten_like_expr hQ e h

theorem flattenOutcomes_like (h : Forall₂ (Outcome.Like Q) os os') :
    Forall₂ (Outcome.Like Q) (flattenOutcomes os) (flattenOutcomes os') := by
  unfold flattenOutcomes
  induction h with
  | nil => exact .nil
  | cons ho _ ih =>
    rw [flatMap_cons, flatMap_cons]
    exact rel_append (flatten_like hQ ho) ih

end Elements

end FormulaFold
