import FormulaFold.Proofs.Parts

/-! # Knowing more

Of a formula a walk looks at little: at constants and at the elements of ranges and splices.
`Expr.Like Q` says that two formulas agree in this, where `Q` tells which other formulas may stand
for each other.

An outcome is *below* another one that says at least as much: a known value only says what it
is, a range or a splice says as much as its elements do, and any other formula says nothing.
Constants say all there is to say: what is above a constant is that constant
(`Outcome.Below.eq_of_isConstant`).
-/
namespace FormulaFold

variable {e e' : Expr} {Q Q' : Expr → Expr → Prop}

namespace Expr

/-- Whether a formula says nothing of its value: it is neither a constant nor a range nor a
splice. -/
def isOpen : Expr → Bool
  | constant .. | range .. | splice _ => false
  | _ => true

mutual
/-- Whether two formulas are alike up to `Q`. -/
def Like (Q : Expr → Expr → Prop) : Expr → Expr → Prop
  | constant v t, e' => e' = constant v t
  | range rows cols elements, e' => ∃ elements', e' = range rows cols elements' ∧
      AllLike Q elements elements'
  | splice elements, e' => ∃ elements', e' = splice elements' ∧ AllLike Q elements elements'
  | e, e' => Q e e'
/-- Whether children are alike, each by each. -/
def AllLike (Q : Expr → Expr → Prop) : List (Option Expr) → List (Option Expr) → Prop
  | [], es' => es' = []
  | e :: es, es' => ∃ e' rest, es' = e' :: rest ∧ OptionLike Q e e' ∧ AllLike Q es rest
/-- Whether a child is like another one; a missing one is missing in both. -/
def OptionLike (Q : Expr → Expr → Prop) : Option Expr → Option Expr → Prop
  | none, e' => e' = none
  | some e, e' => ∃ x, e' = some x ∧ Like Q e x
end

theorem optionLike_iff {e e' : Option Expr} : OptionLike Q e e' ↔ Option.Rel (Like Q) e e' := by
  cases e with
  | none => cases e' <;> simp [OptionLike]
  | some e => cases e' <;> simp [OptionLike]

theorem allLike_iff : AllLike Q es es' ↔ Forall₂ (Option.Rel (Like Q)) es es' := by
  induction es generalizing es' with
  | nil => simp [AllLike]
  | cons e es ih =>
    simp only [AllLike, optionLike_iff, ih, List.forall₂_cons_left_iff]
    grind

theorem like_of_isOpen (he : e.isOpen = true) : e.Like Q e' ↔ Q e e' := by
  cases e <;> simp [isOpen] at he <;> simp [Like]

theorem like_refl (hQ : ∀ x : Expr, x.isOpen = true → Q x x) (e : Expr) : e.Like Q e := by
  induction e using induction_on_parts with
  | step e ih =>
    have hall {es : Children} (hes : ∀ x, some x ∈ es → x ∈ e.parts) :
        AllLike Q es es := by
      rw [allLike_iff, forall₂_same]
      intro x hx
      cases x with
      | none => exact .none
      | some x => exact .some (ih x (.part (hes x hx)))
    cases e with
    | constant v t => rfl
    | range rows cols elements | splice elements =>
      exact ⟨_, rfl, hall fun x hx => by simpa [parts] using hx⟩
    | _ => exact (like_of_isOpen rfl).mpr (hQ _ rfl)

theorem allAggregate_iff : allAggregate es = true ↔ ∀ x ∈ es, ∃ e, x = some e ∧
      (e.isAggregate = true ∨ ∃ v t, e = constant v t) := by
  induction es with
  | nil => simp [allAggregate]
  | cons x es ih =>
    cases x with
    | none => simp [allAggregate]
    | some e => cases e <;> simp [allAggregate, ih, isAggregate]

end Expr

/-- The elements of a child. -/
def flattenChild : Option Expr → List Outcome
  | none => [.blank]
  | some e => e.flatten

theorem flattenChildren_eq (es : Children) :
    flattenChildren es = es.flatMap flattenChild := by
  induction es with
  | nil => simp [flattenChildren]
  | cons e es ih => cases e <;> simp [flattenChildren, flattenChild, ih]

theorem Expr.flatten_of_isOpen (h : e.isOpen = true) : e.flatten = [.residual e] := by
  cases e <;> simp [isOpen] at h <;> simp [flatten, ofExpr]

/-- Likeness is one of the elements. -/
theorem Expr.Like.imp (e : Expr) : ∀ {e' : Expr}, (∀ x x', .residual x ∈ e.flatten → Q x x' →
    Q' x x') → e.Like Q e' → e.Like Q' e' := by
  induction e using induction_on_parts with
  | step e ih =>
    intro e' hQ h
    have hall {es es' : Children} (hes : ∀ x, some x ∈ es → x ∈ e.parts)
        (hQ : ∀ x x', .residual x ∈ flattenChildren es → Q x x' → Q' x x')
        (h : AllLike Q es es') : AllLike Q' es es' := by
      rw [allLike_iff] at h ⊢
      rw [flattenChildren_eq] at hQ
      induction h with
      | nil => exact .nil
      | @cons y _ _ _ hy _ ih' =>
        simp only [flatMap_cons, mem_append] at hQ
        refine .cons ?_ (ih' (fun x hx => hes x (mem_cons_of_mem _ hx))
          fun x x' hx => hQ x x' (.inr hx))
        cases hy with
        | none => exact .none
        | some hy =>
          exact .some (ih _ (.part (hes _ mem_cons_self)) (fun x x' hx => hQ x x' (.inl hx)) hy)
    cases e with
    | constant v t => exact h
    | range rows cols elements | splice elements =>
      obtain ⟨elements', rfl, h⟩ := h
      exact ⟨_, rfl, hall (fun x hx => by simpa [parts] using hx) hQ h⟩
    | _ =>
      rw [like_of_isOpen rfl] at h ⊢
      exact hQ _ _ (by simp [flatten, ofExpr]) h

/-- Only equal formulas stand for each other. -/
def Expr.Same (e e' : Expr) : Prop := e.isOpen = true ∧ e' = e

theorem Expr.eq_of_like_same (e : Expr) : ∀ {e' : Expr}, e.Like Expr.Same e' → e' = e := by
  induction e using induction_on_parts with
  | step e ih =>
    intro e' h
    have hall {es es' : Children} (hes : ∀ x, some x ∈ es → x ∈ e.parts)
        (h : AllLike Same es es') : es' = es := by
      rw [allLike_iff] at h
      induction h with
      | nil => rfl
      | cons hx _ ih' =>
        rw [ih' fun x hx => hes x (mem_cons_of_mem _ hx)]
        cases hx with
        | none => rfl
        | some hx => rw [ih _ (.part (hes _ mem_cons_self)) hx]
    cases e with
    | constant v t => exact h
    | range rows cols elements | splice elements =>
      obtain ⟨elements', rfl, h⟩ := h
      rw [hall (fun x hx => by simpa [parts] using hx) h]
    | _ => exact ((like_of_isOpen rfl).mp h).2

/-- Whether a formula says no more than another one. -/
abbrev Expr.Below : Expr → Expr → Prop := Expr.Like fun _ _ => True

theorem Expr.below_of_isOpen (h : e.isOpen = true) : e.Below e' := (like_of_isOpen h).mpr trivial

/-- Formulas of which all elements are known say all there is to say. -/
theorem Expr.eq_of_below (h : e.Below e') (hknown : ∀ o ∈ e.flatten, o.isKnown = true) : e' = e :=
  eq_of_like_same e (h.imp e fun _ _ hx _ => by cases hknown _ hx)

theorem isKnown_of_mem_flatten (e : Expr) (h : e.isAggregate = true) :
    ∀ o ∈ e.flatten, o.isKnown = true := by
  induction e using induction_on_parts with
  | step e ih =>
    have hall {es : Children} (hes : ∀ x, some x ∈ es → x ∈ e.parts)
        (hagg : Expr.allAggregate es = true) : ∀ o ∈ flattenChildren es, o.isKnown = true := by
      intro o ho
      rw [flattenChildren_eq, mem_flatMap] at ho
      obtain ⟨x, hx, ho⟩ := ho
      obtain ⟨x, rfl, hagg | ⟨v, t, rfl⟩⟩ := Expr.allAggregate_iff.mp hagg x hx
      · exact ih x (.part (hes x hx)) hagg o ho
      · simp only [flattenChild, Expr.flatten, mem_singleton] at ho
        rw [ho]
        rfl
    cases e with
    | range rows cols es | splice es =>
      rw [Expr.flatten]
      exact hall (fun x hx => by simpa [parts] using hx) h
    | _ => cases h

namespace Outcome

/-- Whether an outcome says no more than another one. -/
def Below : Outcome → Outcome → Prop
  | known v t, o' => o' = known v t
  | residual e, o' => e.isOpen = true ∨ ∃ e', o' = residual e' ∧ e.Below e'

variable {o o' : Outcome}

theorem below_of_isOpen (h : e.isOpen = true) : (ofExpr e).Below o' := by
  cases e <;> simp [Expr.isOpen] at h <;> exact .inl rfl

theorem below_residual (h : e.Below e') : (residual e).Below (residual e') :=
  .inr ⟨e', rfl, h⟩

theorem below_refl (o : Outcome) : o.Below o := by
  cases o with
  | known v t => rfl
  | residual e => exact below_residual (Expr.like_refl (fun _ _ => trivial) e)

theorem Below.eq_of_isKnown (h : o.Below o') (hknown : o.isKnown = true) : o' = o := by
  cases o with
  | known v t => exact h
  | residual e => simp [isKnown] at hknown

theorem Below.expr (h : o.Below o') : o.expr.Below o'.expr := by
  cases o with
  | known v t =>
    cases h
    rfl
  | residual e =>
    rcases h with h | ⟨e', rfl, h⟩
    · exact Expr.below_of_isOpen h
    · exact h

/-- **Constants say all there is to say.** -/
theorem Below.eq_of_isConstant (h : o.Below o') (hconst : o.isConstant = true) : o' = o := by
  cases o with
  | known v t => exact h
  | residual e =>
    rcases h with h | ⟨e', rfl, h⟩
    · cases e <;> simp [Expr.isOpen] at h <;> simp [isConstant, Expr.isAggregate] at hconst
    · rw [Expr.eq_of_below h (isKnown_of_mem_flatten e hconst)]

theorem Below.flatten_eq (h : o.Below o') (hknown : ∀ x ∈ o.flatten, x.isKnown = true) :
    o'.flatten = o.flatten := by
  cases o with
  | known v t =>
    cases h
    rfl
  | residual e =>
    rcases h with h | ⟨e', rfl, h⟩
    · simp [flatten, Expr.flatten_of_isOpen h, isKnown] at hknown
    · rw [Expr.eq_of_below h hknown]

end Outcome

theorem eq_of_forall₂_below_of_isConstant (h : Forall₂ Outcome.Below os os')
    (hconst : os.all (·.isConstant) = true) : os' = os := by
  induction h with
  | nil => rfl
  | cons ho _ ih =>
    simp only [all_cons, and_eq_true] at hconst
    rw [ho.eq_of_isConstant hconst.1, ih hconst.2]

theorem eq_of_forall₂_below_of_isKnown (h : Forall₂ Outcome.Below os os')
    (hknown : os.all (·.isKnown) = true) : os' = os := by
  induction h with
  | nil => rfl
  | cons ho _ ih =>
    simp only [all_cons, and_eq_true] at hknown
    rw [ho.eq_of_isKnown hknown.1, ih hknown.2]

theorem flattenOutcomes_eq_of_below (h : Forall₂ Outcome.Below os os')
    (hknown : ∀ x ∈ flattenOutcomes os, x.isKnown = true) :
    flattenOutcomes os' = flattenOutcomes os := by
  unfold flattenOutcomes at *
  induction h with
  | nil => rfl
  | cons ho _ ih =>
    simp only [flatMap_cons, mem_append] at hknown ⊢
    rw [ho.flatten_eq fun x hx => hknown x (.inl hx), ih fun x hx => hknown x (.inr hx)]

theorem forall₂_keepMissing {R : Expr → Expr → Prop}
    (h : Forall₂ (fun o o' => R o.expr o'.expr) os os') :
    Forall₂ (Option.Rel R) (keepMissing es os) (keepMissing es os') := by
  induction es generalizing os os' with
  | nil => exact .nil
  | cons e es ih =>
    cases h with
    | nil => exact .cons .none (ih .nil)
    | cons ho h =>
      refine .cons ?_ (ih h)
      cases e with
      | none => exact .none
      | some e => exact .some ho

namespace Bindings

/-- Whether everything that bound names stand for they stand for in other bindings too. -/
def Below (b b' : Bindings) : Prop :=
  ∀ name o, b.lookup name = .ok (some o) → b'.lookup name = .ok (some o)

theorem lookup_push (b : Bindings) (name x : String) (o : Option Outcome) :
    (b.push name o).lookup x = if name = x then .ok o else b.lookup x := by
  unfold lookup push
  by_cases h : name = x
  · simp [h]
  · simp [h]

theorem below_empty : Below empty empty := fun _ _ h => h

variable {b : Bindings}

theorem Below.push (h : b.Below b') {name : String} {o o' : Option Outcome}
    (ho : ∀ x, o = some x → o' = some x) : (b.push name o).Below (b'.push name o') := by
  intro x y hy
  rw [lookup_push] at hy ⊢
  split
  · rw [if_pos ‹_›] at hy
    rw [ho y (by simpa using hy)]
  · rw [if_neg ‹_›] at hy
    exact h x y hy

theorem Below.pushAll (h : b.Below b') (pairs : Pairs) :
    (b.pushAll pairs).Below (b'.pushAll pairs) := by
  induction pairs generalizing b b' with
  | nil => exact h
  | cons pair rest ih =>
    obtain ⟨name, o⟩ := pair
    unfold Bindings.pushAll
    split
    · exact ih h
    · exact ih (h.push fun _ hx => hx)

end Bindings

end FormulaFold
