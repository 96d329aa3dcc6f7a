import FormulaFold.Proofs.Information

/-! # Elements

A fold looks into the ranges and splices that it is given, at any depth.  **A property of outcomes
that goes over to the elements of ranges and splices is one of all that is found there**
(`Opens.of_mem_flattenOutcomes`, `Opens.of_mem_columns`).
-/
namespace FormulaFold

/-- Whether the formula writes out elements. -/
def Expr.isVector : Expr → Bool
  | range .. | splice .. => true
  | _ => false

theorem flatten_ofChild (e : Option Expr) : (Outcome.ofChild e).flatten = flattenChild e := by
  rcases e with _ | e
  · rfl
  cases e with
  | constant v t =>
    rw [flattenChild, Expr.flatten]
    · rfl
    all_goals simp
  | _ => rfl

theorem flattenOutcomes_map_ofChild (es : Children) :
    flattenOutcomes (es.map Outcome.ofChild) = flattenChildren es := by
  rw [flattenChildren_eq, flattenOutcomes, List.flatMap_map]
  exact List.flatMap_congr fun e _ => flatten_ofChild e

/-- The elements of a range or a splice are the ones that it is flattened to. -/
theorem flatten_of_elements? {o : Outcome} {es : List Outcome} (h : o.elements? = some es) :
    flattenOutcomes es = o.flatten := by
  unfold Outcome.elements? at h
  split at h
  · cases h
    rw [flattenOutcomes_map_ofChild, Outcome.flatten, Expr.flatten]
  · cases h
    rw [flattenOutcomes_map_ofChild, Outcome.flatten, Expr.flatten]
  · cases h

theorem vectorElements?_cons (first : Option Nat) (position : Nat) (o : Outcome)
    (rest : List Outcome) :
    vectorElements? first position (o :: rest) = o.elements?.bind fun es =>
      if (flattenOutcomes es).length ≠ first.getD (flattenOutcomes es).length then
        some (.error (.vectorLength position (flattenOutcomes es).length
          (first.getD (flattenOutcomes es).length)))
      else (vectorElements? (some (first.getD (flattenOutcomes es).length)) (position + 1)
        rest).map (Except.map (flattenOutcomes es :: ·)) := by
  rw [vectorElements?]
  cases o.elements? with
  | none => rfl
  | some es =>
    simp only [bind, Option.bind]
    split
    · rfl
    · cases vectorElements? (some (first.getD (flattenOutcomes es).length)) (position + 1) rest with
      | none => rfl
      | some r => cases r <;> rfl

/-- The vectors of a fold: the elements of each, all as many as those of the first. -/
theorem vectorElements?_eq_ok (h : vectorElements? first position os = some (.ok vectors)) :
    Forall₂ (fun o v => o.elements?.map flattenOutcomes = some v) os vectors ∧
      ∃ n, (∀ k, first = some k → k = n) ∧ ∀ v ∈ vectors, v.length = n := by
  induction os generalizing first position vectors with
  | nil =>
    cases h
    exact ⟨.nil, first.getD 0, by rintro k rfl; rfl, by simp⟩
  | cons o rest ih =>
    rw [vectorElements?_cons, Option.bind_eq_some_iff] at h
    obtain ⟨es, hes, h⟩ := h
    split at h
    · cases h
    rename_i hlen
    obtain ⟨r, hr, h⟩ := map_eq_some_iff.mp h
    cases r with
    | error m => cases h
    | ok more =>
      cases h
      obtain ⟨hall, n, hn, hmore⟩ := ih hr
      refine ⟨.cons (by rw [hes]; rfl) hall, n, fun k hk => ?_, ?_⟩
      · exact hn k (by rw [hk]; rfl)
      · refine forall_mem_cons.mpr ⟨?_, hmore⟩
        rw [not_not.mp hlen]
        exact hn _ rfl

theorem mem_of_mem_rowsOf (hrow : row ∈ rowsOf width n elements) (hx : x ∈ row) : x ∈ elements := by
  fun_induction rowsOf width n elements with
  | case1 => cases hrow
  | case2 => cases hrow
  | case3 n elements hlt ih =>
    rcases mem_cons.mp hrow with rfl | hrow
    · exact mem_of_mem_take hx
    · exact List.mem_of_mem_drop (ih hrow)

/-- A property of outcomes that the elements of a range or a splice have if it has it. -/
structure Opens (K : Outcome → Prop) : Prop where
  blank : K .blank
  ofExpr : ∀ e, K (.residual e) → K (.ofExpr e)
  range : ∀ {rows cols : Int} {es : Children}, K (.residual (.range rows cols es)) →
    ∀ x, some x ∈ es → K (.ofExpr x)
  splice : ∀ {es : Children}, K (.residual (.splice es)) →
    ∀ x, some x ∈ es → K (.ofExpr x)

namespace Opens

variable {K : Outcome → Prop} (hK : Opens K)
include hK

theorem ofChild (h : ∀ x, e = some x → K (.ofExpr x)) : K (.ofChild e) := by
  cases e with
  | none => exact hK.blank
  | some e => exact h e rfl

/-- The children of ranges and splices. -/
theorem of_elements? (ha : K a) (h : a.elements? = some elements) :
    ∀ o ∈ elements, K o := by
  have hall {es : Children} (hes : ∀ x, some x ∈ es → K (.ofExpr x)) :
      ∀ o ∈ es.map Outcome.ofChild, K o := by
    intro o ho
    obtain ⟨x, hx, rfl⟩ := mem_map.mp ho
    exact hK.ofChild fun y hy => hes y (hy ▸ hx)
  unfold Outcome.elements? at h
  split at h
  · cases h
    exact hall (hK.range ha)
  · cases h
    exact hall (hK.splice ha)
  · cases h

theorem of_mem_flatten_expr (e : Expr) (he : K (.ofExpr e)) : ∀ o ∈ e.flatten, K o := by
  induction e using induction_on_parts with
  | step e ih =>
    have hall {es : Children}
        (hes : ∀ x, some x ∈ es → x ∈ e.parts ∧ K (.ofExpr x)) (o : Outcome)
        (ho : o ∈ flattenChildren es) : K o := by
      rw [flattenChildren_eq, mem_flatMap] at ho
      obtain ⟨x, hx, ho⟩ := ho
      cases x with
      | none =>
        rw [mem_singleton.mp ho]
        exact hK.blank
      | some x => exact ih x (.part (hes x hx).1) (hes x hx).2 o ho
    intro o ho
    cases e with
    | range rows cols es =>
      rw [Expr.flatten] at ho
      exact hall (fun x hx => ⟨by simpa [parts] using hx, hK.range he x hx⟩) o ho
    | splice es =>
      rw [Expr.flatten] at ho
      exact hall (fun x hx => ⟨by simpa [parts] using hx, hK.splice he x hx⟩) o ho
    | constant v t =>
      rw [Expr.flatten, mem_singleton] at ho
      · rwa [ho]
      all_goals simp
    | _ =>
      rw [Expr.flatten_of_isOpen rfl, mem_singleton] at ho
      rwa [ho]

theorem of_mem_flatten (ha : K a) : ∀ o ∈ a.flatten, K o := by
  cases a with
  | known v t =>
    intro o ho
    rwa [mem_singleton.mp ho]
  | residual e => exact hK.of_mem_flatten_expr e (hK.ofExpr e ha)

theorem of_mem_flattenOutcomes (h : ∀ o ∈ os, K o) : ∀ o ∈ flattenOutcomes os, K o := by
  intro o ho
  obtain ⟨x, hx, ho⟩ := mem_flatMap.mp ho
  exact hK.of_mem_flatten (h x hx) o ho

theorem of_mem_columns (hos : ∀ o ∈ os, K o) (h : vectorElements? none 1 os = some (.ok vectors))
    (width : Nat) : ∀ tuple ∈ columnsOf width vectors, ∀ o ∈ tuple, K o := by
  intro tuple htuple o ho
  obtain ⟨i, _, rfl⟩ := mem_map.mp htuple
  obtain ⟨v, hv, ho⟩ := mem_filterMap.mp ho
  obtain ⟨x, hx, hxv⟩ := exists_of_forall₂_of_mem (vectorElements?_eq_ok h).1 hv
  obtain ⟨elements, helements, rfl⟩ := map_eq_some_iff.mp hxv
  exact hK.of_mem_flattenOutcomes (hK.of_elements? (hos x hx) helements) o
    (mem_of_getElem? ho)

end Opens

theorem forall₂_filterMap_getElem? {α β : Type} {P : α → β → Prop} {rows : List (List α)}
    {rows' : List (List β)} (h : Forall₂ (Forall₂ P) rows rows') (i : Nat) :
    Forall₂ P (rows.filterMap (·[i]?)) (rows'.filterMap (·[i]?)) := by
  induction h with
  | nil => exact .nil
  | @cons row row' rows rows' hrow _ ih =>
    have hlen := hrow.length_eq
    by_cases hi : i < row.length
    · have hi' : i < row'.length := hlen ▸ hi
      simp only [List.filterMap_cons, getElem?_eq_getElem hi, getElem?_eq_getElem hi']
      exact .cons (hrow.get hi hi') ih
    · have hi' : ¬i < row'.length := hlen ▸ hi
      simp only [List.filterMap_cons, List.getElem?_eq_none (Nat.le_of_not_lt hi),
        List.getElem?_eq_none (Nat.le_of_not_lt hi')]
      exact ih

theorem forall₂_columnsOf {α β : Type} {P : α → β → Prop} {rows : List (List α)}
    {rows' : List (List β)} (h : Forall₂ (Forall₂ P) rows rows') (width : Nat) :
    Forall₂ (Forall₂ P) (columnsOf width rows) (columnsOf width rows') := by
  unfold columnsOf
  rw [forall₂_map_left_iff, forall₂_map_right_iff, forall₂_same]
  exact fun i _ => forall₂_filterMap_getElem? h i

end FormulaFold
