import FormulaFold.Proofs.Numbers
import FormulaFold.Running.Env

/-! # Computed values

Computing turns negative zero into zero and a whole number handed in from outside into a number.
A value is *settled* if nothing in it would change in this way.  **What is computed from settled
values without rounding is settled** (`isSettled_adjust`), and apart from `IF` and `INDEX`, which
pass values on, nothing that is computed is an array (`isArray_of_compute`).
-/
namespace FormulaFold

/-! ## Settled values -/

namespace Value

/-- Whether the value is an array. -/
def isArray : Value → Bool
  | array .. => true
  | _ => false

mutual
/-- Whether computing leaves the value, and all values in it, as they are. -/
def isSettled : Value → Bool
  | array _ _ values => allSettled values
  | integer _ => false
  | number x => x != 0.0 || x = 0.0
  | _ => true
/-- Whether all values of a list are settled. -/
def allSettled : List Value → Bool
  | [] => true
  | v :: vs => isSettled v && allSettled vs
end

theorem allSettled_iff : allSettled vs = true ↔ ∀ v ∈ vs, v.isSettled = true := by
  induction vs with
  | nil => simp [allSettled]
  | cons v vs ih => simp [allSettled, ih]

theorem isSettled_grid : (grid rows cols vs).isSettled = true ↔ ∀ v ∈ vs, v.isSettled = true := by
  unfold grid
  split
  all_goals
    rw [isSettled]
    exact allSettled_iff

theorem isSettled_row : (row vs).isSettled = true ↔ ∀ v ∈ vs, v.isSettled = true := isSettled_grid

/-- Whether the value may stand in a formula: it is no array, and settled where all values are. -/
def fits (plain : Bool) (v : Value) : Bool := !v.isArray && (!plain || v.isSettled)

theorem isArray_of_fits {plain : Bool} {v : Value} (h : v.fits plain = true) :
    v.isArray = false := by
  simp only [fits, Bool.and_eq_true, Bool.not_eq_true'] at h
  exact h.1

theorem isSettled_of_fits {v : Value} (h : v.fits true = true) : v.isSettled = true := by
  simp only [fits, Bool.and_eq_true, Bool.not_true, Bool.false_or] at h
  exact h.2

theorem leaves_of_isArray {v : Value} (h : v.isArray = false) : v.leaves = [v] := by
  cases v <;> first | rfl | cases h

mutual
theorem isSettled_of_mem_leaves {v u : Value} (hv : v.isSettled = true) (hu : u ∈ v.leaves) :
    u.isSettled = true := by
  cases v
  case array rows cols vs => exact isSettled_of_mem_leavesOf (by simpa [isSettled] using hv) hu
  all_goals
    rw [List.mem_singleton.mp hu]
    exact hv
theorem isSettled_of_mem_leavesOf (hvs : allSettled vs = true)
    (hu : u ∈ leavesOf vs) : u.isSettled = true := by
  cases vs with
  | nil => cases hu
  | cons v vs =>
    simp only [allSettled, Bool.and_eq_true] at hvs
    rcases List.mem_append.mp hu with hu | hu
    · exact isSettled_of_mem_leaves hvs.1 hu
    · exact isSettled_of_mem_leavesOf hvs.2 hu
end

mutual
theorem isArray_of_mem_leaves {v u : Value} (hu : u ∈ v.leaves) : u.isArray = false := by
  cases v
  case array rows cols vs => exact isArray_of_mem_leavesOf hu
  all_goals
    rw [List.mem_singleton.mp hu]
    rfl
theorem isArray_of_mem_leavesOf (hu : u ∈ leavesOf vs) :
    u.isArray = false := by
  cases vs with
  | nil => cases hu
  | cons v vs =>
    rcases List.mem_append.mp hu with hu | hu
    · exact isArray_of_mem_leaves hu
    · exact isArray_of_mem_leavesOf hu
end

end Value

/-! ## Adjusting -/

/-- What equals zero is finite. -/
theorem isFinite_of_beq_zero (h : (x == 0.0) = true) : isFinite x = true := by
  have hcompare : x.toModel.unpack.compare (.zero .positive) = some .eq := eq_of_beq h
  have hfinite : isFinite x = (!x.toModel.unpack.isNaN && !x.toModel.unpack.isInf) := rfl
  rw [hfinite]
  cases hx : x.toModel.unpack with
  | notANumber =>
    rw [hx] at hcompare
    cases hcompare
  | infinity sign =>
    rw [hx] at hcompare
    cases sign <;> cases hcompare
  | zero sign => rfl
  | finite sign m e hm => rfl

namespace Engine

variable {engine : Engine} {v : Value}

theorem adjust_number (x : Float) : engine.adjust (.number x) =
    if !isFinite x then .number x
    else if x == 0.0 then .number 0.0
    else if 0 < engine.precision then .number (Decimal.roundTo engine.precision.toNat x)
    else .number x := rfl

theorem isArray_adjust : (engine.adjust v).isArray = v.isArray := by
  cases v
  case number x =>
    rw [adjust_number]
    split
    · rfl
    · split
      · rfl
      · split <;> rfl
  all_goals rfl

theorem isSettled_adjust_number (hprecision : engine.precision ≤ 0) (x : Float) :
    (engine.adjust (.number x)).isSettled = true := by
  have hsettled (hx : ¬(x == 0.0) = true) : (Value.number x).isSettled = true := by
    rw [Value.isSettled, bne, Bool.eq_false_iff.mpr hx]
    rfl
  rw [adjust_number]
  split
  · rename_i hfinite
    refine hsettled fun hx => ?_
    rw [isFinite_of_beq_zero hx] at hfinite
    cases hfinite
  · split
    · rfl
    · rw [if_neg (Int.not_lt.mpr hprecision)]
      exact hsettled ‹_›

/-- The number of a whole number is settled. -/
theorem isSettled_ofInt (n : Int) : (Value.number (Float.ofInt n)).isSettled = true := by
  simp only [Value.isSettled, Bool.or_eq_true, decide_eq_true_eq, bne, Bool.not_eq_true']
  cases h : Float.ofInt n == 0.0 with
  | false => exact .inl rfl
  | true => exact .inr (ofInt_eq_zero h)

/-- A value that is adjusted without rounding is settled. -/
theorem isSettled_adjust (hprecision : engine.precision ≤ 0) (hv : v.isArray = false) :
    (engine.adjust v).isSettled = true := by
  cases v
  case number x => exact isSettled_adjust_number hprecision x
  case integer n => exact isSettled_ofInt n
  case array => cases hv
  all_goals rfl

/-- Whether a value is kept as it is computed. -/
def Leaves (engine : Engine) (v : Value) : Prop := engine.adjust v = v

/-- Adjusting without rounding leaves a settled value as it is. -/
theorem adjust_of_isSettled (hprecision : engine.precision ≤ 0) (hv : v.isSettled = true) :
    engine.Leaves v := by
  unfold Leaves
  cases v
  case number x =>
    simp only [Value.isSettled, Bool.or_eq_true, decide_eq_true_eq] at hv
    rw [adjust_number]
    split
    · rfl
    · split
      · rename_i hx
        rcases hv with hv | rfl
        · rw [bne, hx] at hv
          cases hv
        · rfl
      · rw [if_neg (Int.not_lt.mpr hprecision)]
  case integer => cases hv
  all_goals rfl

theorem fits_adjust {plain : Bool} (hprecision : plain = true → engine.precision ≤ 0)
    (hv : v.isArray = false) : (engine.adjust v).fits plain = true := by
  simp only [Value.fits, Bool.and_eq_true, Bool.not_eq_true', Bool.or_eq_true, isArray_adjust]
  cases plain with
  | false => exact ⟨hv, .inl rfl⟩
  | true => exact ⟨hv, .inr (isSettled_adjust (hprecision rfl) hv)⟩

/-- The literal value of a cell that is no array may stand in a formula. -/
theorem fits_literal {plain : Bool} (hprecision : plain = true → engine.precision ≤ 0)
    (hv : v.isArray = false) : (engine.literal v).fits plain = true := by
  unfold literal
  split
  · exact fits_adjust hprecision rfl
  · exact fits_adjust hprecision hv

end Engine

/-! ## Operators and functions -/

theorem exists_of_bind_eq_ok {ε α β : Type} {x : Except ε α} {f : α → Except ε β} {r : β}
    (h : (x >>= f) = .ok r) : ∃ a, x = .ok a ∧ f a = .ok r := by
  cases x with
  | error e => cases h
  | ok a => exact ⟨a, rfl, h⟩

/-- What an operator computes is no array. -/
theorem Op.isArray_of_compute {op : Op} {args : List Value} {v : Value}
    (h : op.compute args = .ok v) : v.isArray = false := by
  unfold compute at h
  split at h
  · split at h
    · obtain ⟨x, _, h⟩ := exists_of_bind_eq_ok h
      cases h
      rfl
    · cases h
  · split at h
    · split at h
      case h_1 =>
        obtain ⟨s, _, h⟩ := exists_of_bind_eq_ok h
        obtain ⟨t, _, h⟩ := exists_of_bind_eq_ok h
        cases h
        rfl
      case h_8 =>
        obtain ⟨x, _, h⟩ := exists_of_bind_eq_ok h
        obtain ⟨y, _, h⟩ := exists_of_bind_eq_ok h
        obtain ⟨z, _, h⟩ := exists_of_bind_eq_ok h
        cases h
        rfl
      all_goals
        obtain ⟨order, _, h⟩ := exists_of_bind_eq_ok h
        cases h
        rfl
    · cases h

namespace Builtin

theorem exists_of_elementAt {cols row col : Int} {values : List Value} {v : Value}
    (h : elementAt cols values row col = .ok v) : v ∈ values := by
  unfold elementAt at h
  dsimp only at h
  split at h
  · rename_i u hu
    cases h
    split at hu
    · exact List.mem_of_getElem? hu
    · cases hu
  · cases h

theorem mem_of_pick {values : List Value} {i : Int} {f : Failure} {v : Value}
    (h : (match if 1 ≤ i then values[i.toNat - 1]? else none with
      | some v => pure v
      | none => throw f : Except Failure Value) = .ok v) : v ∈ values := by
  split at h
  · rename_i u hu
    cases h
    split at hu
    · exact List.mem_of_getElem? hu
    · cases hu
  · cases h

/-- What `INDEX` selects is its first argument or a value of it. -/
theorem mem_of_select (h : select args = .ok v) :
    ∃ source ∈ args, (source.isArray = false ∧ v = source) ∨
      ∃ rows cols values, source = .array rows cols values ∧ v ∈ values := by
  unfold select at h
  split at h
  · rename_i source second rest
    refine ⟨source, List.mem_cons_self, ?_⟩
    cases source
    case' array rows cols values => refine .inr ⟨rows, cols, values, rfl, ?_⟩
    all_goals try refine .inl ⟨rfl, List.mem_singleton.mp ?_⟩
    all_goals
      obtain ⟨row, _, h⟩ := exists_of_bind_eq_ok h
      split at h
      · dsimp only at h
        split at h
        · cases h
        · exact mem_of_pick h
      · obtain ⟨col, _, h⟩ := exists_of_bind_eq_ok h
        dsimp only at h
        split at h
        · cases h
        · exact exists_of_elementAt h
  · cases h

/-- What a function computes is no array, unless it passes an argument on. -/
theorem isArray_of_compute {moment : Moment} {fn : Builtin} {args : List Value} {v : Value}
    (hif : fn ≠ .ifElse) (hindex : fn ≠ .index) (h : fn.compute moment args = .ok v) :
    v.isArray = false := by
  cases fn
  case ifElse => exact absurd rfl hif
  case index => exact absurd rfl hindex
  case row | column => cases h
  case now | today | rand =>
    cases h
    rfl
  case and | or =>
    unfold compute at h
    dsimp only at h
    split at h
    · cases h
    · obtain ⟨b, _, h⟩ := exists_of_bind_eq_ok h
      cases h
      rfl
  case round | power | average =>
    obtain ⟨x, _, h⟩ := exists_of_bind_eq_ok h
    obtain ⟨y, _, h⟩ := exists_of_bind_eq_ok h
    cases h
    rfl
  case mod =>
    obtain ⟨x, _, h⟩ := exists_of_bind_eq_ok h
    obtain ⟨y, _, h⟩ := exists_of_bind_eq_ok h
    dsimp only at h
    split at h
    all_goals cases h
    rfl
  case sqrt =>
    obtain ⟨x, _, h⟩ := exists_of_bind_eq_ok h
    dsimp only at h
    split at h
    all_goals cases h
    rfl
  all_goals
    obtain ⟨x, _, h⟩ := exists_of_bind_eq_ok h
    cases h
    rfl

end Builtin

/-- `IF` is computed only if its condition has a truth value. -/
theorem Engine.exists_toBool_of_call_ifElse {engine : Engine} {v u : Value} {vs : List Value}
    (h : engine.call Builtin.ifElse.name (v :: vs) = .ok u) : ∃ b, v.toBool = .ok b := by
  have hcompute : Builtin.compute engine.moment .ifElse (v :: vs) = .ok u := h
  obtain ⟨b, hb, _⟩ := exists_of_bind_eq_ok hcompute
  exact ⟨b, hb⟩

end FormulaFold
