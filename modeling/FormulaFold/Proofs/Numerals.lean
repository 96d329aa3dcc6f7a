import FormulaFold.Decimal.Layout
import FormulaFold.Proofs.Numbers
import Mathlib.Algebra.Order.Field.Power
import Mathlib.Data.List.TakeWhile
import Mathlib.Data.Rat.Cast.Order
import Mathlib.Tactic.FieldSimp
import Mathlib.Tactic.Linarith
import Mathlib.Tactic.Positivity
import Mathlib.Tactic.Ring

/-! # Shortest decimals tell numbers apart

The decimal that is written for a number lies in the interval of reals that round to it
(`holds_shortest`): seventeen digits are always enough, because the step of that grid is smaller
than the interval is wide.  The intervals of two numbers have no point in common
(`Normal.eq_of_holds`), and the positional layout keeps the decimal it writes
(`read_positional`).  Hence **two numbers with the same text are the same number**
(`text_inj`).
-/
namespace FormulaFold.Decimal

open List Float.Model UnpackedFloat

/-! ## Scaling -/

theorem inUnits_div (num den : Nat) (e : Int) :
    ((inUnits num den e).1 : ℚ) / (inUnits num den e).2 = num / den / 2 ^ e := by
  unfold inUnits
  split
  · obtain ⟨n, rfl⟩ := Int.eq_ofNat_of_zero_le ‹0 ≤ e›
    simp [div_div]
  · obtain ⟨n, rfl⟩ : ∃ n : Nat, e = -n := ⟨(-e).toNat, by omega⟩
    simp [mul_div_right_comm]

theorem timesPower_div (num den : Nat) (e : Int) :
    ((timesPower num den e).1 : ℚ) / (timesPower num den e).2 = num / den * 10 ^ e := by
  unfold timesPower
  split
  · obtain ⟨n, rfl⟩ := Int.eq_ofNat_of_zero_le ‹0 ≤ e›
    simp [mul_div_right_comm]
  · obtain ⟨n, rfl⟩ : ∃ n : Nat, e = -n := ⟨(-e).toNat, by omega⟩
    simp [div_eq_mul_inv, mul_assoc, mul_comm]

theorem inUnits_pos {num den : Nat} (hnum : 0 < num) (hden : 0 < den) (e : Int) :
    0 < (inUnits num den e).1 ∧ 0 < (inUnits num den e).2 := by
  unfold inUnits
  split <;> simp [hnum, hden]

theorem timesPower_pos {num den : Nat} (hnum : 0 < num) (hden : 0 < den) (e : Int) :
    0 < (timesPower num den e).1 ∧ 0 < (timesPower num den e).2 := by
  unfold timesPower
  split <;> simp [hnum, hden]

/-! ## The interval of a number -/

namespace Binary

/-- A fourth of the last place. -/
def quarter (b : Binary) : ℚ := 2 ^ (b.exponent - 2)

/-- The lower end of the interval, in fourths of the last place. -/
def low (b : Binary) : Nat :=
  if b.mantissa = Nat.pow 2 52 ∧ b.exponent ≠ leastExponent then 4 * b.mantissa - 1
  else 4 * b.mantissa - 2

/-- The upper end of the interval, in fourths of the last place. -/
def high (b : Binary) : Nat := 4 * b.mantissa + 2

/-- The decimals that round to `b`; the ends of the interval are ties. -/
structure Holds (b : Binary) (q : ℚ) : Prop where
  low_le : b.low * b.quarter ≤ q
  le_high : q ≤ b.high * b.quarter
  inner : b.mantissa % 2 = 1 → b.low * b.quarter < q ∧ q < b.high * b.quarter

/-- The magnitudes of the format. -/
structure Normal (b : Binary) : Prop where
  mantissa_lt : b.mantissa < Nat.pow 2 53
  le_exponent : leastExponent ≤ b.exponent
  exponent_le : b.exponent ≤ 972
  le_mantissa : b.exponent ≠ leastExponent → Nat.pow 2 52 ≤ b.mantissa

variable {b b' : Binary} {q : ℚ}

theorem quarter_pos : 0 < b.quarter := by
  unfold quarter
  positivity

theorem quarter_mul_four : 4 * b.quarter = 2 ^ b.exponent := by
  unfold quarter
  rw [zpow_sub₀ two_ne_zero]
  norm_num
  exact mul_div_cancel₀ _ four_ne_zero

theorem Normal.exponent_le_of_holds (hb : b.Normal) (hb' : b'.Normal) (h : b.Holds q)
    (h' : b'.Holds q) : b'.exponent ≤ b.exponent := by
  by_contra hlt
  have hpos := b.quarter_pos
  -- the interval of `b` ends half a place below the next power of two
  have hwide : 2 * b.quarter ≤ b'.quarter := by
    have hle : (2 : ℚ) ^ (b.exponent - 2 + 1) ≤ 2 ^ (b'.exponent - 2) :=
      zpow_le_zpow_right₀ one_le_two (by omega)
    rwa [zpow_add_one₀ two_ne_zero, mul_comm] at hle
  have hlow : 2 ^ 54 - 1 ≤ b'.low := by
    have hne : b'.exponent ≠ leastExponent := by have := hb.le_exponent; omega
    have := hb'.le_mantissa hne
    simp only [low, hne, ne_eq, not_false_eq_true, and_true, Nat.pow_eq] at this ⊢
    split <;> omega
  have hq : ((2 ^ 54 - 1 : Nat) : ℚ) * (2 * b.quarter) ≤ q := calc
    _ ≤ (b'.low : ℚ) * b'.quarter := by gcongr
    _ ≤ q := h'.low_le
  have hmantissa := hb.mantissa_lt
  rw [show Nat.pow 2 53 = 2 ^ 53 from rfl] at hmantissa
  have hhigh := h.le_high
  by_cases hlast : b.mantissa = 2 ^ 53 - 1
  · have hstrict := (h.inner (by rw [hlast]; rfl)).2
    unfold high at hstrict
    rw [hlast] at hstrict
    norm_num at hq hstrict
    linarith
  · have : b.high + 4 ≤ 2 ^ 55 - 2 := by unfold high; omega
    have : (b.high : ℚ) + 4 ≤ 2 ^ 55 - 2 := by
      have hcast : ((b.high + 4 : Nat) : ℚ) ≤ ((2 ^ 55 - 2 : Nat) : ℚ) := by exact_mod_cast this
      norm_num at hcast ⊢
      exact hcast
    norm_num at hq this
    nlinarith

theorem Normal.mantissa_le_of_holds (hb : b.Normal) (h : b.Holds q)
    (h' : b'.Holds q) (he : b.exponent = b'.exponent) : b'.mantissa ≤ b.mantissa := by
  by_contra hlt
  have hquarter : b.quarter = b'.quarter := by rw [quarter, he, quarter]
  have hpos := b.quarter_pos
  have hlow : b.high + 4 * (b'.mantissa - b.mantissa - 1) ≤ b'.low := by
    have := hb.le_mantissa
    simp only [high, low, ← he, Nat.pow_eq] at this ⊢
    split <;> omega
  have hcast : (b.high : ℚ) ≤ b'.low := by exact_mod_cast (by omega : b.high ≤ b'.low)
  have hle := h.le_high
  have hge := h'.low_le
  rw [← hquarter] at hge
  have hmul : b.high * b.quarter ≤ b'.low * b.quarter := by gcongr
  -- only neighbours can meet, and one of two neighbours is odd
  by_cases hodd : b.mantissa % 2 = 1
  · linarith [(h.inner hodd).2]
  by_cases hodd' : b'.mantissa % 2 = 1
  · have := (h'.inner hodd').1
    rw [← hquarter] at this
    linarith
  have hcast : (b.high : ℚ) < b'.low := by exact_mod_cast (by omega : b.high < b'.low)
  have : b.high * b.quarter < b'.low * b.quarter := by gcongr
  linarith

theorem Normal.eq_of_holds (hb : b.Normal) (hb' : b'.Normal) (h : b.Holds q) (h' : b'.Holds q) :
    b = b' := by
  have he := le_antisymm (hb'.exponent_le_of_holds hb h' h) (hb.exponent_le_of_holds hb' h h')
  have hm := le_antisymm (hb'.mantissa_le_of_holds h' h he.symm) (hb.mantissa_le_of_holds h h' he)
  cases b
  cases b'
  simp_all

end Binary

/-! ## The decimal lies in the interval -/

/-- The number that a decimal stands for. -/
def Numeral.value (d : Numeral) : ℚ := d.digits * 10 ^ d.exponent

theorem Numeral.value_stripZeros (fuel : Nat) (d : Numeral) :
    (d.stripZeros fuel).value = d.value := by
  induction fuel generalizing d with
  | zero => rfl
  | succ fuel ih =>
    rw [stripZeros]
    split
    · have hdigits : d.digits = 10 * (d.digits / 10) := by omega
      rw [ih, value, value, zpow_add_one₀ (by decide), hdigits]
      push_cast
      rw [Nat.mul_div_cancel_left _ (by decide)]
      ring
    · rfl

section Grid

variable {closed : Bool} {low value high num den : Nat}

/-- Whether the grid point `t` lies in the interval. -/
def inGrid (closed : Bool) (low high num den t : Nat) : Bool :=
  if closed then low * num ≤ t * den && t * den ≤ high * num
  else low * num < t * den && t * den < high * num

theorem inGrid_of_gridHit? {t : Nat} (h : gridHit? closed low value high num den = some t) :
    inGrid closed low high num den t = true := by
  unfold gridHit? at h
  dsimp only at h
  split at h
  · rename_i hbelow _
    exact Option.some.inj h ▸ hbelow
  · rename_i habove
    exact Option.some.inj h ▸ habove
  · rename_i hbelow habove
    split at h
    · exact Option.some.inj h ▸ hbelow
    · exact Option.some.inj h ▸ habove
  · cases h

/-- A grid whose step is smaller than the interval has a point in it. -/
theorem exists_gridHit? (hden : 0 < den) (hnum : 0 < num) (hlow : low ≤ value)
    (hhigh : value < high) (hstep : 1 * den < (high - low) * num) :
    ∃ t, gridHit? closed low value high num den = some t := by
  have hbelow : value * num / den * den ≤ value * num := Nat.div_mul_le_self ..
  have habove : value * num < (value * num / den + 1) * den := Nat.lt_mul_of_div_lt (by omega) hden
  have : low * num ≤ value * num := Nat.mul_le_mul_right _ hlow
  have : value * num < high * num := Nat.mul_lt_mul_of_pos_right hhigh hnum
  have hone : inGrid closed low high num den (value * num / den) = true ∨
      inGrid closed low high num den (value * num / den + 1) = true := by
    unfold inGrid
    generalize value * num / den = below at *
    rw [Nat.sub_mul] at hstep
    rw [Nat.add_mul] at *
    cases closed <;> simp <;> omega
  unfold gridHit?
  dsimp only
  split
  · exact ⟨_, rfl⟩
  · exact ⟨_, rfl⟩
  · split <;> exact ⟨_, rfl⟩
  · rename_i hbelow habove
    cases hone with
    | inl h => cases h.symm.trans hbelow
    | inr h => cases h.symm.trans habove

end Grid

namespace Binary

variable {b : Binary}

/-- The estimate of the decimal logarithm from the binary one is never too large. -/
theorem ten_pow_le_two_pow : ∀ n < 1075,
    10 ^ (n * 30102999566398119521 / 10 ^ 20) ≤ 2 ^ n ∧
      2 ^ n ≤ 10 ^ ((n * 30102999566398119521 + (10 ^ 20 - 1)) / 10 ^ 20) := by
  decide +kernel

theorem zpow_fdiv_le {e : Int} (hlow : -1074 ≤ e) (hhigh : e ≤ 1024) :
    (10 : ℚ) ^ Int.fdiv (e * 30102999566398119521) (Nat.pow 10 20) ≤ 2 ^ e := by
  obtain ⟨n, rfl | rfl⟩ := e.eq_nat_or_neg
  · have := (ten_pow_le_two_pow n (by omega)).1
    rw [show Int.fdiv (n * 30102999566398119521) (Nat.pow 10 20) =
      ((n * 30102999566398119521 / 10 ^ 20 : Nat) : Int) by
        rw [Int.fdiv_eq_ediv_of_nonneg _ (by positivity)]; push_cast; rfl]
    exact_mod_cast this
  · have := (ten_pow_le_two_pow n (by omega)).2
    rw [show Int.fdiv (-n * 30102999566398119521) (Nat.pow 10 20) =
      -(((n * 30102999566398119521 + (10 ^ 20 - 1)) / 10 ^ 20 : Nat) : Int) by
        rw [Int.fdiv_eq_ediv_of_nonneg _ (by positivity), Nat.pow_eq]
        norm_num
        omega]
    rw [zpow_neg, zpow_neg]
    gcongr
    exact_mod_cast this

/-- The first digit stands where `magnitude` says, or further left. -/
theorem Normal.pow_magnitude_le (h : b.Normal) (hm : b.mantissa ≠ 0) :
    (10 : ℚ) ^ (b.magnitude - 1) ≤ b.mantissa * 2 ^ b.exponent := by
  have hlog : b.mantissa.log2 ≤ 52 := by
    have := (Nat.log2_lt hm).mpr h.mantissa_lt
    omega
  have hfirst : (2 : ℚ) ^ ((b.mantissa.log2 : Int) + b.exponent) ≤ b.mantissa * 2 ^ b.exponent := by
    rw [zpow_add₀ two_ne_zero]
    gcongr
    exact_mod_cast Nat.log2_self_le hm
  have hle := h.exponent_le
  have hge : -1074 ≤ b.exponent := h.le_exponent
  unfold magnitude
  dsimp only
  generalize hk : Int.fdiv _ _ = k
  split
  · rw [add_sub_cancel_right, ← hk]
    exact (zpow_fdiv_le (by omega) (by omega)).trans hfirst
  · rename_i hlt
    have hpos := inUnits_pos (Nat.pos_of_ne_zero hm) Nat.one_pos (-b.exponent)
    have hpos := timesPower_pos hpos.1 hpos.2 (-(k + 1))
    have hdiv := timesPower_div (inUnits b.mantissa 1 (-b.exponent)).1
      (inUnits b.mantissa 1 (-b.exponent)).2 (-(k + 1))
    generalize timesPower _ _ (-(k + 1)) = p at *
    have hone : (1 : ℚ) ≤ p.1 / p.2 := (one_le_div (by exact_mod_cast hpos.2)).mpr
      (by exact_mod_cast Nat.le_of_not_lt hlt)
    rw [hdiv, inUnits_div, zpow_neg, zpow_neg, div_inv_eq_mul, Nat.cast_one, div_one,
      ← div_eq_mul_inv, one_le_div (by positivity)] at hone
    rwa [add_sub_cancel_right]

/-- Seventeen digits are enough. -/
theorem Normal.pow_lt (h : b.Normal) (hm : b.mantissa ≠ 0) :
    (10 : ℚ) ^ (b.magnitude - 17) < (b.high - b.low : Nat) * b.quarter := by
  have hpos := b.quarter_pos
  have hstep : (10 : ℚ) ^ (b.magnitude - 17) * 10 ^ 16 ≤ 4 * b.mantissa * b.quarter := by
    have hfirst := h.pow_magnitude_le hm
    rw [← quarter_mul_four, ← mul_assoc, mul_comm _ 4] at hfirst
    rwa [← zpow_natCast, ← zpow_add₀ (by norm_num), show b.magnitude - 17 + (16 : Nat) =
      b.magnitude - 1 by push_cast; ring]
  have hwidth : 4 * b.mantissa < 10 ^ 16 * (b.high - b.low) := by
    have := h.mantissa_lt
    simp only [low, high, Nat.pow_eq] at this ⊢
    split <;> omega
  have hwidth : (4 * b.mantissa : ℚ) < 10 ^ 16 * (b.high - b.low : Nat) := by
    exact_mod_cast hwidth
  nlinarith

/-- A grid point compares with a multiple of the unit as it does after scaling. -/
theorem cmp_scaled {num den : Nat} {u v : ℚ} (hden : 0 < den) (hv : 0 < v)
    (h : (num : ℚ) / den = u / v) (a t : Nat) :
    cmp (a * num) (t * den) = cmp (a * u) (t * v) := by
  have hden : (0 : ℚ) < den := by exact_mod_cast hden
  have hcross := (div_eq_div_iff hden.ne' hv.ne').mp h
  calc cmp (a * num) (t * den)
      = cmp ((a * num : Nat) : ℚ) (t * den : Nat) := (Nat.strictMono_cast.cmp_map_eq _ _).symm
    _ = cmp ((a * num : Nat) * v) ((t * den : Nat) * v) := (cmp_mul_pos_right hv _ _).symm
    _ = cmp (a * u * den) (t * v * den) := by
      refine congrArg₂ cmp ?_ ?_
      · rw [Nat.cast_mul, mul_assoc, hcross, ← mul_assoc]
      · rw [Nat.cast_mul, mul_right_comm]
    _ = cmp (a * u) (t * v) := cmp_mul_pos_right hden _ _

theorem holds_shortest (h : b.Normal) : b.Holds b.shortest.value := by
  have hpos := b.quarter_pos
  by_cases hm : b.mantissa = 0
  · have hlow : b.low = 0 := by simp [low, hm]
    have hvalue : b.shortest.value = 0 := by simp [shortest, hm, Numeral.value]
    rw [hvalue]
    exact ⟨by simp [hlow], by positivity, by simp [hm]⟩
  let scale (i : Nat) := timesPower (inUnits 1 1 (2 - b.exponent)).1
    (inUnits 1 1 (2 - b.exponent)).2 (i + 1 - b.magnitude)
  have hunits := inUnits_pos Nat.one_pos Nat.one_pos (2 - b.exponent)
  have hscale (i : Nat) : 0 < (scale i).1 ∧ 0 < (scale i).2 :=
    timesPower_pos hunits.1 hunits.2 _
  have hcmp (i a t : Nat) : cmp (a * (scale i).1) (t * (scale i).2) =
      cmp (a * b.quarter) (t * 10 ^ (b.magnitude - (i + 1))) := by
    refine cmp_scaled (hscale i).2 (by positivity) ?_ a t
    rw [timesPower_div, inUnits_div, Nat.cast_one, div_one, one_div, ← zpow_neg, neg_sub,
      ← neg_sub b.magnitude, zpow_neg, div_eq_mul_inv, quarter]
  have hhit : b.shortest = (((List.range 17).findSome? fun i =>
      (gridHit? (b.mantissa % 2 == 0) b.low (4 * b.mantissa) b.high (scale i).1 (scale i).2).map
        fun t => (⟨t, b.magnitude - (i + 1)⟩ : Numeral)).getD ⟨0, 0⟩).stripZeros 18 := by
    rw [shortest, if_neg hm]
    rfl
  rw [hhit, Numeral.value_stripZeros]
  generalize hfound : List.findSome? _ _ = hit
  cases hit with
  | none =>
    have hnone := findSome?_eq_none_iff.mp hfound 16 (by simp)
    have hstep := (lt_iff_lt_of_cmp_eq_cmp (cmp_eq_cmp_symm.mp (hcmp 16 (b.high - b.low) 1))).mpr
      (by rw [Nat.cast_one, one_mul]; exact h.pow_lt hm)
    have hlow : b.low ≤ 4 * b.mantissa := by unfold low; split <;> omega
    have hhigh : 4 * b.mantissa < b.high := by unfold high; omega
    obtain ⟨t, ht⟩ := exists_gridHit? (hscale 16).2 (hscale 16).1 hlow hhigh hstep
    rw [ht] at hnone
    cases hnone
  | some d =>
    obtain ⟨i, -, hd⟩ := exists_of_findSome?_eq_some hfound
    obtain ⟨t, ht, rfl⟩ := Option.map_eq_some_iff.mp hd
    have hin := inGrid_of_gridHit? ht
    have hlow := hcmp i b.low t
    have hhigh := cmp_eq_cmp_symm.mp (hcmp i b.high t)
    simp only [inGrid, le_iff_le_of_cmp_eq_cmp hlow, lt_iff_lt_of_cmp_eq_cmp hlow,
      le_iff_le_of_cmp_eq_cmp hhigh, lt_iff_lt_of_cmp_eq_cmp hhigh] at hin
    by_cases heven : b.mantissa % 2 = 0
    · simp only [heven, BEq.rfl, if_true, Bool.and_eq_true, decide_eq_true_eq] at hin
      exact ⟨hin.1, hin.2, by omega⟩
    · simp only [beq_eq_false_iff_ne.mpr heven, Bool.false_eq_true, if_false,
        Bool.and_eq_true, decide_eq_true_eq] at hin
      exact ⟨hin.1.le, hin.2.le, fun _ => hin⟩

end Binary

/-! ## The layout keeps the decimal -/

/-- The number that digits with a point among them stand for. -/
def read (cs : List Char) : ℚ :=
  let fraction := (cs.dropWhile (· ≠ '.')).tail
  Nat.ofDigitChars 10 (cs.takeWhile (· ≠ '.') ++ fraction) 0 / 10 ^ fraction.length

/-- Whether every character is a digit. -/
def AllDigits (cs : List Char) : Prop := ∀ c ∈ cs, c.isDigit = true

theorem allDigits_append {cs cs' : List Char} :
    AllDigits (cs ++ cs') ↔ AllDigits cs ∧ AllDigits cs' := by
  simp only [AllDigits, mem_append]
  exact ⟨fun h => ⟨fun c hc => h c (.inl hc), fun c hc => h c (.inr hc)⟩,
    fun h c hc => hc.elim (h.1 c) (h.2 c)⟩

theorem allDigits_toDigits (n : Nat) : AllDigits (Nat.toDigits 10 n) := fun _ =>
  Nat.isDigit_of_mem_toDigits (by decide) (by decide)

theorem allDigits_zeros (n : Nat) : AllDigits (zeros n) := fun c hc => by
  rw [eq_of_mem_replicate hc]
  rfl

theorem AllDigits.ne_point {cs : List Char} (h : AllDigits cs) : ∀ c ∈ cs, decide (c ≠ '.') := by
  intro c hc
  have hdigit := h c hc
  refine decide_eq_true ?_
  rintro rfl
  cases hdigit

/-- The positional layout is a run of digits or two runs with a point between them, and what
they stand for is the decimal. -/
theorem Numeral.exists_positional (d : Numeral) : ∃ whole fraction : List Char,
    AllDigits whole ∧ AllDigits fraction ∧ whole ≠ [] ∧
      (d.positional = whole ∧ fraction = [] ∨ d.positional = whole ++ '.' :: fraction) ∧
      (Nat.ofDigitChars 10 (whole ++ fraction) 0 : ℚ) / 10 ^ fraction.length = d.value := by
  have hds := allDigits_toDigits d.digits
  have hread : Nat.ofDigitChars 10 (Nat.toDigits 10 d.digits) 0 = d.digits :=
    Nat.ofDigitChars_ten_toDigits
  unfold positional value
  dsimp only
  have hne : Nat.toDigits 10 d.digits ≠ [] := Nat.toDigits_ne_nil
  generalize Nat.toDigits 10 d.digits = ds at *
  have hlength := length_pos_iff.mpr hne
  split
  · obtain ⟨n, hn⟩ := Int.eq_ofNat_of_zero_le ‹0 ≤ d.exponent›
    refine ⟨_, [], allDigits_append.mpr ⟨hds, allDigits_zeros _⟩, by simp [AllDigits],
      by simp [hne], .inl ⟨rfl, rfl⟩, ?_⟩
    rw [append_nil, Nat.ofDigitChars_append, hread, hn, zeros, Int.toNat_natCast,
      Nat.ofDigitChars_replicate_zero]
    simp [mul_comm]
  obtain ⟨n, hn⟩ : ∃ n : Nat, d.exponent = -n := ⟨(-d.exponent).toNat, by omega⟩
  have hvalue : (d.digits : ℚ) / 10 ^ n = d.digits * 10 ^ d.exponent := by
    rw [hn, zpow_neg, zpow_natCast, div_eq_mul_inv]
  split
  · refine ⟨_, _, fun c hc => hds c (mem_of_mem_take hc),
      fun c hc => hds c (mem_of_mem_drop hc), ?_, .inr rfl, ?_⟩
    · simp only [ne_eq, take_eq_nil_iff, hne, or_false]
      omega
    · rw [take_append_drop, hread, length_drop, ← hvalue]
      congr 2
      omega
  · refine ⟨['0'], _, by simp [AllDigits], allDigits_append.mpr ⟨allDigits_zeros _, hds⟩,
      by simp, .inr rfl, ?_⟩
    have hzero : Nat.ofDigitChars 10 ['0'] 0 = 0 := rfl
    rw [Nat.ofDigitChars_append, Nat.ofDigitChars_append, hzero, zeros,
      Nat.ofDigitChars_replicate_zero, Nat.mul_zero, hread, length_append,
      length_replicate, ← hvalue]
    congr 2
    omega

theorem read_positional (d : Numeral) : read d.positional = d.value := by
  obtain ⟨whole, fraction, hwhole, -, -, ⟨heq, rfl⟩ | heq, hvalue⟩ := d.exists_positional
  · rw [heq, read, takeWhile_eq_self_iff.mpr hwhole.ne_point,
      dropWhile_eq_nil_iff.mpr hwhole.ne_point]
    exact hvalue
  · rw [heq, read, takeWhile_append_of_pos hwhole.ne_point,
      dropWhile_append_of_pos hwhole.ne_point]
    simpa using hvalue

theorem mem_positional {d : Numeral} {c : Char} (h : c ∈ d.positional) :
    c.isDigit = true ∨ c = '.' := by
  obtain ⟨whole, fraction, hwhole, hfraction, -, ⟨heq, -⟩ | heq, -⟩ := d.exists_positional
  · exact .inl (hwhole c (heq ▸ h))
  · rw [heq, mem_append, mem_cons] at h
    obtain h | rfl | h := h
    · exact .inl (hwhole c h)
    · exact .inr rfl
    · exact .inl (hfraction c h)

/-! ## Bits -/

theorem normal_ofFloat (x : Float) : (Binary.ofFloat x).Normal := by
  unfold Binary.ofFloat
  simp only [Nat.pow_eq]
  split
  · constructor <;> simp [leastExponent]; omega
  · constructor <;> simp [leastExponent] <;> omega

theorem eq_of_ofFloat_eq {x y : Float} (h : Binary.ofFloat x = Binary.ofFloat y)
    (hsign : isNegative x = isNegative y) : x = y := by
  suffices hbits : x.toBits.toNat = y.toBits.toNat by
    have hbits := UInt64.toNat_inj.mp hbits
    cases x with
    | ofModel m =>
      cases m
      cases y with
      | ofModel m' =>
        cases m'
        cases hbits
        rfl
  have hx := x.toBits.toNat_lt
  have hy := y.toBits.toNat_lt
  unfold isNegative at hsign
  rw [Bool.eq_iff_iff, beq_iff_eq, beq_iff_eq] at hsign
  unfold Binary.ofFloat at h
  simp only [Nat.pow_eq, leastExponent] at h hsign
  split at h <;> split at h <;> simp only [Binary.mk.injEq] at h <;> omega

theorem bits_of_isInf {v : BitVec 64} (h : (UnpackedFloat.unpack double v).isInf = true) :
    @unpackExponent double v = -1#_ ∧ @unpackMantissa double v = 0#_ := by
  unfold UnpackedFloat.unpack at h
  dsimp only at h
  by_cases hmost : @unpackExponent double v = -1#_
  · rw [if_pos hmost] at h
    by_cases hmantissa : @unpackMantissa double v = 0#_
    · exact ⟨hmost, hmantissa⟩
    · rw [if_neg hmantissa] at h
      cases h
  rw [if_neg hmost] at h
  by_cases hleast : @unpackExponent double v = 0#_
  · rw [if_pos hleast] at h
    by_cases hmantissa : @unpackMantissa double v = 0#_
    · rw [dif_pos hmantissa] at h
      cases h
    · rw [dif_neg hmantissa] at h
      cases h
  · rw [if_neg hleast] at h
    cases h

theorem ofFloat_of_isInf {x : Float} (h : x.isInf = true) :
    Binary.ofFloat x = ⟨Nat.pow 2 52, 972⟩ := by
  obtain ⟨hexponent, hmantissa⟩ := bits_of_isInf (v := x.toBits.toBitVec) h
  have hexponent : x.toBits.toNat >>> 52 % 2048 = 2047 := by
    simpa [unpackExponent] using congrArg BitVec.toNat hexponent
  have hmantissa : x.toBits.toNat % 4503599627370496 = 0 := by
    simpa [unpackMantissa] using congrArg BitVec.toNat hmantissa
  rw [Nat.shiftRight_eq_div_pow] at hexponent
  unfold Binary.ofFloat
  simp [hexponent, hmantissa]

/-! ## The text of a number -/

/-- What is written for a number after its sign. -/
def magnitudeText (x : Float) : List Char :=
  if x.isInf then ['I', 'n', 'f'] else (Binary.ofFloat x).shortest.positional

theorem toList_text {x : Float} (h : x.isNaN = false) : (formulaLayout.text x).toList =
    if isNegative x then '-' :: magnitudeText x else magnitudeText x := by
  unfold Layout.text magnitudeText
  rw [h]
  cases x.isInf <;> cases isNegative x <;> simp [formulaLayout]

theorem mem_magnitudeText {x : Float} {c : Char} (h : c ∈ magnitudeText x) :
    c.isDigit = true ∨ c ∈ ['.', 'I', 'n', 'f'] := by
  unfold magnitudeText at h
  split at h
  · exact .inr (mem_cons_of_mem _ h)
  · exact (mem_positional h).imp_right (by rintro rfl; exact mem_cons_self)

theorem text_ne_empty {x : Float} (h : x.isNaN = false) : (formulaLayout.text x).toList ≠ [] := by
  rw [toList_text h]
  split
  · simp
  unfold magnitudeText
  split
  · simp
  obtain ⟨whole, fraction, -, -, hne, ⟨heq, -⟩ | heq, -⟩ :=
    (Binary.ofFloat x).shortest.exists_positional
  · rwa [heq]
  · simp [heq]

/-- The characters that numbers are written with. -/
def isNumeric (c : Char) : Bool := c.isDigit || ['-', '.', 'I', 'n', 'f'].contains c

theorem isNumeric_of_mem_text {x : Float} {c : Char} (h : x.isNaN = false)
    (hc : c ∈ (formulaLayout.text x).toList) : isNumeric c = true := by
  rw [isNumeric, Bool.or_eq_true, contains_iff_mem]
  have hmagnitude (hc : c ∈ magnitudeText x) := (mem_magnitudeText hc).imp_right
    (mem_cons_of_mem '-')
  rw [toList_text h] at hc
  split at hc
  · obtain rfl | hc := mem_cons.mp hc
    · exact .inr mem_cons_self
    · exact hmagnitude hc
  · exact hmagnitude hc

/-- The text after the sign tells magnitudes apart. -/
theorem ofFloat_eq_of_magnitudeText_eq {x y : Float} (h : magnitudeText x = magnitudeText y) :
    Binary.ofFloat x = Binary.ofFloat y := by
  have hinf {z w : Float} (hz : z.isInf = true) (hw : w.isInf = false) :
      magnitudeText z ≠ magnitudeText w := by
    intro h
    have hmem : 'I' ∈ (Binary.ofFloat w).shortest.positional := by
      simp only [magnitudeText, hz, hw, if_true, Bool.false_eq_true, if_false] at h
      exact h ▸ mem_cons_self
    exact absurd (mem_positional hmem) (by decide)
  cases hx : x.isInf <;> cases hy : y.isInf
  · have h : (Binary.ofFloat x).shortest.positional = (Binary.ofFloat y).shortest.positional := by
      simpa [magnitudeText, hx, hy] using h
    refine (normal_ofFloat x).eq_of_holds (normal_ofFloat y)
      (Binary.holds_shortest (normal_ofFloat x)) ?_
    rw [← read_positional, h, read_positional]
    exact Binary.holds_shortest (normal_ofFloat y)
  · exact absurd h.symm (hinf hy hx)
  · exact absurd h (hinf hx hy)
  · rw [ofFloat_of_isInf hx, ofFloat_of_isInf hy]

theorem text_inj {x y : Float} (hx : x.isNaN = false) (hy : y.isNaN = false)
    (h : formulaLayout.text x = formulaLayout.text y) : x = y := by
  have h := congrArg String.toList h
  rw [toList_text hx, toList_text hy] at h
  have hminus (z : Float) (cs : List Char) : '-' :: cs ≠ magnitudeText z := by
    intro h
    cases mem_magnitudeText (h ▸ mem_cons_self) with
    | inl h => cases h
    | inr h => simp at h
  cases hsign : isNegative x <;> cases hsign' : isNegative y <;>
    simp only [hsign, hsign', if_true, Bool.false_eq_true, if_false] at h
  · exact eq_of_ofFloat_eq (ofFloat_eq_of_magnitudeText_eq h) (hsign.trans hsign'.symm)
  · exact absurd h.symm (hminus x _)
  · exact absurd h (hminus y _)
  · exact eq_of_ofFloat_eq (ofFloat_eq_of_magnitudeText_eq (List.cons.inj h).2)
      (hsign.trans hsign'.symm)

end FormulaFold.Decimal
