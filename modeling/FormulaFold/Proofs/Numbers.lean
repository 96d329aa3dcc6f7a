import FormulaFold.Engine.Basic
import Mathlib.Algebra.Group.Nat.Defs

/-! # Whole numbers as computed numbers

Positions and counts are whole numbers that take part in formulas as binary floating-point
numbers.  **The number of a whole number other than zero is not zero**, and **it is finite when
the whole number is that of a word** (`ofInt_eq_zero`, `isFinite_ofInt`).

Both follow from the form in which a positive whole number is kept: a significand of 53 bits and
an exponent that its size determines (`exists_ofNat_eq`).
-/
namespace FormulaFold

open Float.Model UnpackedFloat

/-! ## Packing -/

/-- The format in which numbers are packed. -/
abbrev double : Format := Format.binary64

theorem ofBitVec_unpackSign {sign : Sign} {exponent : BitVec double.exponentBits}
    {mantissa : BitVec double.mantissaBitsWithoutImplicit} :
    Sign.ofBitVec (unpackSign (packComponents double sign exponent mantissa)) = sign := by
  have hbit : unpackSign (packComponents double sign exponent mantissa) = sign.toBitVec := by
    refine BitVec.eq_of_getLsbD_eq fun i hi => ?_
    obtain rfl : i = 0 := by omega
    have hlast (x : BitVec (1 + 11)) (y : BitVec 52) : (x ++ y).getLsbD 63 = x.getLsbD 11 := by
      rw [BitVec.getLsbD_append]
      rfl
    have hfirst (x : BitVec 1) (y : BitVec 11) : (x ++ y).getLsbD 11 = x.getLsbD 0 := by
      rw [BitVec.getLsbD_append]
      rfl
    unfold unpackSign packComponents
    simp only [BitVec.getLsbD_cast, BitVec.getLsbD_extractLsb]
    exact (hlast _ _).trans (hfirst _ _)
  rw [hbit]
  cases sign <;> rfl

/-- A significand of 53 bits. -/
def IsSignificand (m : Nat) : Prop := 2 ^ 52 ≤ m ∧ m < 2 ^ 53

theorem IsSignificand.log2 {m : Nat} (h : IsSignificand m) : m.log2 = 52 :=
  (Nat.log2_eq_iff (by unfold IsSignificand at h; omega)).mpr h

theorem finite_congr {sign sign' : Sign} {m m' : Nat} {e e' : Int} {hm : 0 < m} {hm' : 0 < m'}
    (hsign : sign = sign') (hmantissa : m = m') (hexponent : e = e') :
    UnpackedFloat.finite sign m e hm = .finite sign' m' e' hm' := by
  subst hsign hmantissa hexponent
  rfl

/-- What is packed and unpacked again is the same unless it is too large. -/
theorem unpack_pack {sign : Sign} {m : Nat} {e : Int} {hm : 0 < m} (h : IsSignificand m)
    (he : -1074 ≤ e) :
    UnpackedFloat.unpack double (UnpackedFloat.pack double (.finite sign m e hm)) =
      if e ≤ 971 then .finite sign m e hm else .infinity sign := by
  have hbiased : e + (double.exponentBias : Int) + (double.mantissaBitsWithoutImplicit : Int) =
      e + 1075 := by
    change e + 1023 + 52 = e + 1075
    omega
  obtain ⟨k, hk⟩ : ∃ k : Nat, e + 1075 = k := ⟨(e + 1075).toNat, by omega⟩
  have hlog : m.log2 + 1 = double.mantissaBits := by
    rw [h.log2]
    rfl
  generalize hr : (if e ≤ 971 then UnpackedFloat.finite sign m e hm else .infinity sign) = r
  unfold UnpackedFloat.pack
  simp only [hbiased, hk, Int.toNat_natCast, hlog, if_true]
  subst hr
  by_cases hlarge : e ≤ 971
  · have hexponent : (BitVec.ofNat double.exponentBits k).toNat = k := by
      rw [BitVec.toNat_ofNat]
      exact Nat.mod_eq_of_lt (by change k < 2048; omega)
    have hnone : BitVec.ofNat double.exponentBits k ≠ -1#_ := by
      intro heq
      have heq := congrArg BitVec.toNat heq
      rw [hexponent] at heq
      have : k = 2047 := heq
      omega
    have hzero : BitVec.ofNat double.exponentBits k ≠ 0#_ := by
      intro heq
      have heq := congrArg BitVec.toNat heq
      rw [hexponent] at heq
      have : k = 0 := heq
      omega
    have hmantissa : (1#1 ++ BitVec.ofNat double.mantissaBitsWithoutImplicit m).toNat = m := by
      rw [BitVec.toNat_append, BitVec.toNat_ofNat]
      change 1 <<< 52 ||| m % 2 ^ 52 = m
      rw [← Nat.shiftLeft_add_eq_or_of_lt (Nat.mod_lt m (by decide))]
      unfold IsSignificand at h
      omega
    rw [if_neg (by change ¬2048 ≤ k + 1; omega), if_pos hlarge]
    unfold UnpackedFloat.unpack
    dsimp only
    rw [if_neg (by rwa [unpackExponent_packComponents]),
      if_neg (by rwa [unpackExponent_packComponents])]
    refine finite_congr ofBitVec_unpackSign ?_ ?_
    · rw [unpackMantissa_packComponents, hmantissa]
    · rw [unpackExponent_packComponents, hexponent]
      change (k : Int) - (1023 + 52) = e
      omega
  · rw [if_pos (by change 2048 ≤ k + 1; omega), if_neg hlarge]
    unfold UnpackedFloat.unpack packedInfinity
    dsimp only
    rw [if_pos (by rw [unpackExponent_packComponents]),
      if_pos (by rw [unpackMantissa_packComponents]; rfl), ofBitVec_unpackSign]

/-! ## Rounding -/

theorem mantissa_shiftRight (em : ExtendedMantissa) (n : Nat) :
    (em >>> n).mantissa = em.mantissa / 2 ^ n := by
  change (n.repeat ExtendedMantissa.shiftRightOne em).mantissa = _
  induction n with
  | zero => simp [Nat.repeat]
  | succ n ih =>
    rw [Nat.repeat, ExtendedMantissa.shiftRightOne, ih, Nat.div_div_eq_div_mul, Nat.pow_succ]

theorem roundedMantissa_bounds (em : ExtendedMantissa) :
    em.mantissa ≤ em.roundedMantissa ∧ em.roundedMantissa ≤ em.mantissa + 1 := by
  unfold ExtendedMantissa.roundedMantissa Accuracy.roundToNearestEven
  split <;> omega

theorem targetExponent_eq {m : Nat} {e : Int} (h : -1021 ≤ m.log2 + e) :
    double.targetExponent (totalExponent m e) = m.log2 + e - 52 := by
  change max ((m.log2 : Int) + 1 + e - 53) (3 - 1024 - 53) = _
  omega

/-- A significand that rounding may have made one bit too long is shifted once more. -/
theorem exists_shift_eq {r : Nat} {e : Int} (hlow : 2 ^ 52 ≤ r) (hhigh : r ≤ 2 ^ 53)
    (he : -1073 ≤ e) :
    ∃ m' e', IsSignificand m' ∧ (shiftToTargetExponent double r e .exact).1.mantissa = m' ∧
      (shiftToTargetExponent double r e .exact).2 = e' ∧ e ≤ e' ∧ e' ≤ e + 1 := by
  unfold shiftToTargetExponent shiftToExponent
  simp only [mantissa_shiftRight]
  by_cases hr : r < 2 ^ 53
  · have hsig : IsSignificand r := ⟨hlow, hr⟩
    rw [targetExponent_eq (by rw [hsig.log2]; omega), hsig.log2]
    have hshift : (((52 : Nat) : Int) + e - 52 - e).toNat = 0 := by omega
    rw [hshift]
    exact ⟨r, e, hsig, Nat.div_one r, Int.add_zero e, by omega, by omega⟩
  · obtain rfl : r = 2 ^ 53 := by omega
    have hlog : (2 ^ 53 : Nat).log2 = 53 := Nat.log2_two_pow
    rw [targetExponent_eq (by rw [hlog]; omega), hlog]
    have hshift : (((53 : Nat) : Int) + e - 52 - e).toNat = 1 := by omega
    rw [hshift]
    exact ⟨2 ^ 52, e + 1, ⟨Nat.le_refl _, by decide⟩, by decide, rfl, by omega, by omega⟩

/-- Rounding a large enough significand gives one of 53 bits, and the exponent that makes up for
the bits dropped. -/
theorem exists_round_eq (sign : Sign) {m : Nat} {e : Int} (hm : 2 ^ 52 ≤ m)
    (he : -1021 ≤ m.log2 + e) :
    ∃ m' e' h, roundWithAccuracy double sign m e .exact = .finite sign m' e' h ∧
      IsSignificand m' ∧ m.log2 + e - 52 ≤ e' ∧ e' ≤ m.log2 + e - 51 := by
  have hm0 : m ≠ 0 := by omega
  obtain ⟨k, hk⟩ : ∃ k, m.log2 = k + 52 := by
    have := (Nat.le_log2 hm0).mpr hm
    exact ⟨m.log2 - 52, by omega⟩
  -- The first shift leaves 53 bits.
  have hfirst : shiftToTargetExponent double m e .exact =
      (ExtendedMantissa.ofMantissaAndAccuracy m .exact >>> k, e + k) := by
    unfold shiftToTargetExponent shiftToExponent
    rw [targetExponent_eq he, hk]
    have hshift : (((k + 52 : Nat) : Int) + e - 52 - e).toNat = k := by omega
    simp only [hshift]
  have hbits : IsSignificand (m / 2 ^ k) := by
    have hlow := Nat.log2_self_le hm0
    have hhigh := @Nat.lt_log2_self m
    rw [hk] at hlow hhigh
    constructor
    · rw [Nat.le_div_iff_mul_le (Nat.two_pow_pos k), ← Nat.pow_add, Nat.add_comm]
      exact hlow
    · rw [Nat.div_lt_iff_lt_mul (Nat.two_pow_pos k), ← Nat.pow_add, Nat.add_comm]
      exact hhigh
  have hround := roundedMantissa_bounds (ExtendedMantissa.ofMantissaAndAccuracy m .exact >>> k)
  rw [mantissa_shiftRight] at hround
  obtain ⟨m', e', hsig, hmantissa, hexponent, hlow, hhigh⟩ :=
    exists_shift_eq (Nat.le_trans hbits.1 hround.1) (Nat.le_trans hround.2 hbits.2)
      (e := e + k) (by omega)
  have hm' : m' ≠ 0 := by
    unfold IsSignificand at hsig
    omega
  refine ⟨m', e', Nat.pos_of_ne_zero hm', ?_, hsig, by omega, by omega⟩
  subst hmantissa hexponent
  unfold roundWithAccuracy
  rw [hfirst]
  exact dif_neg hm'

/-! ## Whole numbers -/

theorem log2_shiftLeft {n : Nat} (hn : n ≠ 0) (k : Nat) : (n <<< k).log2 = n.log2 + k := by
  induction k with
  | zero => rfl
  | succ k ih =>
    have hk : n <<< k ≠ 0 := by
      rw [Nat.shiftLeft_eq]
      exact Nat.mul_ne_zero hn (Nat.ne_of_gt (Nat.two_pow_pos k))
    rw [Nat.shiftLeft_succ, Nat.log2_two_mul hk, ih]
    rfl

theorem le_shiftLeft {n k : Nat} (hn : n ≠ 0) (hk : 52 ≤ n.log2 + k) : 2 ^ 52 ≤ n <<< k := by
  have hne : n <<< k ≠ 0 := by
    rw [Nat.shiftLeft_eq]
    exact Nat.mul_ne_zero hn (Nat.ne_of_gt (Nat.two_pow_pos k))
  refine (Nat.le_log2 hne).mp ?_
  rwa [log2_shiftLeft hn]

/-- A small whole number is shifted up to 53 bits. -/
theorem exists_small_eq {n : Nat} (hn : n ≠ 0) (hlt : n < 2 ^ 53) :
    ∃ m e h, UnpackedFloat.ofNat double n = .finite .positive m e h ∧ IsSignificand m ∧
      n.log2 - 52 ≤ e ∧ e ≤ n.log2 - 51 := by
  obtain ⟨k, hk⟩ : ∃ k, n.log2 + k = 52 := by
    have := (Nat.log2_lt hn).mpr hlt
    exact ⟨52 - n.log2, by omega⟩
  have hof : UnpackedFloat.ofNat double n =
      roundWithAccuracy double .positive (n <<< k) (-(k : Int)) .exact := by
    have hcmp : compare (n : Int) 0 = .gt := by
      rw [Int.compare_eq_gt]
      omega
    unfold UnpackedFloat.ofNat UnpackedFloat.ofInt UnpackedFloat.normalize
    rw [hcmp]
    unfold UnpackedFloat.round decreaseExponent
    simp only [Int.toNat_natCast]
    rw [targetExponent_eq (by omega)]
    have hshift : (0 - ((n.log2 : Int) + 0 - 52)).toNat = k := by omega
    simp only [hshift]
    rw [Int.zero_sub]
  have hlog := log2_shiftLeft hn k
  obtain ⟨m, e, h, heq, hsig, hlow, hhigh⟩ := exists_round_eq .positive
    (le_shiftLeft hn (Nat.le_of_eq hk.symm)) (e := -(k : Int)) (by omega)
  exact ⟨m, e, h, hof.trans heq, hsig, by omega, by omega⟩

theorem exists_mul_one_eq {m : Nat} {e : Int} {h : 0 < m} (hsig : IsSignificand m) (he : -52 ≤ e) :
    ∃ m' e' h', UnpackedFloat.mul double (.finite .positive m e h)
        (.finite .positive (2 ^ 52) (-52) (by decide)) = .finite .positive m' e' h' ∧
      IsSignificand m' ∧ e ≤ e' ∧ e' ≤ e + 1 := by
  have hm0 : m ≠ 0 := Nat.ne_of_gt h
  have hlog : (m * 2 ^ 52).log2 = 104 := by
    rw [← Nat.shiftLeft_eq, log2_shiftLeft hm0, hsig.log2]
  have hle : 2 ^ 52 ≤ m * 2 ^ 52 := Nat.le_mul_of_pos_left _ h
  obtain ⟨m', e', h', heq, hsig', hlow, hhigh⟩ :=
    exists_round_eq .positive hle (e := e + -52) (by omega)
  exact ⟨m', e', h', heq, hsig', by omega, by omega⟩

theorem ofScientific_zero {n : Nat} (hn : n ≠ 0) : UnpackedFloat.ofScientific double n 0 =
    roundWithAccuracy double .positive (n <<< 53) (-53) .exact := by
  unfold UnpackedFloat.ofScientific
  rw [dif_neg hn, if_neg (by decide),
    if_neg (by change ¬(0 : Int) < -(2048 + (n.log2 : Int)); omega), if_pos (by decide)]
  change roundWithAccuracy double .positive (n <<< 53 * 1) (-53 + 0) .exact = _
  rw [Nat.mul_one, Int.add_zero]

/-- **The number of a positive whole number.** -/
theorem exists_ofNat_eq {n : Nat} (hn : n ≠ 0) :
    ∃ m e h, Float.ofNat n = .ofModel (Float.Model.pack (.finite .positive m e h)) ∧
      IsSignificand m ∧ n.log2 - 52 ≤ e ∧ e ≤ n.log2 - 50 := by
  by_cases hlt : n < 2 ^ 53
  · obtain ⟨m, e, h, hsmall, hsig, hlow, hhigh⟩ := exists_small_eq hn hlt
    obtain ⟨m', e', h', hmul, hsig', hlow', hhigh'⟩ := exists_mul_one_eq (e := e) (h := h) hsig
      (by omega)
    refine ⟨m', e', h', ?_, hsig', by omega, by omega⟩
    have hlog := (Nat.log2_lt hn).mpr hlt
    -- A small number is multiplied by one.
    have hfast : Float.ofNat n = n.toUInt64.toFloat * Float.ofBits 0x3FF0000000000000 := by
      change Float.ofScientific n false 0 = _
      unfold Float.ofScientific
      rw [dif_pos ⟨hlt, by omega⟩]
      rfl
    have hone : (Float.ofBits 0x3FF0000000000000).toModel.unpack =
        .finite .positive (2 ^ 52) (-52) (by decide) := rfl
    have hbits : n.toUInt64.toNat = n := Nat.mod_eq_of_lt (by omega)
    have hunpack : n.toUInt64.toFloat.toModel.unpack = .finite .positive m e h := by
      change UnpackedFloat.unpack double (UnpackedFloat.pack double
        (UnpackedFloat.ofNat double n.toUInt64.toNat)) = _
      rw [hbits, hsmall, unpack_pack hsig (by omega), if_pos (by omega)]
    rw [hfast]
    change Float.ofModel (Float.Model.pack (UnpackedFloat.mul double
      n.toUInt64.toFloat.toModel.unpack (Float.ofBits 0x3FF0000000000000).toModel.unpack)) = _
    rw [hunpack, hone, hmul]
  · have hslow : Float.ofNat n = .ofModel (Float.Model.pack
        (UnpackedFloat.ofScientific double n 0)) := by
      change Float.ofScientific n false 0 = _
      unfold Float.ofScientific
      rw [dif_neg fun h => hlt h.1]
      rfl
    have hlog := log2_shiftLeft hn 53
    obtain ⟨m, e, h, heq, hsig, hlow, hhigh⟩ := exists_round_eq .positive
      (le_shiftLeft hn (k := 53) (by omega)) (e := -53) (by omega)
    refine ⟨m, e, h, ?_, hsig, by omega, by omega⟩
    rw [hslow, ofScientific_zero hn, heq]

/-- A whole number other than zero is kept as a finite number, or as an infinite one when it is
too large for a word. -/
theorem exists_unpack_ofInt {n : Int} (hn : n ≠ 0) :
    ∃ sign, (∃ m e h, (Float.ofInt n).toModel.unpack = .finite sign m e h) ∨
      (fitsWord n = false ∧ (Float.ofInt n).toModel.unpack = .infinity sign) := by
  have hword {k : Nat} (hk : n.natAbs = k) (hlarge : 971 < (k.log2 : Int) - 50) :
      fitsWord n = false := by
    have hlow := Nat.log2_self_le (n := k) (by omega)
    have hpow : 2 ^ 64 ≤ 2 ^ k.log2 := Nat.pow_le_pow_right (by decide) (by omega)
    unfold fitsWord
    simp only [Bool.and_eq_false_iff, decide_eq_false_iff_not]
    omega
  have hunpack {k : Nat} (hk : n.natAbs = k) :
      (∃ m e h, (Float.ofNat k).toModel.unpack = .finite .positive m e h ∧ IsSignificand m ∧
        -52 ≤ e ∧ e ≤ 971) ∨
      (fitsWord n = false ∧ (Float.ofNat k).toModel.unpack = .infinity .positive) := by
    obtain ⟨m, e, h, heq, hsig, hlow, hhigh⟩ := exists_ofNat_eq (n := k) (by omega)
    have hpack := @unpack_pack .positive m e h hsig (by omega)
    by_cases he : e ≤ 971
    · rw [if_pos he] at hpack
      exact .inl ⟨m, e, h, by rw [heq]; exact hpack, hsig, by omega, he⟩
    · rw [if_neg he] at hpack
      exact .inr ⟨hword hk (by omega), by rw [heq]; exact hpack⟩
  cases n with
  | ofNat k =>
    rcases hunpack rfl with ⟨m, e, h, heq, _⟩ | ⟨hlarge, heq⟩
    · exact ⟨.positive, .inl ⟨m, e, h, heq⟩⟩
    · exact ⟨.positive, .inr ⟨hlarge, heq⟩⟩
  | negSucc k =>
    have hneg : (Float.ofInt (Int.negSucc k)).toModel.unpack = UnpackedFloat.unpack double
        (UnpackedFloat.pack double (Float.ofNat (k + 1)).toModel.unpack.neg) := rfl
    rcases hunpack (k := k + 1) rfl with ⟨m, e, h, heq, hsig, hlow, hhigh⟩ | ⟨hlarge, heq⟩
    · refine ⟨.negative, .inl ⟨m, e, h, ?_⟩⟩
      rw [hneg, heq]
      exact (unpack_pack hsig (by omega)).trans (if_pos hhigh)
    · refine ⟨.negative, .inr ⟨hlarge, ?_⟩⟩
      rw [hneg, heq]
      rfl

/-- **The number of a whole number is zero only for zero.** -/
theorem ofInt_eq_zero {n : Int} (h : (Float.ofInt n == 0.0) = true) : Float.ofInt n = 0.0 := by
  by_cases hn : n = 0
  · rw [hn]
    rfl
  · have hcompare : (Float.ofInt n).toModel.unpack.compare (.zero .positive) = some .eq :=
      eq_of_beq h
    obtain ⟨sign, ⟨m, e, hm, heq⟩ | ⟨_, heq⟩⟩ := exists_unpack_ofInt hn
    all_goals
      rw [heq] at hcompare
      cases sign <;> cases hcompare

/-- **The number of a word is finite.** -/
theorem isFinite_ofInt {n : Int} (h : fitsWord n = true) : isFinite (Float.ofInt n) = true := by
  by_cases hn : n = 0
  · rw [hn]
    rfl
  · have hfinite : isFinite (Float.ofInt n) = (!(Float.ofInt n).toModel.unpack.isNaN &&
        !(Float.ofInt n).toModel.unpack.isInf) := rfl
    obtain ⟨sign, ⟨m, e, hm, heq⟩ | ⟨hlarge, _⟩⟩ := exists_unpack_ofInt hn
    · rw [hfinite, heq]
      rfl
    · rw [h] at hlarge
      cases hlarge

end FormulaFold
