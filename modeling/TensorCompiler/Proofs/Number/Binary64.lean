import Mathlib
import TensorCompiler.Number.Binary64

/-! # Integers among the binary64 numbers

What rounding an integer to a float preserves: a positive integer becomes a normal number, and a number between
one and two only if it is one. The integer is brought to fifty-three significant bits, rounded, and brought there
once more if the rounding carried; each of the two steps leaves the exponent where it is or raises it.
-/

namespace TensorCompiler.Binary64

open Float.Model Float.Model.UnpackedFloat

/-! ## Rounding -/

theorem mantissa_shiftRight (em : ExtendedMantissa) (n : Nat) : (em >>> n).mantissa = em.mantissa / 2 ^ n := by
  change (n.repeat ExtendedMantissa.shiftRightOne em).mantissa = _
  induction n with
  | zero => simp [Nat.repeat]
  | succ n ih =>
    rw [Nat.repeat, ExtendedMantissa.shiftRightOne, ih, Nat.div_div_eq_div_mul, ← Nat.pow_succ]

/-- A significand of fifty-three or more bits is brought to fifty-three. -/
theorem shiftToTargetExponent_eq {m : Nat} {e : Int} (acc : Accuracy) (hm : 52 ≤ m.log2) (he : -1000 ≤ e) :
    (shiftToTargetExponent .binary64 m e acc).1.mantissa = m / 2 ^ (m.log2 - 52) ∧
      (shiftToTargetExponent .binary64 m e acc).2 = e + (m.log2 - 52 : Nat) := by
  have htarget : Format.binary64.targetExponent (totalExponent m e) = e + (m.log2 - 52 : Nat) := by
    simp only [Format.targetExponent, totalExponent, Format.mantissaBits, Format.minExponent]
    omega
  have hshift : (e + (m.log2 - 52 : Nat) - e).toNat = m.log2 - 52 := by omega
  have hmantissa : (ExtendedMantissa.ofMantissaAndAccuracy m acc).mantissa = m := by
    unfold ExtendedMantissa.ofMantissaAndAccuracy
    split <;> rfl
  unfold shiftToTargetExponent shiftToExponent
  simp only [htarget, hshift, mantissa_shiftRight, hmantissa]
  exact ⟨trivial, trivial⟩

theorem log2_div_two_pow {m : Nat} (hm : 52 ≤ m.log2) : (m / 2 ^ (m.log2 - 52)).log2 = 52 := by
  have hne : m ≠ 0 := by
    rintro rfl
    simp at hm
  have hlow : 2 ^ 52 ≤ m / 2 ^ (m.log2 - 52) := by
    rw [Nat.le_div_iff_mul_le (Nat.two_pow_pos _), ← Nat.pow_add]
    have := Nat.log2_self_le hne
    rwa [show 52 + (m.log2 - 52) = m.log2 by omega]
  have hhigh : m / 2 ^ (m.log2 - 52) < 2 ^ 53 := by
    rw [Nat.div_lt_iff_lt_mul (Nat.two_pow_pos _), ← Nat.pow_add]
    have := Nat.lt_log2_self (n := m)
    rwa [show 53 + (m.log2 - 52) = m.log2 + 1 by omega]
  have hpos : m / 2 ^ (m.log2 - 52) ≠ 0 := by omega
  have h₁ := (Nat.le_log2 hpos).mpr hlow
  have h₂ := (Nat.log2_lt hpos).mpr hhigh
  omega

/-- Rounding leaves a significand as it is or raises it by one. -/
theorem roundedMantissa_bounds (em : ExtendedMantissa) :
    em.mantissa ≤ em.roundedMantissa ∧ em.roundedMantissa ≤ em.mantissa + 1 := by
  unfold ExtendedMantissa.roundedMantissa Accuracy.roundToNearestEven
  split <;> omega

/-- Rounding a significand of fifty-three or more bits gives a normal number whose exponent is no less. -/
theorem roundWithAccuracy_normal {s : Sign} {m : Nat} {e : Int} (hm : 52 ≤ m.log2) (hm' : m.log2 ≤ 64)
    (he : -1000 ≤ e) :
    ∃ m' e' h, roundWithAccuracy .binary64 s m e .exact = .finite s m' e' h ∧ m'.log2 = 52 ∧
      e + (m.log2 - 52 : Nat) ≤ e' ∧ e' ≤ e + 13 := by
  obtain ⟨hq, he₁⟩ := shiftToTargetExponent_eq .exact hm he
  have hlog := log2_div_two_pow hm
  rw [← hq] at hlog
  unfold roundWithAccuracy
  generalize shiftToTargetExponent .binary64 m e .exact = first at *
  obtain ⟨em, e₁⟩ := first
  dsimp only at *
  have hbounds := roundedMantissa_bounds em
  generalize em.roundedMantissa = r at *
  have hem : em.mantissa ≠ 0 := by
    intro h
    rw [h] at hlog
    cases hlog
  have hrlog : 52 ≤ r.log2 ∧ r.log2 ≤ 53 := by
    have hlow : 2 ^ 52 ≤ em.mantissa := hlog ▸ Nat.log2_self_le hem
    have hhigh : em.mantissa < 2 ^ 53 := (Nat.log2_lt hem).mp (by omega)
    have hr : r ≠ 0 := by omega
    have h₁ := (Nat.le_log2 hr).mpr (Nat.le_trans hlow hbounds.1)
    have h₂ : r.log2 < 54 := (Nat.log2_lt hr).mpr (by omega)
    omega
  obtain ⟨hr, he₂⟩ := shiftToTargetExponent_eq (e := e₁) .exact hrlog.1 (by omega)
  have hrlog' := log2_div_two_pow hrlog.1
  rw [← hr] at hrlog'
  generalize shiftToTargetExponent .binary64 r e₁ .exact = second at *
  obtain ⟨em', e'⟩ := second
  dsimp only at *
  have hne : em'.mantissa ≠ 0 := by
    intro h
    rw [h] at hrlog'
    cases hrlog'
  rw [dif_neg hne]
  exact ⟨em'.mantissa, e', Nat.pos_of_ne_zero hne, rfl, hrlog', by omega, by omega⟩

theorem log2_shiftLeft {n : Nat} (hn : n ≠ 0) (k : Nat) : (n <<< k).log2 = n.log2 + k := by
  induction k with
  | zero => rfl
  | succ k ih =>
    have hne : n <<< k ≠ 0 := by
      rw [Nat.shiftLeft_eq]
      exact Nat.mul_ne_zero hn (Nat.ne_of_gt (Nat.two_pow_pos k))
    rw [Nat.shiftLeft_succ, Nat.log2_two_mul hne, ih, Nat.add_assoc]

/-- A positive integer of 64 bits is rounded to a normal number, which lies between one and two only for the integer
one. -/
theorem round_natural {s : Sign} {n : Nat} (hn : n ≠ 0) (hlt : n < 2 ^ 64) :
    ∃ m e h, UnpackedFloat.round .binary64 s n 0 = .finite s m e h ∧ m.log2 = 52 ∧ -52 ≤ e ∧ e ≤ 13 ∧ (e = -52 → n = 1) := by
  have hlog : n.log2 < 64 := (Nat.log2_lt hn).mpr hlt
  have htarget : Format.binary64.targetExponent (totalExponent n 0) = n.log2 - 52 := by
    simp only [Format.targetExponent, totalExponent, Format.mantissaBits, Format.minExponent]
    omega
  have hshifted : (n <<< (52 - n.log2)).log2 = n.log2 + (52 - n.log2) := log2_shiftLeft hn _
  unfold UnpackedFloat.round decreaseExponent
  simp only [htarget, show ((0 : Int) - (n.log2 - 52)).toNat = 52 - n.log2 by omega]
  obtain ⟨m, e, h, hround, hm, hlow, hhigh⟩ :=
    roundWithAccuracy_normal (s := s) (m := n <<< (52 - n.log2)) (e := 0 - (52 - n.log2 : Nat)) (by omega) (by omega)
      (by omega)
  refine ⟨m, e, h, hround, hm, by omega, by omega, ?_⟩
  intro he
  have hzero : n.log2 = 0 := by omega
  have htwo : n < 2 ^ 1 := (Nat.log2_lt hn).mp (by omega)
  omega

/-! ## Packing -/

theorem unpackSign_pack (spec : Format) (s : Sign) (exponent : BitVec spec.exponentBits)
    (mantissa : BitVec spec.mantissaBitsWithoutImplicit) :
    unpackSign (packComponents spec s exponent mantissa) = s.toBitVec := by
  ext i hi
  obtain rfl : i = 0 := by omega
  simp [unpackSign, packComponents, BitVec.getLsbD_append, BitVec.getElem_append]

/-- A normal number is what its bits say. -/
theorem unpack_pack_normal {s : Sign} {m : Nat} {e : Int} (h : 0 < m) (hm : m.log2 = 52) (he : -52 ≤ e) (he' : e ≤ 13) :
    (Float.Model.pack (.finite s m e h)).unpack = .finite s m e h := by
  obtain ⟨biased, rfl⟩ : ∃ biased : Nat, e = biased - 1075 := ⟨(e + 1075).toNat, by omega⟩
  have hlow : 2 ^ 52 ≤ m := hm ▸ Nat.log2_self_le (Nat.ne_of_gt h)
  have hhigh : m < 2 ^ 53 := (Nat.log2_lt (Nat.ne_of_gt h)).mp (by omega)
  have hexponent : (BitVec.ofNat 11 biased).toNat = biased := by
    rw [BitVec.toNat_ofNat]
    omega
  have hfinite : BitVec.ofNat 11 biased ≠ -1#11 := by
    intro heq
    have := congrArg BitVec.toNat heq
    rw [hexponent] at this
    simp at this
    omega
  have hnormal : BitVec.ofNat 11 biased ≠ 0#11 := by
    intro heq
    have := congrArg BitVec.toNat heq
    rw [hexponent] at this
    simp at this
    omega
  have hmantissa : (1#1 ++ BitVec.ofNat 52 m).toNat = m := by
    rw [BitVec.toNat_append, ← Nat.shiftLeft_add_eq_or_of_lt (BitVec.isLt _), BitVec.toNat_ofNat]
    simp
    omega
  have hsign : Sign.ofBitVec s.toBitVec = s := by cases s <;> rfl
  have hbits : UnpackedFloat.pack .binary64 (.finite s m (biased - 1075) h) =
      packComponents .binary64 s (BitVec.ofNat 11 biased) (BitVec.ofNat 52 m) := by
    have hbias : (Format.binary64.exponentBias : Int) = 1023 := rfl
    have hbiased : ((biased : Int) - 1075 + Format.binary64.exponentBias + (52 : Nat)).toNat = biased := by omega
    have hfits : ¬ 2 ^ 11 ≤ biased + 1 := by omega
    have hbitCount : m.log2 + 1 = Format.binary64.mantissaBits := by rw [hm]; rfl
    simp only [UnpackedFloat.pack]
    rw [hbiased, if_neg hfits, if_pos hbitCount]
  rw [Float.Model.unpack, Float.Model.pack]
  simp only [hbits]
  unfold UnpackedFloat.unpack
  simp only [unpackMantissa_packComponents, unpackExponent_packComponents, unpackSign_pack, hsign, hexponent,
    hmantissa, if_neg hfinite, if_neg hnormal]
  rfl

/-! ## Comparisons with small integers -/

/-- The float of a positive number of 64 bits. -/
theorem unpack_toFloat {n : UInt64} (hn : n ≠ 0) :
    ∃ m e h, n.toFloat.toModel.unpack = .finite .positive m e h ∧ m.log2 = 52 ∧ -52 ≤ e ∧ e ≤ 13 ∧
      (e = -52 → n = 1) := by
  have hne : n.toNat ≠ 0 := fun h => hn (UInt64.toNat_inj.mp h)
  obtain ⟨m, e, h, hround, hm, hlow, hhigh, hone⟩ := round_natural (s := .positive) hne n.toNat_lt
  refine ⟨m, e, h, ?_, hm, hlow, hhigh, fun he => UInt64.toNat_inj.mp (hone he)⟩
  have hcompare : compare (n.toNat : Int) 0 = .gt := by
    rw [Int.compare_eq_gt]
    omega
  change (Float.Model.pack (UnpackedFloat.normalize .binary64 (n.toNat : Int) 0 .positive)).unpack = _
  rw [UnpackedFloat.normalize, hcompare]
  change (Float.Model.pack (UnpackedFloat.round .binary64 .positive n.toNat 0)).unpack = _
  rw [hround]
  exact unpack_pack_normal h hm hlow hhigh

/-- The float of an integer other than zero has the sign of the integer, and lies between one and two only for the
integer one. -/
theorem unpack_ofInt64 {n : Int64} (hn : n ≠ 0) :
    ∃ m e h, (ofInt64 n).toModel.unpack = .finite (if n < 0 then .negative else .positive) m e h ∧
      (e = -52 → 0 < n → n = 1) := by
  unfold ofInt64
  split_ifs with hneg
  · have hbits : (-n).toUInt64 ≠ 0 := fun h => Int64.neg_ne_zero.mpr hn (congrArg Int64.ofUInt64 h)
    obtain ⟨m, e, h, hunpack, hm, hlow, hhigh, -⟩ := unpack_toFloat hbits
    refine ⟨m, e, h, ?_, fun _ hpos => absurd hpos (Int64.lt_asymm hneg)⟩
    change (Float.Model.pack ((-n).toUInt64.toFloat.toModel.unpack.neg)).unpack = _
    rw [hunpack]
    exact unpack_pack_normal h hm hlow hhigh
  · have hbits : n.toUInt64 ≠ 0 := fun h => hn (congrArg Int64.ofUInt64 h)
    obtain ⟨m, e, h, hunpack, -, -, -, hone⟩ := unpack_toFloat hbits
    exact ⟨m, e, h, hunpack, fun he _ => congrArg Int64.ofUInt64 (hone he)⟩

/-- The conversion gives zero only for zero. -/
theorem eq_zero_of_ofInt64_beq {n : Int64} (h : (ofInt64 n == 0.0) = true) : n = 0 := by
  by_contra hn
  obtain ⟨m, e, hm, hunpack, -⟩ := unpack_ofInt64 hn
  have hzero : (0.0 : Float).toModel.unpack = .zero .positive := rfl
  change ((ofInt64 n).toModel.unpack.compare (0.0 : Float).toModel.unpack == some .eq) = true at h
  rw [hunpack, hzero] at h
  split_ifs at h <;> cases h

/-- The conversion gives one only for one. -/
theorem eq_one_of_ofInt64_beq {n : Int64} (h : (ofInt64 n == 1.0) = true) : n = 1 := by
  have hone : (1.0 : Float).toModel.unpack = .finite .positive (2 ^ 52) (-52) (by decide) := rfl
  by_cases hn : n = 0
  · subst hn
    cases h
  · obtain ⟨m, e, hm, hunpack, hunit⟩ := unpack_ofInt64 hn
    change ((ofInt64 n).toModel.unpack.compare (1.0 : Float).toModel.unpack == some .eq) = true at h
    rw [hunpack, hone] at h
    split_ifs at h with hneg
    · cases h
    · have heq : (compare e (-52)).then (compare m (2 ^ 52)) = .eq := by simpa [UnpackedFloat.compare] using h
      have he : compare e (-52) = .eq := (Ordering.then_eq_eq.mp heq).1
      have hpos : 0 < n := by
        have hle := Int64.not_lt.mp hneg
        exact Int64.lt_of_le_of_ne hle (Ne.symm hn)
      exact hunit (Int.compare_eq_eq.mp he) hpos

/-- The conversion gives a negative number only for a negative integer. -/
theorem neg_of_ofInt64_lt {n : Int64} (h : ofInt64 n < 0.0) : n < 0 := by
  have hzero : (0.0 : Float).toModel.unpack = .zero .positive := rfl
  have hlt : ((ofInt64 n).toModel.unpack.compare (0.0 : Float).toModel.unpack == some .lt) = true :=
    of_decide_eq_true h
  by_cases hn : n = 0
  · subst hn
    cases hlt
  · obtain ⟨m, e, hm, hunpack, -⟩ := unpack_ofInt64 hn
    rw [hunpack, hzero] at hlt
    by_contra hneg
    rw [if_neg hneg] at hlt
    cases hlt

end TensorCompiler.Binary64
