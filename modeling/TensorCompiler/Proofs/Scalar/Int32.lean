import Mathlib.Algebra.Order.Ring.Int
import Mathlib.Tactic.Linarith
import Mathlib.Tactic.Positivity
import TensorCompiler.Scalar.Arithmetic

/-! # Numbers of 32 bits in words of 64 bits

Scalars are computed in words of 64 bits, also those of the type `int32`. Bit operations, right shifts, remainders and
complements of `int32` numbers give `int32` numbers again. Sums, differences and products of two of them are exact in 64
bits, so they are `int32` numbers exactly if the sums, differences and products of the integers are; a quotient is always
one, but for that of the least number by minus one.
-/

namespace TensorCompiler

/-- Whether an integer is an `int32` number. -/
def IsInt32 (n : Int) : Prop :=
  -2 ^ 31 ≤ n ∧ n < 2 ^ 31

instance (n : Int) : Decidable (IsInt32 n) := by
  unfold IsInt32
  infer_instance

/-- The exact result of arithmetic on two integers. -/
def BinaryOp.exact? (op : BinaryOp) (x y : Int) : Option Int :=
  match op with
  | add => some (x + y)
  | sub => some (x - y)
  | mul => some (x * y)
  | div => some (x.tdiv y)
  | _ => none

/-- The integer that a value becomes by a conversion to an integer type. -/
def Value.toInt64 (v : Value) : Int64 :=
  v.discrete?.getD (Binary64.truncate v.toFloat)

theorem Value.cast_int32 (v : Value) : v.cast .int32 = .int v.toInt64 := rfl

namespace IsInt32

variable {x y : Int64}

theorem zero : IsInt32 0 := by decide

/-- The `int32` numbers are the words that their lower halves give back. -/
theorem iff_toInt32 : IsInt32 x.toInt ↔ x.toInt32.toInt64 = x := by
  rw [← Int64.toInt_inj, Int32.toInt_toInt64, Int64.toInt_toInt32]
  constructor
  · intro h
    exact Int.bmod_eq_of_le h.1 h.2
  · intro h
    rw [← h]
    exact ⟨Int.le_bmod (by decide), Int.bmod_lt (by decide)⟩

theorem and (hx : IsInt32 x.toInt) (hy : IsInt32 y.toInt) : IsInt32 (x &&& y).toInt := by
  rw [iff_toInt32] at hx hy ⊢
  rw [Int64.toInt32_and, Int32.toInt64_and, hx, hy]

theorem or (hx : IsInt32 x.toInt) (hy : IsInt32 y.toInt) : IsInt32 (x ||| y).toInt := by
  rw [iff_toInt32] at hx hy ⊢
  rw [Int64.toInt32_or, Int32.toInt64_or, hx, hy]

/-- An integer that fits 64 bits is not cut to them. -/
theorem bmod_eq {n : Int} (h : -2 ^ 63 ≤ n ∧ n < 2 ^ 63) : n.bmod (2 ^ 64) = n :=
  Int.bmod_eq_of_le h.1 h.2

theorem not (hx : IsInt32 x.toInt) : IsInt32 (~~~x).toInt := by
  obtain ⟨hlower, hupper⟩ := hx
  rw [Int64.toInt_not, bmod_eq (by omega)]
  exact ⟨by omega, by omega⟩

/-- A right shift keeps the sign, so it goes toward zero or minus one. -/
theorem shiftRight (hx : IsInt32 x.toInt) : IsInt32 (x >>> y).toInt := by
  obtain ⟨hlower, hupper⟩ := hx
  rw [← Int64.toInt_toBitVec, Int64.toBitVec_shiftRight, BitVec.toInt_sshiftRight', Int.shiftRight_eq_div_pow,
    Int64.toInt_toBitVec]
  -- whatever the number of places is, the shift divides by a power of two
  generalize (y.toBitVec.smod 64).toNat = k
  have hpos : (0 : Int) < ((2 ^ k : Nat) : Int) := by positivity
  constructor
  · rw [Int.le_ediv_iff_mul_le hpos]
    nlinarith
  · rw [Int.ediv_lt_iff_lt_mul hpos]
    nlinarith

/-- A remainder lies between zero and the number that is divided. -/
theorem mod (hx : IsInt32 x.toInt) : IsInt32 (x % y).toInt := by
  obtain ⟨hlower, hupper⟩ := hx
  have hsize : (x.toInt.tmod y.toInt).natAbs ≤ x.toInt.natAbs := by
    rw [Int.natAbs_tmod]
    exact Nat.mod_le _ _
  rw [Int64.toInt_mod]
  rcases Int.le_total 0 x.toInt with hsign | hsign
  · have := Int.tmod_nonneg y.toInt hsign
    exact ⟨by omega, by omega⟩
  · have := Int.tmod_nonneg y.toInt (Int.neg_nonneg_of_nonpos hsign)
    rw [Int.neg_tmod] at this
    exact ⟨by omega, by omega⟩

/-- Arithmetic on `int32` numbers is exact in 64 bits. -/
theorem toInt_of_exact? {op : BinaryOp} {z : Int64} {n : Int} (hx : IsInt32 x.toInt) (hy : IsInt32 y.toInt)
    (hn : op.exact? x.toInt y.toInt = some n) (hz : op.applyInt? x y = some z) : z.toInt = n := by
  obtain ⟨hlowerX, hupperX⟩ := hx
  obtain ⟨hlowerY, hupperY⟩ := hy
  cases op <;> cases hn
  case add =>
    cases hz
    rw [Int64.toInt_add, bmod_eq (by omega)]
  case sub =>
    cases hz
    rw [Int64.toInt_sub, bmod_eq (by omega)]
  case mul =>
    cases hz
    -- the bounds of a product depend on signs, its size does not
    have hsize : |x.toInt * y.toInt| ≤ 2 ^ 31 * 2 ^ 31 := by
      rw [abs_mul]
      exact mul_le_mul (abs_le.mpr ⟨hlowerX, hupperX.le⟩) (abs_le.mpr ⟨hlowerY, hupperY.le⟩) (abs_nonneg _) (by decide)
    obtain ⟨hlower, hupper⟩ := abs_le.mp hsize
    rw [Int64.toInt_mul, bmod_eq (by omega)]
  case div =>
    rw [BinaryOp.applyInt?] at hz
    split_ifs at hz
    cases hz
    have hsize : (x.toInt.tdiv y.toInt).natAbs ≤ x.toInt.natAbs := by
      rw [Int.natAbs_tdiv]
      exact Nat.div_le_self _ _
    rw [Int64.toInt_div, bmod_eq (by omega)]

/-- Arithmetic that leaves the `int32` numbers divides by no zero, so it has a value in 64 bits. -/
theorem exists_applyInt? {op : BinaryOp} {n : Int} (hx : IsInt32 x.toInt) (hn : op.exact? x.toInt y.toInt = some n)
    (h : ¬ IsInt32 n) : ∃ z, op.applyInt? x y = some z := by
  cases op <;> cases hn
  case add | sub | mul => exact ⟨_, rfl⟩
  case div =>
    refine ⟨x / y, if_pos ?_⟩
    have hy : y ≠ 0 := by
      rintro rfl
      exact h (by rw [Int64.toInt_zero, Int.tdiv_zero]; exact zero)
    have hmin : x ≠ Int64.minValue := by
      rintro rfl
      exact absurd hx (by decide)
    simp [BinaryOp.dividesSafely, hy, hmin]

/-- The negation of an `int32` number is exact. -/
theorem toInt_neg (hx : IsInt32 x.toInt) : (-x).toInt = -x.toInt := by
  obtain ⟨hlower, hupper⟩ := hx
  rw [Int64.toInt_neg, bmod_eq (by omega)]

/-- The absolute value of an `int32` number is exact. -/
theorem toInt_absInt (hx : IsInt32 x.toInt) : (Intrinsic.absInt x).toInt = |x.toInt| := by
  rw [Intrinsic.absInt]
  split_ifs with hsign
  · rw [toInt_neg hx, abs_of_neg (Int64.lt_iff_toInt_lt.mp hsign)]
  · rw [abs_of_nonneg (not_lt.mp fun h => hsign (Int64.lt_iff_toInt_lt.mpr h))]

end IsInt32

end TensorCompiler
