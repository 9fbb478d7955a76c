import TensorCompiler.Codegen.Coordinates
import TensorCompiler.Proofs.Expr.Points
import TensorCompiler.Proofs.Kernel.Eval

/-! # Coordinates of a position

The expressions that `unravel` makes of a position give the coordinates of the point with that number. Every number
on the way is natural and fits the word, so machine arithmetic is that of natural numbers, in a run as in an evaluation.
-/

namespace TensorCompiler

theorem length_unravelFrom (flat : Expr) (first : Bool) (size : Int64) (shape : List Int64) :
    (unravelFrom flat first size shape).length = shape.length := by
  induction shape generalizing first size with
  | nil => rfl
  | cons extent shape ih => rw [unravelFrom, List.length_cons, List.length_cons, ih]

/-- The greater of a positive extent and one is the extent. -/
theorem max_one_of_pos {extent : Int64} (h : 0 < extent) : max extent 1 = extent := by
  have hone : 1 ≤ extent := by
    rw [Int64.lt_iff_toInt_lt] at h
    rw [Int64.le_iff_toInt_le]
    exact h
  show (if extent ≤ 1 then 1 else extent) = extent
  split_ifs with hle
  · exact Int64.le_antisymm hone hle
  · rfl

theorem dividesSafely_ofNat {a b : Nat} (ha : a < 2 ^ 63) (hb : b < 2 ^ 63) (hpos : 0 < b) :
    BinaryOp.dividesSafely (Int64.ofNat a) (Int64.ofNat b) = true := by
  have hzero : Int64.ofNat b ≠ 0 := by
    intro h
    have := congrArg Int64.toInt h
    rw [Int64.toInt_ofNat_of_lt hb, Int64.toInt_zero] at this
    omega
  have hleast : Int64.ofNat a ≠ Int64.minValue := by
    intro h
    have := congrArg Int64.toInt h
    rw [Int64.toInt_ofNat_of_lt ha, Int64.toInt_minValue] at this
    omega
  simp [BinaryOp.dividesSafely, hzero, hleast]

namespace Expr

/-! ## Natural numbers in the word -/

/-- A way to read expressions as natural numbers that fit the word. A literal is read as its number, and an operation as
what it gives for the numbers of its operands. -/
structure ReadsNat [FloatOps] (R : Expr → Nat → Prop) : Prop where
  lt {e : Expr} {n : Nat} (he : R e n) : n < 2 ^ 63
  literal {n : Nat} (hn : n < 2 ^ 63) : R (Expr.int (Int64.ofNat n)) n
  binary {op : BinaryOp} {e e' : Expr} {a b n : Nat} (ha : R e a) (hb : R e' b)
    (hop : op.eval? (.int (Int64.ofNat a)) (.int (Int64.ofNat b)) = some (.int (Int64.ofNat n))) (hn : n < 2 ^ 63) :
    R (.binary op e e') n

namespace ReadsNat

variable [FloatOps] {R : Expr → Nat → Prop} {e e' : Expr} {a b : Nat}

theorem int (h : ReadsNat R) {n : Int64} (hn : 0 ≤ n) : R (Expr.int n) n.toNatClampNeg := by
  have hliteral := h.literal n.toNatClampNeg_lt
  rw [Int64.ofNat_toNatClampNeg n hn] at hliteral
  exact hliteral

theorem add (h : ReadsNat R) (ha : R e a) (hb : R e' b) (hsum : a + b < 2 ^ 63) : R (e + e') (a + b) := by
  apply h.binary ha hb ?_ hsum
  rw [Int64.ofNat_add]
  rfl

theorem mul (h : ReadsNat R) (ha : R e a) (hb : R e' b) (hproduct : a * b < 2 ^ 63) : R (e * e') (a * b) := by
  apply h.binary ha hb ?_ hproduct
  rw [Int64.ofNat_mul]
  rfl

theorem div (h : ReadsNat R) (ha : R e a) (hb : R e' b) (hpos : 0 < b) : R (e / e') (a / b) := by
  have hsmall := h.lt ha
  have hsmall' := h.lt hb
  apply h.binary ha hb ?_ (Nat.lt_of_le_of_lt (Nat.div_le_self a b) hsmall)
  rw [Int64.ofNat_div hsmall hsmall']
  change (if BinaryOp.dividesSafely _ _ then some _ else none).map Value.int = _
  rw [if_pos (dividesSafely_ofNat hsmall hsmall' hpos)]
  rfl

theorem mod (h : ReadsNat R) (ha : R e a) (hb : R e' b) (hpos : 0 < b) : R (e % e') (a % b) := by
  have hsmall := h.lt ha
  have hsmall' := h.lt hb
  apply h.binary ha hb ?_ (Nat.lt_of_le_of_lt (Nat.mod_le a b) hsmall)
  rw [Int64.ofNat_mod hsmall hsmall']
  change (if BinaryOp.dividesSafely _ _ then some _ else none).map Value.int = _
  rw [if_pos (dividesSafely_ofNat hsmall hsmall' hpos)]
  rfl

/-- The coordinates of a position: the division by the stride, and the remainder in all dimensions but the first, where
it changes nothing. -/
theorem unravelFrom (h : ReadsNat R) {flat : Expr} {m : Nat} {shape : List Int64} {first : Bool} (hflat : R flat m)
    (hshape : ∀ n ∈ shape, 0 < n) (hsize : (grid shape).length < 2 ^ 63)
    (hfirst : first = true → m < (grid shape).length) :
    List.Forall₂ R (TensorCompiler.unravelFrom flat first (Int64.ofNat (grid shape).length) shape) (pointAt m shape) := by
  induction shape generalizing first with
  | nil => exact List.Forall₂.nil
  | cons extent shape ih =>
    have hextent : 0 < extent := hshape extent List.mem_cons_self
    have hrest : ∀ n ∈ shape, 0 < n := fun n hn => hshape n (List.mem_cons_of_mem _ hn)
    have hpos := length_grid_pos hrest
    have hnat : 0 < extent.toNatClampNeg := (Int64.toNatClampNeg_pos_iff extent).mpr hextent
    have hlarge : extent.toNatClampNeg < 2 ^ 63 := extent.toNatClampNeg_lt
    have hwhole := length_grid_cons extent shape
    have hsmall : (grid shape).length < 2 ^ 63 :=
      Nat.lt_of_le_of_lt (hwhole ▸ Nat.le_mul_of_pos_left _ hnat) hsize
    have hstride : Int64.ofNat (grid (extent :: shape)).length / max extent 1 = Int64.ofNat (grid shape).length := by
      have hmax : max extent 1 = Int64.ofNat extent.toNatClampNeg := by
        rw [Int64.ofNat_toNatClampNeg extent (Int64.le_of_lt hextent)]
        exact max_one_of_pos hextent
      rw [hmax, ← Int64.ofNat_div hsize hlarge, hwhole, Nat.mul_div_cancel_left _ hnat]
    rw [TensorCompiler.unravelFrom, hstride, pointAt]
    have hscaled : R
        (if Int64.ofNat (grid shape).length = 1 then flat else flat / Expr.int (Int64.ofNat (grid shape).length))
        (m / (grid shape).length) := by
      by_cases hone : Int64.ofNat (grid shape).length = 1
      · have hlength : (grid shape).length = 1 := by
          have := congrArg Int64.toInt hone
          rw [Int64.toInt_ofNat_of_lt hsmall, Int64.toInt_one] at this
          omega
        rw [if_pos hone, hlength, Nat.div_one]
        exact hflat
      · rw [if_neg hone]
        exact h.div hflat (h.literal hsmall) hpos
    refine List.Forall₂.cons ?_ (ih hrest hsmall (by simp))
    cases first with
    | true =>
      have hbound : m / (grid shape).length < extent.toNatClampNeg := by
        rw [Nat.div_lt_iff_lt_mul hpos, ← hwhole]
        exact hfirst rfl
      rw [Nat.mod_eq_of_lt hbound]
      exact hscaled
    | false => exact h.mod hscaled (h.int (Int64.le_of_lt hextent)) hnat

end ReadsNat

/-! ## In a run -/

section

variable {Address Memory : Type} [FloatOps] {M : Machine Address Memory} {memory : Memory} {vars : Vars Address}
  {e e' : Expr} {a b : Nat}

/-- Whether an expression gives a natural number that fits the word. -/
def RunsToNat (M : Machine Address Memory) (memory : Memory) (vars : Vars Address) (e : Expr) (n : Nat) : Prop :=
  e.run M false memory vars = some (.scalar (.int (Int64.ofNat n))) ∧ n < 2 ^ 63

theorem readsNat_runsToNat : ReadsNat (RunsToNat M memory vars) where
  lt he := he.2
  literal hn := ⟨run_const_eq_some_iff.mpr ⟨rfl, by simp⟩, hn⟩
  binary ha hb hop hn := ⟨run_binary_eq_some_iff.mpr ⟨_, _, _, ha.1, hb.1, by simp, hop, rfl⟩, hn⟩

theorem RunsToNat.add (ha : RunsToNat M memory vars e a) (hb : RunsToNat M memory vars e' b) (h : a + b < 2 ^ 63) :
    RunsToNat M memory vars (e + e') (a + b) :=
  readsNat_runsToNat.add ha hb h

theorem RunsToNat.mul (ha : RunsToNat M memory vars e a) (hb : RunsToNat M memory vars e' b) (h : a * b < 2 ^ 63) :
    RunsToNat M memory vars (e * e') (a * b) :=
  readsNat_runsToNat.mul ha hb h

theorem RunsToNat.mod (ha : RunsToNat M memory vars e a) (hb : RunsToNat M memory vars e' b) (hpos : 0 < b) :
    RunsToNat M memory vars (e % e') (a % b) :=
  readsNat_runsToNat.mod ha hb hpos

end

/-! ## In an evaluation -/

section

variable [FloatOps] {tensors : Tensors} {env : Env}

end

end Expr

end TensorCompiler
