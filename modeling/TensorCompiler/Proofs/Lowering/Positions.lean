import Mathlib

/-! # Positions in buffers

The position of an element in a buffer is the sum of its indices, each times the stride of its dimension. With strides
that are not negative it stays below the span of the tensor, and with row-major strides each position below the number
of elements belongs to exactly one element.
-/

namespace TensorCompiler

/-- The position of an element in a buffer. -/
def position (indices strides : List Int) : Int :=
  (List.zipWith (· * ·) indices strides).sum

/-- Whether indices lie in a tensor of the given extents. -/
def Within (indices extents : List Int) : Prop :=
  List.Forall₂ (fun i n => 0 ≤ i ∧ i < n) indices extents

/-- The distance from the first element to the last, and one more. -/
def span (extents strides : List Int) : Int :=
  1 + (List.zipWith (fun n s => (n - 1) * s) extents strides).sum

/-- The strides of a tensor whose last index varies fastest. -/
def rowMajor : List Int → List Int
  | [] => []
  | _ :: extents => extents.prod :: rowMajor extents

variable {i n s : Int} {indices extents strides : List Int}

@[simp] theorem position_nil : position [] strides = 0 := by simp [position]

@[simp] theorem position_cons : position (i :: indices) (s :: strides) = i * s + position indices strides := by
  simp [position]

@[simp] theorem span_nil : span [] strides = 1 := by simp [span]

theorem span_cons : span (n :: extents) (s :: strides) = (n - 1) * s + span extents strides := by
  rw [span, span, List.zipWith_cons_cons, List.sum_cons]
  omega

/-- The position of an element is not negative and below the span. -/
theorem Within.position_lt_span (h : Within indices extents) (hlength : strides.length = extents.length)
    (hstrides : ∀ s ∈ strides, 0 ≤ s) : 0 ≤ position indices strides ∧ position indices strides < span extents strides := by
  induction h generalizing strides with
  | nil => simp
  | @cons i n indices extents hi _ ih =>
    obtain ⟨s, strides, rfl⟩ := List.exists_cons_of_length_eq_add_one hlength
    have hs : 0 ≤ s := hstrides s List.mem_cons_self
    obtain ⟨hnonneg, hlt⟩ := ih (Nat.succ_injective hlength) fun s hs => hstrides s (List.mem_cons_of_mem _ hs)
    have hlow : 0 ≤ i * s := mul_nonneg hi.1 hs
    have hhigh : i * s ≤ (n - 1) * s := mul_le_mul_of_nonneg_right (by omega) hs
    rw [position_cons, span_cons]
    omega

/-! ## Row-major order -/

@[simp] theorem length_rowMajor (extents : List Int) : (rowMajor extents).length = extents.length := by
  induction extents with
  | nil => rfl
  | cons n extents ih => rw [rowMajor, List.length_cons, ih, List.length_cons]

theorem prod_pos (h : ∀ n ∈ extents, 1 ≤ n) : 0 < extents.prod := by
  induction extents with
  | nil => exact Int.one_pos
  | cons n extents ih =>
    rw [List.prod_cons]
    have hn := h n List.mem_cons_self
    exact mul_pos (by omega) (ih fun n hn => h n (List.mem_cons_of_mem _ hn))

theorem rowMajor_nonneg (h : ∀ n ∈ extents, 1 ≤ n) : ∀ s ∈ rowMajor extents, 0 ≤ s := by
  induction extents with
  | nil => simp [rowMajor]
  | cons n extents ih =>
    have hrest : ∀ n ∈ extents, 1 ≤ n := fun n hn => h n (List.mem_cons_of_mem _ hn)
    intro s hs
    rcases List.mem_cons.mp hs with rfl | hs
    · exact le_of_lt (prod_pos hrest)
    · exact ih hrest s hs

/-- A tensor in row-major order spans as much as it has elements. -/
theorem span_rowMajor (extents : List Int) : span extents (rowMajor extents) = extents.prod := by
  induction extents with
  | nil => rfl
  | cons n extents ih =>
    rw [rowMajor, span_cons, ih, List.prod_cons]
    ring

theorem Within.position_lt_prod (h : Within indices extents) (hpos : ∀ n ∈ extents, 1 ≤ n) :
    0 ≤ position indices (rowMajor extents) ∧ position indices (rowMajor extents) < extents.prod := by
  rw [← span_rowMajor]
  exact h.position_lt_span (length_rowMajor extents) (rowMajor_nonneg hpos)

/-- Different elements have different positions: quotient and remainder by the stride of the first dimension give the
first index and the position in the other dimensions. -/
theorem Within.eq_of_position_eq {indices' : List Int} (h : Within indices extents) (h' : Within indices' extents)
    (hpos : ∀ n ∈ extents, 1 ≤ n) (heq : position indices (rowMajor extents) = position indices' (rowMajor extents)) :
    indices = indices' := by
  induction h generalizing indices' with
  | nil => exact (List.forall₂_nil_right_iff.mp h').symm
  | @cons i n indices extents hi hrest ih =>
    obtain ⟨j, js, -, hjs, rfl⟩ := List.forall₂_cons_right_iff.mp h'
    have hpos' : ∀ n ∈ extents, 1 ≤ n := fun n hn => hpos n (List.mem_cons_of_mem _ hn)
    obtain ⟨hlow, hhigh⟩ := Within.position_lt_prod hrest hpos'
    obtain ⟨hlow', hhigh'⟩ := Within.position_lt_prod hjs hpos'
    rw [rowMajor, position_cons, position_cons] at heq
    have hquotient : i = j := by
      have hdiv := congrArg (· / extents.prod) heq
      have hne : extents.prod ≠ 0 := by omega
      simp only [Int.add_comm (_ * extents.prod), Int.add_mul_ediv_right _ _ hne, Int.ediv_eq_zero_of_lt hlow hhigh,
        Int.ediv_eq_zero_of_lt hlow' hhigh', Int.zero_add] at hdiv
      exact hdiv
    subst hquotient
    rw [ih hjs hpos' (Int.add_left_cancel heq)]

/-- Every position below the number of elements is that of an element. -/
theorem exists_within_of_lt_prod (hpos : ∀ n ∈ extents, 1 ≤ n) {p : Int} (hlow : 0 ≤ p) (hhigh : p < extents.prod) :
    ∃ indices, Within indices extents ∧ position indices (rowMajor extents) = p := by
  induction extents generalizing p with
  | nil =>
    refine ⟨[], .nil, ?_⟩
    rw [List.prod_nil] at hhigh
    rw [position_nil]
    omega
  | cons n extents ih =>
    have hpos' : ∀ n ∈ extents, 1 ≤ n := fun n hn => hpos n (List.mem_cons_of_mem _ hn)
    have hprod := prod_pos hpos'
    obtain ⟨indices, hwithin, hposition⟩ :=
      ih hpos' (Int.emod_nonneg p (by omega)) (Int.emod_lt_of_pos p hprod)
    refine ⟨p / extents.prod :: indices, .cons ⟨Int.ediv_nonneg hlow (by omega), ?_⟩ hwithin, ?_⟩
    · rw [List.prod_cons] at hhigh
      exact Int.ediv_lt_of_lt_mul hprod hhigh
    · rw [rowMajor, position_cons, hposition, Int.mul_comm]
      exact Int.mul_ediv_add_emod p extents.prod

/-- Row-major order puts each element at a position of its own and leaves none out. -/
theorem bijOn_position_rowMajor (hpos : ∀ n ∈ extents, 1 ≤ n) :
    Set.BijOn (position · (rowMajor extents)) {indices | Within indices extents} (Set.Ico 0 extents.prod) := by
  refine ⟨fun indices h => h.position_lt_prod hpos, fun indices h indices' h' heq => h.eq_of_position_eq h' hpos heq, ?_⟩
  intro p hp
  exact exists_within_of_lt_prod hpos hp.1 hp.2

end TensorCompiler
