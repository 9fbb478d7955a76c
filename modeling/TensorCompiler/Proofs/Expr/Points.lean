import Mathlib.Data.List.Nodup
import TensorCompiler.Proofs.Expr.Eval

/-! # The elements of a computed tensor

A definition is evaluated at the points of its shape, in row-major order. An element read at an index is the value at
the point of that index: the position of an index in row-major order is the number of its point.
-/

namespace TensorCompiler

/-! ## Row-major order -/

/-- A list made of parts of one length has the members of the parts, counted through. -/
theorem getElem?_flatMap_of_length {α β : Type} {f : α → List β} {m : Nat} {xs : List α}
    (hf : ∀ x ∈ xs, (f x).length = m) {k : Nat} (hk : k < m) (i : Nat) :
    (xs.flatMap f)[i * m + k]? = xs[i]?.bind fun x => (f x)[k]? := by
  induction xs generalizing i with
  | nil => simp
  | cons x xs ih =>
    have hx : (f x).length = m := hf x List.mem_cons_self
    rw [List.flatMap_cons]
    cases i with
    | zero =>
      rw [Nat.zero_mul, Nat.zero_add, List.getElem?_append_left (by omega)]
      rfl
    | succ i =>
      have hindex : (i + 1) * m + k = (f x).length + (i * m + k) := by
        rw [hx, Nat.succ_mul]
        omega
      rw [hindex, List.getElem?_append_right (Nat.le_add_right _ _), Nat.add_sub_cancel_left,
        ih fun y hy => hf y (List.mem_cons_of_mem _ hy)]
      rfl

theorem foldl_mul_cons (n : Nat) (shape : List Nat) :
    (n :: shape).foldl (· * ·) 1 = n * shape.foldl (· * ·) 1 := by
  have hmul (a : Nat) : shape.foldl (· * ·) a = a * shape.foldl (· * ·) 1 := by
    induction shape generalizing a with
    | nil => simp
    | cons m shape ih =>
      rw [List.foldl_cons, List.foldl_cons, ih, ih (1 * m), Nat.one_mul, Nat.mul_assoc]
  rw [List.foldl_cons, hmul, Nat.one_mul]

theorem coe_toNatClampNeg {n : Int64} (hn : 0 ≤ n) : (n.toNatClampNeg : Int) = n.toInt := by
  rw [Int64.le_iff_toInt_le, Int64.toInt_zero] at hn
  exact Int.toNat_of_nonneg hn

/-- The extents of a shape as they bound indices. -/
def extentsOf (shape : List Int64) : List Nat :=
  shape.map Int64.toNatClampNeg

theorem length_grid (shape : List Int64) : (grid shape).length = (extentsOf shape).foldl (· * ·) 1 := by
  induction shape with
  | nil => rfl
  | cons extent shape ih =>
    have hsum : (grid (extent :: shape)).length = extent.toNatClampNeg * (grid shape).length := by
      simp [grid, List.length_flatMap]
    rw [hsum, ih]
    exact (foldl_mul_cons _ _).symm

/-- The position of an index tuple is the number of its point. -/
theorem getElem?_grid {shape : List Int64} {indices : List Nat} {k : Nat}
    (h : NDArray.position? (extentsOf shape) indices = some k) :
    (grid shape)[k]? = some (indices.map Int64.ofNat) := by
  induction shape generalizing indices k with
  | nil =>
    cases indices with
    | nil =>
      cases h
      rfl
    | cons index indices => cases h
  | cons extent shape ih =>
    cases indices with
    | nil => cases h
    | cons index indices =>
      obtain ⟨hlt, hrest⟩ := Option.ite_none_right_eq_some.mp h
      obtain ⟨k', hk', rfl⟩ := Option.map_eq_some_iff.mp hrest
      have hpoint := ih hk'
      have hbound : k' < (grid shape).length := (List.getElem?_eq_some_iff.mp hpoint).1
      have hlength : ∀ i ∈ List.range extent.toNatClampNeg,
          ((grid shape).map (Int64.ofNat i :: ·)).length = (grid shape).length := by
        intro i _
        exact List.length_map _
      change (grid (extent :: shape))[index * (extentsOf shape).foldl (· * ·) 1 + k']? = _
      rw [← length_grid, grid, getElem?_flatMap_of_length hlength hbound, List.getElem?_range hlt, Option.bind_some,
        List.getElem?_map, hpoint]
      rfl

theorem numElements_cons (extent : Int64) (shape : List Int64) :
    numElements (extent :: shape) = extent * numElements shape := by
  have hmul (a : Int64) : shape.foldl (· * ·) a = a * shape.foldl (· * ·) 1 := by
    induction shape generalizing a with
    | nil => exact (Int64.mul_one a).symm
    | cons n shape ih => rw [List.foldl_cons, List.foldl_cons, ih, ih (1 * n), Int64.one_mul, Int64.mul_assoc]
  rw [numElements, List.foldl_cons, hmul, Int64.one_mul]
  rfl

theorem length_grid_cons (extent : Int64) (shape : List Int64) :
    (grid (extent :: shape)).length = extent.toNatClampNeg * (grid shape).length := by
  rw [length_grid, length_grid]
  exact foldl_mul_cons _ _

/-- The number of elements of a shape is the number of its points, as far as it fits the word. -/
theorem numElements_eq_ofNat {shape : List Int64} (h : ∀ n ∈ shape, 0 ≤ n) :
    numElements shape = Int64.ofNat (grid shape).length := by
  induction shape with
  | nil => rfl
  | cons extent shape ih =>
    have hextent : Int64.ofNat extent.toNatClampNeg = extent :=
      Int64.ofNat_toNatClampNeg extent (h extent List.mem_cons_self)
    rw [numElements_cons, length_grid_cons, Int64.ofNat_mul, hextent, ih fun n hn => h n (List.mem_cons_of_mem _ hn)]

/-- The coordinates of the point with the given number, counted around the grid. -/
def pointAt (m : Nat) : List Int64 → List Nat
  | [] => []
  | extent :: shape => m / (grid shape).length % extent.toNatClampNeg :: pointAt m shape

theorem length_grid_pos {shape : List Int64} (h : ∀ n ∈ shape, 0 < n) : 0 < (grid shape).length := by
  induction shape with
  | nil => exact Nat.one_pos
  | cons extent shape ih =>
    rw [length_grid_cons]
    apply Nat.mul_pos
    · exact (Int64.toNatClampNeg_pos_iff extent).mpr (h extent List.mem_cons_self)
    · exact ih fun n hn => h n (List.mem_cons_of_mem _ hn)

/-- A number splits into that of a block of points and a number within the block. -/
theorem mod_length_grid_cons (m : Nat) (extent : Int64) (shape : List Int64) :
    m % (grid (extent :: shape)).length =
      m / (grid shape).length % extent.toNatClampNeg * (grid shape).length + m % (grid shape).length := by
  rw [length_grid_cons, Nat.mul_comm, Nat.mod_mul, Nat.mul_comm, Nat.add_comm]

/-- The points of a shape are those that `pointAt` gives. -/
theorem getElem?_grid_pointAt {shape : List Int64} (h : ∀ n ∈ shape, 0 < n) (m : Nat) :
    (grid shape)[m % (grid shape).length]? = some ((pointAt m shape).map Int64.ofNat) := by
  induction shape with
  | nil =>
    have hzero : m % (grid []).length = 0 := Nat.mod_one m
    rw [hzero]
    rfl
  | cons extent shape ih =>
    have hrest : ∀ n ∈ shape, 0 < n := fun n hn => h n (List.mem_cons_of_mem _ hn)
    have hpos := length_grid_pos hrest
    have hextent : 0 < extent.toNatClampNeg := (Int64.toNatClampNeg_pos_iff extent).mpr (h extent List.mem_cons_self)
    have hlength : ∀ i ∈ List.range extent.toNatClampNeg,
        ((grid shape).map (Int64.ofNat i :: ·)).length = (grid shape).length := by
      intro i _
      exact List.length_map _
    rw [mod_length_grid_cons, grid, getElem?_flatMap_of_length hlength (Nat.mod_lt m hpos),
      List.getElem?_range (Nat.mod_lt _ hextent), Option.bind_some, List.getElem?_map, ih hrest]
    rfl

theorem length_pointAt (m : Nat) (shape : List Int64) : (pointAt m shape).length = shape.length := by
  induction shape with
  | nil => rfl
  | cons extent shape ih => rw [pointAt, List.length_cons, List.length_cons, ih]

/-- The position of a point is its number. -/
theorem position?_pointAt {shape : List Int64} (h : ∀ n ∈ shape, 0 < n) (m : Nat) :
    NDArray.position? (extentsOf shape) (pointAt m shape) = some (m % (grid shape).length) := by
  induction shape with
  | nil => exact congrArg some (Nat.mod_one m).symm
  | cons extent shape ih =>
    have hextent : 0 < extent.toNatClampNeg := (Int64.toNatClampNeg_pos_iff extent).mpr (h extent List.mem_cons_self)
    have hrest := ih fun n hn => h n (List.mem_cons_of_mem _ hn)
    change (if m / (grid shape).length % extent.toNatClampNeg < extent.toNatClampNeg then
      (NDArray.position? (extentsOf shape) (pointAt m shape)).map
        (m / (grid shape).length % extent.toNatClampNeg * (extentsOf shape).foldl (· * ·) 1 + ·) else none) = _
    rw [if_pos (Nat.mod_lt _ hextent), hrest, ← length_grid, mod_length_grid_cons]
    rfl

/-- The points of a grid differ. -/
theorem nodup_grid (shape : List Int64) : (grid shape).Nodup := by
  induction shape with
  | nil => exact List.nodup_singleton _
  | cons extent shape ih =>
    rw [grid, List.nodup_flatMap]
    refine ⟨fun i _ => ih.map fun p q h => (List.cons.inj h).2, ?_⟩
    refine List.nodup_range.pairwise_of_forall_ne fun i hi j hj hne => ?_
    intro point hpoint hpoint'
    obtain ⟨p, -, rfl⟩ := List.mem_map.mp hpoint
    obtain ⟨q, -, heq⟩ := List.mem_map.mp hpoint'
    have hlarge := extent.toNatClampNeg_lt
    have hcoordinates := congrArg Int64.toInt (List.cons.inj heq).1
    rw [List.mem_range] at hi hj
    rw [Int64.toInt_ofNat_of_lt (by omega), Int64.toInt_ofNat_of_lt (by omega)] at hcoordinates
    omega

/-- A shape that has points has no empty extent. -/
theorem pos_of_length_grid_pos {shape : List Int64} (h : 0 < (grid shape).length) : ∀ n ∈ shape, 0 < n := by
  induction shape with
  | nil => simp
  | cons extent shape ih =>
    rw [length_grid_cons] at h
    intro n hn
    rcases List.mem_cons.mp hn with rfl | hn
    · exact (Int64.toNatClampNeg_pos_iff n).mp (Nat.pos_of_mul_pos_right h)
    · exact ih (Nat.pos_of_mul_pos_left h) n hn

/-- The points of a shape are those of the grid: where an extent is empty, there are none either way. -/
theorem points_eq_grid (shape : List Int64) : points shape = grid shape := by
  unfold points
  split_ifs with hempty
  · obtain ⟨n, hn, hle⟩ := List.any_eq_true.mp hempty
    have hnone : ¬ 0 < (grid shape).length := fun hpos =>
      absurd (pos_of_length_grid_pos hpos n hn) (Int64.not_lt.mpr (of_decide_eq_true hle))
    exact (List.eq_nil_of_length_eq_zero (Nat.eq_zero_of_not_pos hnone)).symm
  · rfl

theorem points_ne_nil {shape : List Int64} (h : ∀ n ∈ shape, 0 < n) : points shape ≠ [] := by
  rw [points_eq_grid]
  exact List.ne_nil_of_length_pos (length_grid_pos h)

/-- A point has a coordinate for each dimension. -/
theorem length_of_mem_points {shape point : List Int64} (h : point ∈ points shape) : point.length = shape.length := by
  rw [points_eq_grid] at h
  induction shape generalizing point with
  | nil => rw [List.mem_singleton.mp h]
  | cons extent shape ih =>
    obtain ⟨i, -, hmem⟩ := List.mem_flatMap.mp h
    obtain ⟨rest, hrest, rfl⟩ := List.mem_map.mp hmem
    rw [List.length_cons, List.length_cons, ih hrest]

theorem NDArray.length_of_position? {shape indices : List Nat} {k : Nat} (h : position? shape indices = some k) :
    indices.length = shape.length := by
  induction shape generalizing indices k with
  | nil =>
    cases indices with
    | nil => rfl
    | cons index indices => cases h
  | cons extent shape ih =>
    cases indices with
    | nil => cases h
    | cons index indices =>
      obtain ⟨-, hrest⟩ := Option.ite_none_right_eq_some.mp h
      obtain ⟨k', hk', -⟩ := Option.map_eq_some_iff.mp hrest
      rw [List.length_cons, List.length_cons, ih hk']

/-! ## Indices of a shape -/

/-- Whether an index lies inside a shape. -/
def InShape (extents index : List Nat) : Prop :=
  List.Forall₂ (· < ·) index extents

theorem InShape.exists_position? {extents index : List Nat} (h : InShape extents index) :
    ∃ k, NDArray.position? extents index = some k := by
  induction h with
  | nil => exact ⟨0, rfl⟩
  | @cons i n index extents hi _ ih =>
    obtain ⟨k, hk⟩ := ih
    exact ⟨i * extents.foldl (· * ·) 1 + k, by rw [NDArray.position?, if_pos hi, hk]; rfl⟩

/-- Indices that fit the word come back from it. -/
theorem map_toNatClampNeg_map_ofNat {xs : List Nat} (h : ∀ x ∈ xs, x < 2 ^ 63) :
    (xs.map Int64.ofNat).map Int64.toNatClampNeg = xs := by
  rw [List.map_map]
  refine (List.map_congr_left fun x hx => ?_).trans (List.map_id xs)
  change (Int64.ofNat x).toInt.toNat = x
  rw [Int64.toInt_ofNat_of_lt (h x hx)]
  rfl

/-- Indices that fit the word are told apart by their words. -/
theorem map_ofNat_injOn {xs ys : List Nat} (hx : ∀ x ∈ xs, x < 2 ^ 63) (hy : ∀ y ∈ ys, y < 2 ^ 63)
    (h : xs.map Int64.ofNat = ys.map Int64.ofNat) : xs = ys := by
  rw [← map_toNatClampNeg_map_ofNat hx, h, map_toNatClampNeg_map_ofNat hy]

section

variable {shape : List Int64} {index : List Nat}

theorem InShape.lt_word (h : InShape (extentsOf shape) index) : ∀ i ∈ index, i < 2 ^ 63 := by
  rw [InShape, extentsOf, List.forall₂_map_right_iff] at h
  exact forall_mem_of_forall₂ h.flip fun n _ i hi => Nat.lt_trans hi n.toNatClampNeg_lt

theorem inShape_pointAt (h : ∀ n ∈ shape, 0 < n) (m : Nat) : InShape (extentsOf shape) (pointAt m shape) := by
  induction shape with
  | nil => exact List.Forall₂.nil
  | cons extent shape ih =>
    have hextent : 0 < extent.toNatClampNeg := (Int64.toNatClampNeg_pos_iff extent).mpr (h extent List.mem_cons_self)
    exact List.Forall₂.cons (Nat.mod_lt _ hextent) (ih fun n hn => h n (List.mem_cons_of_mem _ hn))

theorem InShape.pos (h : InShape (extentsOf shape) index) : ∀ n ∈ shape, 0 < n := by
  rw [InShape, extentsOf, List.forall₂_map_right_iff] at h
  exact forall_mem_of_forall₂ h fun i _ n hi => (Int64.toNatClampNeg_pos_iff n).mp (Nat.zero_lt_of_lt hi)

/-- The index of an element is the point of some number. -/
theorem InShape.exists_pointAt (h : InShape (extentsOf shape) index) :
    ∃ m < (grid shape).length, pointAt m shape = index := by
  obtain ⟨m, hm⟩ := h.exists_position?
  have hmem := getElem?_grid hm
  have hlt : m < (grid shape).length := (List.getElem?_eq_some_iff.mp hmem).1
  have hpoint := getElem?_grid_pointAt h.pos m
  rw [Nat.mod_eq_of_lt hlt, hmem] at hpoint
  exact ⟨m, hlt, (map_ofNat_injOn h.lt_word (inShape_pointAt h.pos m).lt_word (Option.some.inj hpoint)).symm⟩

theorem pointAt_injOn (h : ∀ n ∈ shape, 0 < n) {m k : Nat} (hm : m < (grid shape).length) (hk : k < (grid shape).length)
    (heq : pointAt m shape = pointAt k shape) : m = k := by
  have hposition := position?_pointAt h m
  rw [heq, position?_pointAt h k, Nat.mod_eq_of_lt hm, Nat.mod_eq_of_lt hk] at hposition
  exact (Option.some.inj hposition).symm

theorem exists_inShape_of_mem_grid {point : List Int64} (h : point ∈ grid shape) :
    ∃ index, InShape (extentsOf shape) index ∧ point = index.map Int64.ofNat := by
  obtain ⟨m, hm, rfl⟩ := List.mem_iff_getElem.mp h
  have hpos := pos_of_length_grid_pos (Nat.zero_lt_of_lt hm)
  have hpoint := getElem?_grid_pointAt hpos m
  rw [Nat.mod_eq_of_lt hm, List.getElem?_eq_getElem hm] at hpoint
  exact ⟨pointAt m shape, inShape_pointAt hpos m, Option.some.inj hpoint⟩

end

/-! ## Computed tensors -/

/-- The values of the elements of a tensor as its array. -/
theorem foldlM_push (vs : List Value) (data : Array Float) :
    vs.foldlM (m := Except Error) (fun data v => pure (data.push v.toFloat)) data =
      .ok (data ++ (vs.map Value.toFloat).toArray) := by
  induction vs generalizing data with
  | nil => simp [pure, Except.pure]
  | cons v vs ih =>
    rw [List.foldlM_cons]
    change vs.foldlM _ (data.push v.toFloat) = _
    rw [ih]
    simp

namespace TensorCompute

variable [FloatOps] {tensors : Tensors} {c : TensorCompute} {a : NDArray}

/-- The environment of the value at a point. -/
def pointEnv (c : TensorCompute) (point : List Int64) : Env :=
  Env.bind [] c.axes (point.map .int)

/-- A definition gives an array if its value is there at each point of its shape. -/
theorem evaluate_eq_ok_iff :
    c.evaluate tensors = .ok a ↔
      ∃ shape vs, c.constShape? = some shape ∧ (∀ extent ∈ shape, 0 ≤ extent) ∧
        List.Forall₂ (fun point v => c.value.eval tensors (c.pointEnv point) = .ok v) (points shape) vs ∧
          a = ⟨extentsOf shape, (vs.map Value.toFloat).toArray⟩ := by
  unfold evaluate
  cases hshape : c.constShape? with
  | none => simp
  | some shape =>
    have hany : (shape.any fun extent => decide (extent < 0)) = true ↔ ¬ ∀ extent ∈ shape, 0 ≤ extent := by
      simp [List.any_eq_true]
    simp only [Option.some.injEq]
    split_ifs with hneg
    · have hnot := hany.mp hneg
      constructor
      · intro h
        cases h
      · rintro ⟨_, vs, rfl, hall, -⟩
        exact absurd hall hnot
    · have hall : ∀ extent ∈ shape, 0 ≤ extent := by
        by_contra hnot
        exact hneg (hany.mpr hnot)
      rw [bind_eq_ok_iff]
      constructor
      · rintro ⟨data, hdata, hresult⟩
        obtain ⟨vs, hvs, hpush⟩ := foldlM_bind_eq_ok_iff.mp hdata
        rw [foldlM_push] at hpush
        cases hpush
        cases hresult
        exact ⟨shape, vs, rfl, hall, hvs, by simp [extentsOf]⟩
      · rintro ⟨_, vs, rfl, -, hvs, rfl⟩
        refine ⟨_, foldlM_bind_eq_ok_iff.mpr ⟨vs, hvs, foldlM_push vs #[]⟩, ?_⟩
        simp [extentsOf, pure, Except.pure]

/-- An element read at an index is the value at the point of that index. -/
theorem exists_value_of_get? {shape : List Int64} {indices : List Nat} {x : Float} (h : c.evaluate tensors = .ok a)
    (hshape : c.constShape? = some shape) (hread : a.get? indices = some x) :
    indices.length = shape.length ∧
      ∃ v, c.value.eval tensors (c.pointEnv (indices.map Int64.ofNat)) = .ok v ∧ v.toFloat = x := by
  obtain ⟨_, vs, hsame, -, hvs, rfl⟩ := evaluate_eq_ok_iff.mp h
  cases hshape.symm.trans hsame
  obtain ⟨k, hk, hx⟩ := Option.bind_eq_some_iff.mp hread
  refine ⟨(NDArray.length_of_position? hk).trans (List.length_map _), ?_⟩
  have hpoint := getElem?_grid hk
  rw [← points_eq_grid] at hpoint
  rw [List.getElem?_toArray, List.getElem?_map] at hx
  obtain ⟨v, hv, rfl⟩ := Option.map_eq_some_iff.mp hx
  obtain ⟨hk', hpt⟩ := List.getElem?_eq_some_iff.mp hpoint
  obtain ⟨hk'', hval⟩ := List.getElem?_eq_some_iff.mp hv
  refine ⟨v, ?_, rfl⟩
  have hnth := hvs.get hk' hk''
  rw [List.get_eq_getElem, List.get_eq_getElem, hpt, hval] at hnth
  exact hnth

end TensorCompute

end TensorCompiler
