import TensorCompiler.Proofs.Codegen.RegisterTile
import TensorCompiler.Proofs.Lowering.Flatten

/-! # Row-major order

The elements of a shape are numbered in four ways. The coordinates of a number are split off by division, from the first
dimension on or from the last; the points are counted through, with a carry into the dimension before; and the number of
an index is the sum of its coordinates, each times the stride of its dimension. All of them agree as long as the number
of elements fits the word, and a shape with an empty extent has no elements in any of them.
-/

namespace TensorCompiler

variable {shape : List Int64}

/-! ## Counting with a carry -/

theorem map_pointAt_zero (shape : List Int64) {point : List Nat} (hlength : point.length = shape.length) :
    (point.map Int64.ofNat).map (fun _ => (0 : Int64)) = (pointAt 0 shape).map Int64.ofNat := by
  induction shape generalizing point with
  | nil =>
    rw [List.eq_nil_of_length_eq_zero hlength]
    rfl
  | cons extent shape ih =>
    obtain ⟨i, point, rfl⟩ := List.exists_cons_of_length_eq_add_one hlength
    rw [pointAt, Nat.zero_div, Nat.zero_mod, List.map_cons, List.map_cons, List.map_cons, ih (Nat.succ.inj hlength)]
    rfl

/-- The points of a shape below their number are those that `pointAt` gives. -/
theorem getElem?_points (hshape : ∀ n ∈ shape, 0 < n) {m : Nat} (hm : m < (grid shape).length) :
    (points shape)[m]? = some ((pointAt m shape).map Int64.ofNat) := by
  have hpoint := getElem?_grid_pointAt hshape m
  rw [Nat.mod_eq_of_lt hm] at hpoint
  rw [points_eq_grid]
  exact hpoint

/-- They start at the origin. -/
theorem getElem?_points_zero (hshape : ∀ n ∈ shape, 0 < n) : (points shape)[0]? = some (shape.map fun _ => 0) := by
  have hzero := map_pointAt_zero shape (length_pointAt 0 shape)
  rw [getElem?_points hshape (length_grid_pos hshape), ← hzero, List.map_const', List.map_const', List.length_map,
    length_pointAt]

/-! ## Numbers of elements -/

theorem InShape.within {extents index : List Nat} (h : InShape extents index) :
    Within (index.map Nat.cast) (extents.map Nat.cast) := by
  rw [Within, List.forall₂_map_left_iff, List.forall₂_map_right_iff]
  exact h.imp fun i n hi => ⟨Int.natCast_nonneg i, Int.ofNat_lt.mpr hi⟩

end TensorCompiler
