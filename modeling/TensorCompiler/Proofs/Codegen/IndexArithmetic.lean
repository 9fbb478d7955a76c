import Mathlib.Tactic.SplitIfs
import TensorCompiler.Codegen.Coordinates
import TensorCompiler.Expr.LaneIndex
import TensorCompiler.Proofs.Scalar.Typing

/-! # Index arithmetic

Generated code computes the coordinates of a position and those of a lane with literals and arithmetic. A property that
literals have and that operands pass on to arithmetic then holds of every coordinate if it holds of the position or lane.
-/

namespace TensorCompiler

/-- Whether a property of expressions holds of integers and of arithmetic on what has it. -/
structure Expr.ClosedUnderArithmetic (P : Expr → Prop) : Prop where
  int (n : Int64) : P (.int n)
  binary {op : BinaryOp} {lhs rhs : Expr} (hop : op.typeOn .int32 = .int32) (hl : P lhs) (hr : P rhs) :
    P (.binary op lhs rhs)

namespace Expr.ClosedUnderArithmetic

variable {P : Expr → Prop} (h : ClosedUnderArithmetic P)

include h

theorem unravelFrom {flat : Expr} (hflat : P flat) (first : Bool) (size : Int64) (shape : List Int64) :
    ∀ e ∈ unravelFrom flat first size shape, P e := by
  induction shape generalizing first size with
  | nil => exact List.forall_mem_nil _
  | cons extent shape ih =>
    have hscaled : P (if size / max extent 1 = 1 then flat else flat / Expr.int (size / max extent 1)) := by
      split_ifs
      · exact hflat
      · exact h.binary rfl hflat (h.int _)
    refine List.forall_mem_cons.mpr ⟨?_, ih false _⟩
    cases first with
    | true => exact hscaled
    | false => exact h.binary rfl hscaled (h.int extent)

theorem laneCoordinates {lane : Expr} (hlane : P lane) (inner : Int64) (lanes : List Int64) :
    ∀ e ∈ laneCoordinates lane inner lanes, P e := by
  induction lanes generalizing inner with
  | nil => exact List.forall_mem_nil _
  | cons extent lanes ih =>
    refine List.forall_mem_cons.mpr ⟨?_, ih _⟩
    split
    · exact h.binary rfl hlane (h.int extent)
    · exact h.binary rfl (h.binary rfl hlane (h.int _)) (h.int extent)

/-- The indices of the element that a lane holds in a register. -/
theorem globalIndices (tile : RegisterTile) {lane : Expr} (hlane : P lane) (position : List Int64) :
    ∀ e ∈ tile.globalIndices lane position, P e := by
  intro e he
  unfold RegisterTile.globalIndices at he
  split at he
  · obtain ⟨n, -, rfl⟩ := List.mem_map.mp he
    exact h.int n
  · rename_i lanes _
    obtain ⟨⟨⟨p, n⟩, coordinate⟩, hentry, rfl⟩ := List.mem_map.mp he
    exact h.binary rfl (h.int _) (h.laneCoordinates hlane _ lanes coordinate (List.of_mem_zip hentry).2)
  · rename_i lanes _
    obtain ⟨⟨⟨p, extent⟩, coordinate⟩, hentry, rfl⟩ := List.mem_map.mp he
    have hcoordinate := h.laneCoordinates hlane _ lanes coordinate (List.of_mem_zip hentry).2
    exact h.binary rfl (h.binary rfl hcoordinate (h.int _)) (h.int _)

end Expr.ClosedUnderArithmetic

end TensorCompiler
