import TensorCompiler.Proofs.Codegen.Coverage
import TensorCompiler.Proofs.Lowering.Flatten
import TensorCompiler.Proofs.Lowering.WrapperRun
import TensorCompiler.Proofs.Stmt.Branches

/-! # The test of a thread's number

The body of a kernel has one branch, the test that there is an element with the number of the thread. Simplification by
bounds knows of the number that it is below the number of threads of the grid, and of the number of elements that it is
positive. So it decides the test if there are no more threads than elements, and otherwise it can neither prove nor refute
it. A launch has at least as many threads as elements, and it has no more exactly if the blocks divide the elements.
-/

namespace TensorCompiler

/-! ## The statements of a value -/

namespace GridKernel

variable {gridDim blockDim : UInt32}

/-- The number of a thread in blocks of a size. -/
def number (blockDim : UInt32) : Expr :=
  Primitive.blockIdx * Expr.int (Int64.ofNat blockDim.toNat) + Primitive.threadIdx

end GridKernel

/-! ## The guard -/

namespace Stmt

variable {e : Expr} {count : Int64} {s : Stmt}

/-- Whether a statement binds a number and has one branch inside, the test that the number is below a count. -/
def IsGuarded (number : Expr) (count : Int64) (s : Stmt) : Prop :=
  ∃ thread v body, s = letIn thread number (ite ((Expr.var v).lt (Expr.int count)) body none) ∧ v.name = thread.name ∧
    ¬ body.HasBranch

/-- Flattening keeps the guard. -/
theorem IsGuarded.flattenTensors {f : Function} (h : f.body.IsGuarded e count)
    (he : f.buffers.linearizeExpr e = e) : f.flattenTensors.body.IsGuarded e count := by
  unfold Function.flattenTensors
  dsimp only
  split_ifs
  · exact h
  · obtain ⟨thread, v, body, hbody, hname, hopen⟩ := h
    obtain ⟨_, hv, hname'⟩ := Function.name_of_linearizeExpr_eq_var (FlatBuffers.linearizeExpr_var f.buffers v)
    cases hv
    refine ⟨thread, _, body.map f.buffers.linearizeStore f.buffers.linearizeExpr, ?_, hname'.symm.trans hname,
      fun hbranch => ?_⟩
    · change f.body.map f.buffers.linearizeStore f.buffers.linearizeExpr = _
      rw [hbody]
      exact congrArg (fun number => letIn thread number _) he
    · exact hopen (hbranch.of_map (FlatBuffers.children_linearizeStore _) fun s => by cases s <;> rfl)

/-- Folding keeps the guard, since the number is not known. -/
theorem IsGuarded.fold (h : s.IsGuarded e count) : s.fold.IsGuarded e.fold count := by
  obtain ⟨thread, v, body, rfl, hname, hbody⟩ := h
  exact ⟨thread, v, body.fold, rfl, hname, fun hbranch => hbody (isSweep_fold.of_hasBranch (.ofWorker .host) hbranch)⟩

end Stmt

/-! ## Kernels -/

namespace GridKernel

variable {gridDim blockDim : UInt32} {count : Int64}

end GridKernel

/-! ## Compiled graphs -/

namespace Graph

end Graph

end TensorCompiler
