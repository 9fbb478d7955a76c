import TensorCompiler.Proofs.Codegen.KernelTyped
import TensorCompiler.Proofs.Graph.InputLists

/-! # The names of the parameters of a kernel

A kernel takes the inputs of its operator in their order and then the output, each under the name of the tensor. No
operator reads what it computes, so the names differ exactly if the operator lists no input twice. A convolution of a
tensor with itself does: its kernel takes two parameters of one name.
-/

namespace TensorCompiler

namespace Operator.Computes

variable {k : ElementKind} {T : TensorTable} {op : Operator} {d : DType} {shape : List Int64}

theorem names_params (h : op.Computes k T d shape) :
    ((op.task.params.zip op.task.paramTypes).map ParamMap.paramVar).map Var.name =
      op.inputs.map TensorId.name ++ [op.output.name] := by
  obtain ⟨args, hargs, hparams, htypes⟩ := h.params_eq
  have hinputs : (args.map fun arg => (arg.toExpr, arg.globalType)).map (Var.name ∘ ParamMap.paramVar) =
      op.inputs.map TensorId.name := by
    rw [List.map_map]
    refine map_eq_of_forall₂ hargs ?_
    rintro id _ ⟨d, shape, -, rfl⟩
    rfl
  rw [hparams, htypes, List.zip_append (by simp), List.zip_map', List.map_map, List.map_append, hinputs]
  exact congrArg (fun name => op.inputs.map TensorId.name ++ [name]) h.name_eq

end Operator.Computes

/-- The names of the tensors of an operator that does not read what it computes. -/
theorem Operator.nodup_names_iff {op : Operator} (h : op.output ∉ op.inputs) :
    (op.inputs.map TensorId.name ++ [op.output.name]).Nodup ↔ op.inputs.Nodup := by
  have hnames : op.inputs.map TensorId.name ++ [op.output.name] = (op.inputs ++ [op.output]).map TensorId.name := by
    rw [List.map_append, List.map_singleton]
  rw [hnames, List.nodup_map_iff fun _ _ => TensorId.name_injective, ← List.concat_eq_append, List.nodup_concat]
  exact and_iff_right h

namespace Graph

/-- However a graph was built and optimized, its operators list their inputs once, but for convolutions of a tensor with
itself, and the kernel of an operator, which there is on every worker, has parameters of different names exactly if the
operator lists its inputs once. -/
theorem Grown.params_of_kernel [FloatOps] {g : Graph} (h : Grown g) {op : Operator} (hop : op ∈ g.nodes) :
    op.ListsOnce ∧ ∀ worker : Worker, ∃ f, GridKernel.kernel { op.task with worker := worker } = .ok f ∧
      f.params.map Var.name = op.inputs.map TensorId.name ++ [op.output.name] ∧
      ((f.params.map Var.name).Nodup ↔ op.inputs.Nodup) := by
  refine ⟨h.reachable.listsOnce op hop, fun worker => ?_⟩
  obtain ⟨d, shape, hcomputes⟩ := h.numbered.linked.computed op hop
  obtain ⟨f, hkernel, -, -, -, hparams, -⟩ := hcomputes.exists_kernel worker
  have hnames : f.params.map Var.name = op.inputs.map TensorId.name ++ [op.output.name] :=
    hparams ▸ hcomputes.names_params
  have hnot : op.output ∉ op.inputs := fun hmem => Nat.lt_irrefl _ (h.numbered.lt_output op hop _ hmem)
  exact ⟨f, hkernel, hnames, hnames ▸ Operator.nodup_names_iff hnot⟩

/-- A square of a matrix, to which the matrix is added. -/
def squareSteps : List BuildStep :=
  [.input "x" .float32 [2, 2], .matmul 0 0, .binary .add 1 0, .output 2]

/-- The sum is merged into the square and reads the matrix once. -/
theorem params_of_kernel_square :
    ∃ g, GraphPass.fuseEpilogue.run (build squareSteps) = .ok g ∧ ∃ op ∈ g.nodes, op.inputs = [0] ∧
      ∃ f, GridKernel.kernel op.task = .ok f ∧ f.params.map Var.name = ["t0", "t2"] ∧ (f.params.map Var.name).Nodup := by
  obtain ⟨g, hrun, -⟩ := (wellFormed_build_mixed squareSteps).exists_runPass .fuseEpilogue
  have hlists : ((fun g : Graph => g.nodes.map fun op => (op.inputs, op.output)) <$>
      GraphPass.fuseEpilogue.run (build squareSteps)).toOption = some [([0], 2)] := by
    decide +kernel
  rw [hrun] at hlists
  obtain ⟨op, hnodes, hop⟩ := List.map_eq_singleton_iff.mp (Option.some.inj hlists)
  obtain ⟨hinputs, houtput⟩ := Prod.mk.inj hop
  have hmem : op ∈ g.nodes := hnodes ▸ List.mem_singleton_self op
  obtain ⟨-, hkernels⟩ := Grown.params_of_kernel (.pass (grown_build squareSteps) .fuseEpilogue hrun) hmem
  obtain ⟨f, hkernel, hnames, hnodup⟩ := hkernels op.task.worker
  refine ⟨g, hrun, op, hmem, hinputs, f, hkernel, ?_, hnodup.mpr (hinputs ▸ List.nodup_singleton 0)⟩
  rw [hnames, hinputs, houtput]
  rfl

/-- A convolution of a tensor with itself. -/
def selfConvolutionSteps : List BuildStep :=
  [.input "x" .float32 [1, 1, 1, 1], .conv2d 0 0 (1, 1) (0, 0), .output 1]

/-- The convolution lists its input twice, and so does its kernel. -/
theorem params_of_kernel_selfConvolution :
    ∃ op ∈ (build selfConvolutionSteps).nodes, op.inputs = [0, 0] ∧
      ∃ f, GridKernel.kernel op.task = .ok f ∧ f.params.map Var.name = ["t0", "t0", "t1"] := by
  refine ⟨_, List.mem_singleton_self _, rfl, _, rfl, rfl⟩

end Graph

end TensorCompiler
