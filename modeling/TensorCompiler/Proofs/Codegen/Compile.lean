import TensorCompiler.Compile
import TensorCompiler.Proofs.Codegen.Dispatch
import TensorCompiler.Proofs.Codegen.KernelTyped
import TensorCompiler.Proofs.Graph.Pipeline
import TensorCompiler.Proofs.Lowering.WellTyped

/-! # Compilation succeeds

Compiling a well-formed graph with the registry of the library gives a module: one kernel for each task of the optimized
graph, in the order of the graph, and behind them, if the module is lowered, one wrapper for each kernel. The name of a
task ends in the number of the tensor that it computes, so the names differ from each other and from those of wrappers.
The kernels are well typed, and lowering keeps that and leaves no tensor of several dimensions.
-/

namespace TensorCompiler

/-! ## Names of tasks -/

theorem takeWhile_isDigit_reverse (prior : List Char) (n : Nat) :
    (prior ++ 't' :: (toString n).toList).reverse.takeWhile Char.isDigit = (toString n).toList.reverse := by
  have hdigits : ∀ c ∈ (toString n).toList.reverse, c.isDigit = true := fun c hc =>
    isDigit_of_mem_toString (List.mem_reverse.mp hc)
  rw [List.reverse_append, List.reverse_cons, List.append_assoc, List.takeWhile_append_of_pos hdigits]
  have hletter : (['t'] ++ prior.reverse).takeWhile Char.isDigit = [] := List.takeWhile_cons_of_neg (by decide)
  rw [hletter, List.append_nil]

theorem toList_taskName (label : String) (id : TensorId) :
    (label ++ "_" ++ id.name).toList = (label ++ "_").toList ++ 't' :: (toString id).toList := by
  rw [String.toList_append, TensorId.toList_name]

/-- A task bears the number of the tensor that it computes. -/
theorem eq_of_taskName_eq {label label' : String} {id id' : TensorId}
    (h : label ++ "_" ++ id.name = label' ++ "_" ++ id'.name) : id = id' := by
  have hlist : (label ++ "_").toList ++ 't' :: (toString id).toList =
      (label' ++ "_").toList ++ 't' :: (toString id').toList := by
    rw [← toList_taskName, ← toList_taskName, h]
  have hdigits := congrArg (fun chars => chars.reverse.takeWhile Char.isDigit) hlist
  simp only [takeWhile_isDigit_reverse, List.reverse_inj] at hdigits
  exact toString_injective (String.toList_inj.mp hdigits)

/-- No task has the name of a wrapper, which ends in a letter. -/
theorem taskName_ne_wrapperName (label entry : String) (id : TensorId) :
    label ++ "_" ++ id.name ≠ PackedCall.wrapperName entry := by
  intro h
  have hlist : (label ++ "_").toList ++ 't' :: (toString id).toList = entry.toList ++ "_packed".toList := by
    rw [← toList_taskName, h, PackedCall.wrapperName, String.toList_append]
  have hdigits := congrArg (fun chars => chars.reverse.takeWhile Char.isDigit) hlist
  have hletter : (entry.toList ++ "_packed".toList).reverse.takeWhile Char.isDigit = [] := by
    rw [List.reverse_append]
    exact List.takeWhile_cons_of_neg (by decide)
  simp only [takeWhile_isDigit_reverse, hletter, List.reverse_eq_nil_iff] at hdigits
  rw [toList_toString] at hdigits
  exact Nat.toDigits_ne_nil hdigits

/-! ## Kernels of a graph -/

/-- A kernel of an operator: it has the name of the task and a thread for each element, and wraps nothing. -/
def Operator.HasKernel (blockSize : UInt32) (op : Operator) (f : Function) : Prop :=
  ∃ count, op.computation.numElements? = some count ∧ f.header = (op.task.name, .launch count blockSize, none)

/-- Lowering keeps a kernel one. -/
theorem Operator.HasKernel.lowered [FloatOps] {blockSize : UInt32} {op : Operator} {f : Function}
    (h : op.HasKernel blockSize f) : op.HasKernel blockSize f.lowered := by
  obtain ⟨count, hcount, hheader⟩ := h
  exact ⟨count, hcount, f.header_lowered.trans hheader⟩

/-- Whether a function is the kernel that is generated for the task of an operator. -/
def Operator.Generates (blockSize : UInt32) (op : Operator) (f : Function) : Prop :=
  GridKernel.kernel (op.task.resize blockSize) = .ok f ∧ op.HasKernel blockSize f

/-- A wrapper of an entry on the host. -/
def Function.HasWrapper (entry wrapper : Function) : Prop :=
  wrapper.header = (entry.name ++ "_packed", .host, some entry.name)

namespace Operator.Computes

variable {k : ElementKind} {T : TensorTable} {op : Operator} {d : DType} {shape : List Int64}

theorem numElements?_eq (h : op.Computes k T d shape) : op.computation.numElements? = some (numElements shape) := by
  rw [TensorCompute.numElements?, h.defines.constShape?_eq]
  rfl

theorem resize_eq (h : op.Computes k T d shape) (blockSize : UInt32) :
    op.task.resize blockSize = { op.task with worker := .launch (numElements shape) blockSize } := by
  have hcount : op.task.computation.numElements? = some (numElements shape) := h.numElements?_eq
  rw [Task.resize, h.worker_eq, hcount]
  rfl

/-- The registry makes a well-typed kernel for the task of an operator, and all its parameters can be packed. -/
theorem exists_dispatch (h : op.Computes k T d shape) (blockSize : UInt32) :
    ∃ f, Registry.builtin.dispatch (op.task.resize blockSize) = .ok ⟨[f]⟩ ∧ op.Generates blockSize f ∧
      (∀ v ∈ f.params, v.ty.packedCode?.isSome) ∧ f.WellTyped := by
  obtain ⟨f, hkernel, hname, hworker, hpacked, hparams, hwell⟩ := h.exists_kernel (.launch (numElements shape) blockSize)
  refine ⟨f, ?_, ⟨?_, _, h.numElements?_eq, ?_⟩, ?_, hwell⟩
  · rw [h.resize_eq]
    exact Registry.dispatch_builtin (h.checkResolved _) rfl hkernel hname hworker
  · rw [h.resize_eq]
    exact hkernel
  · rw [Function.header, hname, hworker, hpacked]
  · intro v hv
    rw [hparams] at hv
    obtain ⟨entry, hentry, rfl⟩ := List.mem_map.mp hv
    rcases h.mem_zip_params hentry with ⟨id, -, d', shape', -, rfl⟩ | rfl
    · rfl
    · rfl

end Operator.Computes

namespace Graph

variable {k : ElementKind} {g : Graph}

/-- The tasks of a well-formed graph have different names. -/
theorem WellFormed.nodup_taskNames (h : g.WellFormed k) : (g.tasks.map Task.name).Nodup := by
  have houtputs : (g.nodes.map Operator.output).Nodup := h.ordered.nodup_outputsOf
  rw [tasks, List.map_map]
  refine List.Nodup.map_on (fun a ha b hb heq => ?_) (List.Nodup.of_map _ houtputs)
  obtain ⟨_, _, hcomputes⟩ := h.computed a ha
  obtain ⟨_, _, hcomputes'⟩ := h.computed b hb
  change a.task.name = b.task.name at heq
  rw [hcomputes.task_name, hcomputes'.task_name] at heq
  exact List.inj_on_of_nodup_map houtputs ha hb (eq_of_taskName_eq heq)

theorem name_resize (blockSize : UInt32) (task : Task) : (task.resize blockSize).name = task.name := by
  rw [Task.resize]
  split <;> rfl

/-- Kernels have the names of the tasks. -/
theorem map_name_of_hasKernel {blockSize : UInt32} {kernels : List Function}
    (h : List.Forall₂ (Operator.HasKernel blockSize) g.nodes kernels) :
    kernels.map Function.name = g.tasks.map Task.name := by
  rw [tasks, List.map_map]
  refine map_eq_of_forall₂ h fun op f hf => ?_
  obtain ⟨count, -, hheader⟩ := hf
  exact congrArg Prod.fst hheader

/-- The registry generates one kernel for each task of a well-formed graph, and the kernels are well typed. -/
theorem WellFormed.exists_dispatchAll (h : g.WellFormed k) (blockSize : UInt32) :
    ∃ kernels, dispatchAll .builtin (g.launchTasks blockSize) = .ok ⟨kernels⟩ ∧
      List.Forall₂ (Operator.Generates blockSize) g.nodes kernels ∧
      (∀ f ∈ kernels, ∀ v ∈ f.params, v.ty.packedCode?.isSome) ∧ Module.WellTyped ⟨kernels⟩ := by
  obtain ⟨kernels, hkernels⟩ : ∃ kernels, List.Forall₂ (fun op f =>
      Registry.builtin.dispatch (op.task.resize blockSize) = .ok ⟨[f]⟩ ∧ op.Generates blockSize f ∧
        (∀ v ∈ f.params, v.ty.packedCode?.isSome) ∧ f.WellTyped) g.nodes kernels := by
    refine exists_forall₂ fun op hop => ?_
    obtain ⟨d, shape, hcomputes⟩ := h.computed op hop
    exact hcomputes.exists_dispatch blockSize
  have hnames := map_name_of_hasKernel (hkernels.imp fun op f hf => hf.2.1.2)
  refine ⟨kernels, ?_, hkernels.imp fun op f hf => hf.2.1, forall_mem_of_forall₂ hkernels fun op _ f hf => hf.2.2.1,
    forall_mem_of_forall₂ hkernels fun op _ f hf => hf.2.2.2⟩
  refine foldlM_bind_eq_ok_iff.mpr ⟨kernels.map fun f => ⟨[f]⟩, ?_, ?_⟩
  · rw [launchTasks, tasks, List.map_map, List.forall₂_map_left_iff, List.forall₂_map_right_iff]
    exact hkernels.imp fun op f hf => hf.1
  · refine Module.foldlM_merge_eq_ok ?_
    rw [hnames]
    exact h.nodup_taskNames

/-- Every kernel of a well-formed graph needs a wrapper. -/
theorem WellFormed.needsWrapper (h : g.WellFormed k) {blockSize : UInt32} {kernels : List Function}
    (hkernels : List.Forall₂ (Operator.HasKernel blockSize) g.nodes kernels) {f : Function} (hf : f ∈ kernels) :
    Module.needsWrapper ⟨kernels⟩ f = true := by
  obtain ⟨op, -, count, -, hheader⟩ := exists_mem_of_forall₂ hkernels.flip hf
  have hworker : f.worker = .launch count blockSize := congrArg (fun header => header.2.1) hheader
  have hpacked : f.packed = none := congrArg (fun header => header.2.2) hheader
  refine Module.needsWrapper_iff.mpr ⟨by rw [hworker]; rfl, hpacked, fun hmem => ?_⟩
  rw [Module.names, map_name_of_hasKernel hkernels, tasks, List.map_map] at hmem
  obtain ⟨op', hop', hname⟩ := List.mem_map.mp hmem
  obtain ⟨_, _, hcomputes⟩ := h.computed op' hop'
  exact taskName_ne_wrapperName _ _ _ (hcomputes.task_name.symm.trans hname)

/-- Lowering the kernels of a well-formed graph puts their wrappers behind them. -/
theorem WellFormed.exists_lower [FloatOps] (h : g.WellFormed k) {blockSize : UInt32} {kernels : List Function}
    (hkernels : List.Forall₂ (Operator.HasKernel blockSize) g.nodes kernels)
    (hparams : ∀ f ∈ kernels, ∀ v ∈ f.params, v.ty.packedCode?.isSome) :
    ∃ wrappers, Lowerer.canonical.run ⟨kernels⟩ = .ok ⟨kernels.map Function.lowered ++ wrappers⟩ ∧
      List.Forall₂ Function.HasWrapper (kernels.map Function.lowered) wrappers := by
  have hnodup : (Module.names ⟨kernels⟩).Nodup := by
    rw [Module.names, map_name_of_hasKernel hkernels]
    exact h.nodup_taskNames
  have hneeds : ∀ f ∈ kernels, Module.needsWrapper ⟨kernels⟩ f = true := fun f hf => h.needsWrapper hkernels hf
  have hentries : ∀ f ∈ kernels, f.worker.isHostCallable = true := fun f hf =>
    (Module.needsWrapper_iff.mp (hneeds f hf)).1
  obtain ⟨wrappers, hrun, hheaders⟩ := Module.exists_lower hnodup hentries hparams
  rw [List.filter_eq_self.mpr hneeds, ← List.forall₂_eq_eq_eq, List.forall₂_map_left_iff,
    List.forall₂_map_right_iff] at hheaders
  rw [List.map_append] at hrun
  refine ⟨wrappers.map Function.lowered, hrun, ?_⟩
  rw [List.forall₂_map_left_iff, List.forall₂_map_right_iff]
  refine hheaders.flip.imp fun f wrapper hheader => ?_
  have hname : f.lowered.name = f.name := congrArg Prod.fst f.header_lowered
  rw [Function.HasWrapper, wrapper.header_lowered, hheader, hname]
  rfl

/-- What compiling a well-formed graph comes to: the graph is optimized, a kernel is generated for each operator, and the
module of the kernels is lowered if that is wanted. -/
theorem WellFormed.exists_compile_eq [FloatOps] (h : g.WellFormed k) (blockSize : UInt32) :
    ∃ run kernels, g.optimize = .ok run.result ∧ run.result.WellFormed k ∧
      List.Forall₂ (Operator.Generates blockSize) run.result.nodes kernels ∧
      (∀ f ∈ kernels, ∀ v ∈ f.params, v.ty.packedCode?.isSome) ∧ Module.WellTyped ⟨kernels⟩ ∧
      ∀ lower, g.compile .builtin ⟨blockSize, lower⟩ = (do
        let m ← if lower then Lowerer.canonical.run ⟨kernels⟩ else pure ⟨kernels⟩
        pure ⟨run, run.result.tasks.map Task.name, m⟩) := by
  obtain ⟨run, hrun, hwell⟩ := h.exists_run GraphPass.pipeline
  obtain ⟨kernels, hdispatch, hkernels, hparams, htyped⟩ := hwell.exists_dispatchAll blockSize
  have hoptimize : g.optimize = .ok run.result := by
    rw [optimize, hrun]
    rfl
  have hnames : (run.result.launchTasks blockSize).map Task.name = run.result.tasks.map Task.name := by
    rw [launchTasks, List.map_map]
    exact List.map_congr_left fun task _ => name_resize blockSize task
  refine ⟨run, kernels, hoptimize, hwell, hkernels, hparams, htyped, fun lower => ?_⟩
  rw [compile, hrun, bind_ok]
  change (dispatchAll .builtin (run.result.launchTasks blockSize) >>= _) = _
  rw [hdispatch, bind_ok, ← hnames]

/-- Compiling a well-formed graph with lowering gives the lowered kernels and their wrappers. -/
theorem WellFormed.exists_compile_lowered [FloatOps] (h : g.WellFormed k) (blockSize : UInt32) :
    ∃ compiled kernels wrappers, g.compile .builtin ⟨blockSize, true⟩ = .ok compiled ∧
      g.optimize = .ok compiled.run.result ∧ compiled.run.result.WellFormed k ∧
      compiled.tasks = compiled.run.result.tasks.map Task.name ∧
      compiled.module.functions = kernels.map Function.lowered ++ wrappers ∧
      List.Forall₂ (Operator.Generates blockSize) compiled.run.result.nodes kernels ∧
      List.Forall₂ Function.HasWrapper (kernels.map Function.lowered) wrappers := by
  obtain ⟨run, kernels, hoptimize, hwell, hkernels, hparams, -, hcompile⟩ := h.exists_compile_eq blockSize
  obtain ⟨wrappers, hlowered, hwrappers⟩ := hwell.exists_lower (hkernels.imp fun op f hf => hf.2) hparams
  have hmodule := hcompile true
  rw [if_pos rfl, hlowered] at hmodule
  exact ⟨_, kernels, wrappers, hmodule, hoptimize, hwell, rfl, rfl, hkernels, hwrappers⟩

/-- Compiling a well-formed graph gives the kernels of the optimized graph and, if it is lowered, their wrappers. -/
theorem WellFormed.exists_compile [FloatOps] (h : g.WellFormed k) (options : CompileOptions) :
    ∃ compiled kernels wrappers, g.compile .builtin options = .ok compiled ∧ g.optimize = .ok compiled.run.result ∧
      compiled.run.result.WellFormed k ∧ compiled.tasks = compiled.run.result.tasks.map Task.name ∧
      compiled.module.functions = kernels ++ wrappers ∧
      List.Forall₂ (Operator.HasKernel options.blockSize) compiled.run.result.nodes kernels ∧
      List.Forall₂ Function.HasWrapper (if options.lower then kernels else []) wrappers := by
  obtain ⟨blockSize, lower⟩ := options
  cases lower with
  | false =>
    obtain ⟨run, kernels, hoptimize, hwell, hkernels, -, -, hcompile⟩ := h.exists_compile_eq blockSize
    exact ⟨_, kernels, [], hcompile false, hoptimize, hwell, rfl, (List.append_nil _).symm,
      hkernels.imp fun op f hf => hf.2, .nil⟩
  | true =>
    obtain ⟨compiled, kernels, wrappers, hcompile, hoptimize, hwell, htasks, hmodule, hkernels, hwrappers⟩ :=
      h.exists_compile_lowered blockSize
    refine ⟨compiled, _, wrappers, hcompile, hoptimize, hwell, htasks, hmodule, ?_, hwrappers⟩
    rw [List.forall₂_map_right_iff]
    exact hkernels.imp fun op f hf => hf.2.lowered

/-- A module that a well-formed graph compiles to is well typed, and flat if it is lowered. -/
theorem WellFormed.wellTyped_compile [FloatOps] (h : g.WellFormed k) {options : CompileOptions} {compiled : Compiled}
    (hcompile : g.compile .builtin options = .ok compiled) :
    compiled.module.WellTyped ∧ (options.lower → ∀ f ∈ compiled.module.functions, f.IsFlat) := by
  obtain ⟨blockSize, lower⟩ := options
  obtain ⟨run, kernels, -, -, -, -, htyped, hcompile'⟩ := h.exists_compile_eq blockSize
  rw [hcompile' lower] at hcompile
  cases lower with
  | false =>
    cases hcompile
    exact ⟨htyped, by simp⟩
  | true =>
    obtain ⟨lowered, hlowered, hcompile⟩ := bind_eq_ok_iff.mp hcompile
    cases hcompile
    exact ⟨Lowerer.wellTyped_run hlowered htyped, fun _ => Lowerer.isFlat_run_canonical hlowered htyped⟩

/-- Compiling a graph that was built, with lowering and for any block size, gives a module in which every variable is bound
by the innermost parameter, local variable or binding of its name and has the type of that one, operands, accesses, stores,
assignments and conditions are well typed, no parameter has more than one dimension, and nothing is left of definitions
and patterns. -/
theorem exists_compile_build_wellTyped [FloatOps] (steps : List BuildStep) (blockSize : UInt32) :
    ∃ compiled, (build steps).compile .builtin ⟨blockSize, true⟩ = .ok compiled ∧ compiled.module.WellTyped ∧
      ∀ f ∈ compiled.module.functions, f.IsFlat ∧ ∀ node ∈ f.body.exprNodes, node.isComputeNode = false := by
  have hbuilt := wellFormed_build_mixed steps
  obtain ⟨compiled, -, -, hcompile, -⟩ := hbuilt.exists_compile ⟨blockSize, true⟩
  obtain ⟨hwell, hflat⟩ := hbuilt.wellTyped_compile hcompile
  exact ⟨compiled, hcompile, hwell, fun f hf => ⟨hflat rfl f hf, (hwell f hf).body.isComputeNode_eq_false⟩⟩

end Graph

end TensorCompiler
