import TensorCompiler.Proofs.Codegen.Coordinates
import TensorCompiler.Proofs.Codegen.IndexArithmetic
import TensorCompiler.Proofs.Codegen.ValueTyped

/-! # Kernels are well typed

The parameters of a kernel are the tensors that its operator reads and writes, under the names that the graph gives them
and at their recorded types, so one name stands for one parameter. The number of the thread and the accumulators have
names of their own. So the task of each operator has a kernel, under its name and on its worker, and the kernel is well
typed, with the store at the rank and the element type of the output.
-/

namespace TensorCompiler

/-! ## Bodies of kernels -/

namespace GridKernel

variable {vars accs : List Var} {reads : DType → String → List Int64 → Prop}

theorem closedUnderArithmetic_isIndex (vars : List Var) : Expr.ClosedUnderArithmetic fun e => e.IsIndex vars where
  int := Expr.isIndex_int
  binary hop hl hr := hl.binary hop hr

/-- The number of a thread is an index, on every worker. -/
theorem isIndex_number (worker : Worker) (vars : List Var) :
    (Primitive.blockIdx * blockDim worker + Primitive.threadIdx).IsIndex vars := by
  have hprimitive {name : String} (htype : (Expr.call name []).HasDType .int32) : (Expr.call name []).IsIndex vars :=
    ⟨.call name (by simp), htype⟩
  have hblock : Primitive.blockIdx.IsIndex vars := hprimitive rfl
  have hthread : Primitive.threadIdx.IsIndex vars := hprimitive rfl
  have hdim : (blockDim worker).IsIndex vars := by
    rw [blockDim]
    split
    · exact Expr.isIndex_int _
    · exact hprimitive rfl
  exact (hblock.mul hdim).add hthread

variable {k : ElementKind} {T : TensorTable} {ids : List TensorId} {l : Level} {d : DType} {shape : List Int64}
  {c : TensorCompute} {name : String} {thread : Var} {lowered : Lowered Expr}

/-- What a thread does with its element is well typed, if the lowered value is. -/
theorem wellTyped_elementBody (hc : c.Defines k T ids l d shape) (hnamed : Named reads []) (hreads : reads d name shape)
    (haccs : ∀ v ∈ thread :: accs, ¬ IsNumbered v.name) (hthread : thread.ty = .ofDType .int32)
    (hlowered : ∀ vars, Scoped reads (c.axes.map Var.name) accs vars → Expr.IsTyped vars d lowered)
    (h : Scoped reads [] (thread :: accs) vars) :
    (elementBody c shape ⟨name, (TensorInput.ofShape name d shape).globalType⟩ thread lowered).WellTyped vars := by
  refine Stmt.wellTyped_nest .letIn
    (fun hv hhides hvalue hinner => .letIn hv hhides hvalue.wellTyped hvalue.hasDType hinner) hnamed haccs
    (hc.rank.trans (length_unravelFrom _ _ _ _).symm) (fun v hv => Or.inl (hc.axes v hv)) hc.types ?_
    (fun vars hvars => ?_) h
  · intro e he vars hbound
    have hindex : (Expr.var thread).IsIndex vars :=
      ⟨.var (hbound thread List.mem_cons_self), (Expr.inferType_var thread).trans (congrArg Except.ok hthread)⟩
    exact (closedUnderArithmetic_isIndex _).unravelFrom hindex true _ shape e he
  · have htyped := hlowered vars (hvars.mono (fun x hx => List.mem_append_left _ hx) fun w => List.mem_cons_of_mem _)
    refine .block (List.forall_mem_append.mpr ⟨htyped.prelude, List.forall_mem_singleton.mpr ?_⟩)
    have haxes : ∀ v ∈ c.axes, v.IsBound vars := fun v hv =>
      hvars.axes v (List.mem_append_left _ (List.mem_map_of_mem hv)) (hc.types v hv)
    refine .store (hvars.params d name shape hreads) rfl ?_ (List.forall_mem_map.mpr fun v hv => .var (haxes v hv))
      (List.forall_mem_map.mpr fun v hv => (Expr.inferType_var v).trans (congrArg Except.ok (hc.types v hv)))
      htyped.wellTyped htyped.hasDType
    rw [List.length_map, hc.rank]
    exact congrArg some (List.length_map _)

/-- The body of a kernel is well typed, if the lowered value is. -/
theorem wellTyped_body (hc : c.Defines k T ids l d shape) (hnamed : Named reads []) (hreads : reads d name shape)
    (haccs : ∀ v ∈ thread :: accs, ¬ IsNumbered v.name) (hfresh : ∀ v ∈ accs, thread.name ≠ v.name)
    (hthread : thread.ty = .ofDType .int32) (worker : Worker)
    (hlowered : ∀ vars, Scoped reads (c.axes.map Var.name) accs vars → Expr.IsTyped vars d lowered)
    (h : Scoped reads [] accs vars) :
    (body worker c shape ⟨name, (TensorInput.ofShape name d shape).globalType⟩ thread lowered).WellTyped vars := by
  have hnumbered : ¬ IsNumbered thread.name := haccs thread List.mem_cons_self
  have hnumber := isIndex_number worker vars
  have hinner := h.bindOwn hnamed hnumbered hthread hfresh
  have hbound : (Expr.var thread).WellTyped (thread :: vars) := .var (Var.isBound_cons_self thread vars)
  have htype : (Expr.var thread).HasDType .int32 := (Expr.inferType_var thread).trans (congrArg Except.ok hthread)
  have hcount : (Expr.int (numElements shape)).HasDType .int32 := rfl
  rw [body_eq]
  refine .letIn hthread (h.hidesNoTensor fun id hname => hnumbered ?_) hnumber.wellTyped hnumber.hasDType ?_
  · rw [hname]
    exact isNumbered_tensorName id
  · exact .ifThen (.binary .lt hbound (.const _ _) htype hcount) (htype.binary .lt hcount)
      (wellTyped_elementBody hc hnamed hreads haccs hthread hlowered hinner)

end GridKernel

/-! ## Kernels -/

/-- The variables of the kernel of an operator: its parameters and its accumulators. -/
def Operator.kernelVars (op : Operator) (accs : List Var) : List Var :=
  (op.task.params.zip op.task.paramTypes).map ParamMap.paramVar ++ accs

namespace Operator.Computes

variable {k : ElementKind} {T : TensorTable} {op : Operator} {d : DType} {shape : List Int64}

section

variable {accs : List Var}

/-- Each variable of a kernel is the only one of its name. -/
theorem isBound_kernelVars (h : op.Computes k T d shape) (haccs : ∀ v ∈ accs, ¬ IsNumbered v.name)
    (hnodup : (accs.map Var.name).Nodup) : ∀ v ∈ op.kernelVars accs, v.IsBound (op.kernelVars accs) := by
  have hnumbered : ∀ entry ∈ op.task.params.zip op.task.paramTypes, IsNumbered (ParamMap.paramVar entry).name := by
    intro entry hentry
    obtain ⟨id, -, _, _, -, heq⟩ := h.exists_paramVar_eq hentry
    rw [heq]
    exact isNumbered_tensorName id
  intro v hv
  refine Var.isBound_of_unique hv fun w hw hname => ?_
  rcases List.mem_append.mp hv with hv | hv <;> rcases List.mem_append.mp hw with hw | hw
  · obtain ⟨entry, hentry, rfl⟩ := List.mem_map.mp hv
    obtain ⟨entry', hentry', rfl⟩ := List.mem_map.mp hw
    obtain ⟨id, -, d', shape', htype, heq⟩ := h.exists_paramVar_eq hentry
    rw [heq] at hname ⊢
    exact h.paramVar_eq hentry' hname htype
  · obtain ⟨entry, hentry, rfl⟩ := List.mem_map.mp hv
    exact absurd (hname ▸ hnumbered entry hentry) (haccs w hw)
  · obtain ⟨entry, hentry, rfl⟩ := List.mem_map.mp hw
    exact absurd (hname ▸ hnumbered entry hentry) (haccs v hv)
  · exact List.inj_on_of_nodup_map hnodup hw hv hname

/-- What a kernel refers to outside of its body is in scope. -/
theorem scoped_kernelVars (h : op.Computes k T d shape) (haccs : ∀ v ∈ accs, ¬ IsNumbered v.name)
    (hnodup : (accs.map Var.name).Nodup) (hscalar : ∀ v ∈ accs, ∃ d, v.ty = .ofDType d) :
    Scoped (T.Reads (op.output :: op.inputs)) [] accs (op.kernelVars accs) where
  axes v hv := by cases hv
  params := by
    rintro d' _ shape' ⟨id, hid, rfl, htype⟩
    obtain ⟨entry, hentry, hname⟩ := h.exists_param (List.mem_cons.mp hid).symm
    refine h.isBound_kernelVars haccs hnodup _ (List.mem_append_left _ ?_)
    rw [← h.paramVar_eq hentry hname htype]
    exact List.mem_map_of_mem hentry
  accs v hv := h.isBound_kernelVars haccs hnodup v (List.mem_append_right _ hv)
  tensors v hv htensor := by
    rcases List.mem_append.mp hv with hv | hv
    · obtain ⟨entry, hentry, rfl⟩ := List.mem_map.mp hv
      obtain ⟨id, -, _, _, -, heq⟩ := h.exists_paramVar_eq hentry
      exact ⟨id, congrArg Var.name heq⟩
    · obtain ⟨d', hty⟩ := hscalar v hv
      rw [hty] at htensor
      cases htensor

theorem isStatic_of_mem_kernelVars (h : op.Computes k T d shape) (hscalar : ∀ v ∈ accs, ∃ d, v.ty = .ofDType d) :
    ∀ v ∈ op.kernelVars accs, v.ty.IsStatic := by
  intro v hv
  rcases List.mem_append.mp hv with hv | hv
  · obtain ⟨entry, hentry, rfl⟩ := List.mem_map.mp hv
    obtain ⟨id, -, d', shape', -, heq⟩ := h.exists_paramVar_eq hentry
    rw [heq]
    exact ⟨.global, d', shape', rfl⟩
  · obtain ⟨d', hty⟩ := hscalar v hv
    rw [hty]
    rfl

/-- The task of an operator has a kernel on every worker, and it is well typed. -/
theorem exists_kernel (h : op.Computes k T d shape) (worker : Worker) :
    ∃ f, GridKernel.kernel { op.task with worker := worker } = .ok f ∧ f.name = op.task.name ∧ f.worker = worker ∧
      f.packed = none ∧ f.params = (op.task.params.zip op.task.paramTypes).map ParamMap.paramVar ∧ f.WellTyped := by
  obtain ⟨thread, taken, b, rfl, htaken, hfunction, hkernel⟩ := h.exists_kernel_of_lower worker
  have hwrites : T.Reads (op.output :: op.inputs) d op.output.name shape := ⟨_, List.mem_cons_self, rfl, h.recorded⟩
  have hnamed : Named (T.Reads (op.output :: op.inputs)) (op.computation.axes.map Var.name) := h.named_reads _
  have hvalue : Expr.IsElement k (T.Reads (op.output :: op.inputs)) d op.fusionClass.level
      (op.computation.axes.map Var.name) op.computation.value :=
    h.defines.value.mono fun _ _ _ hreads => hreads.cons op.output
  obtain ⟨lowered, accs, hlower, hallows, hnodup, hscalar, htyped, -⟩ := hvalue.exists_isTyped hnamed h.covers_reads b
  have haccs : ∀ v ∈ accs, ¬ IsNumbered v.name := fun v hv => (hallows v hv).2
  have hnumbered : ¬ IsNumbered (freshName taken "tid") := not_isNumbered_freshName (Or.inl rfl) taken
  have hfresh : ∀ v ∈ accs, freshName taken "tid" ≠ v.name := by
    intro v hv hname
    refine (hallows v hv).1 ?_
    rw [htaken, ← hname]
    exact List.mem_cons_self
  have hvars : b.function.params ++ (b.function.locals ++ accs) = op.kernelVars accs := by
    rw [hfunction]
    rfl
  refine ⟨_, hkernel lowered _ hlower, congrArg Function.name hfunction, congrArg Function.worker hfunction,
    congrArg Function.packed hfunction, congrArg Function.params hfunction, ?_⟩
  constructor
  case types =>
    change ∀ v ∈ b.function.params ++ (b.function.locals ++ accs), v.ty.IsStatic
    rw [hvars]
    exact h.isStatic_of_mem_kernelVars hscalar
  case names =>
    change ∀ v ∈ b.function.params ++ (b.function.locals ++ accs),
      v.IsBound (b.function.params ++ (b.function.locals ++ accs))
    rw [hvars]
    exact h.isBound_kernelVars haccs hnodup
  case body =>
    change Stmt.WellTyped (b.function.params ++ (b.function.locals ++ accs)) _
    rw [hvars]
    exact GridKernel.wellTyped_body h.defines ⟨hnamed.tensors, by simp⟩ hwrites
      (List.forall_mem_cons.mpr ⟨hnumbered, haccs⟩) hfresh rfl worker htyped (h.scoped_kernelVars haccs hnodup hscalar)

end

end Operator.Computes

end TensorCompiler
