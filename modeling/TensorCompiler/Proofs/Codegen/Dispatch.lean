import TensorCompiler.Proofs.Codegen.Kernel

/-! # Dispatch

The tasks of a well-formed graph have no open field, so the registry looks for an implementer. On a grid the general
implementer for grids accepts them and the one for warps does not, and the module that it makes is the kernel alone.
-/

namespace TensorCompiler

/-! ## Resolved tasks -/

namespace Expr

variable {k : ElementKind} {reads : DType → String → List Int64 → Prop} {d : DType} {l : Level} {scope : List String}
  {e : Expr}

theorem allResolved_ofShape (shape : List Int64) : allResolved (ofShape shape) = true := by
  refine allResolved_iff.mpr fun e he => ?_
  obtain ⟨n, -, rfl⟩ := List.mem_map.mp he
  rfl

theorem IsCoordinate.isResolved (h : IsCoordinate scope d e) : e.isResolved = true := by
  induction h with
  | @var v _ hty =>
    obtain ⟨name, ty⟩ := v
    cases hty
    rfl
  | const => rfl
  | binary op _ _ ihl ihr => rw [Expr.isResolved, ihl, ihr, Bool.and_self]

/-- Definitions have no open field. -/
theorem IsElement.isResolved (h : IsElement k reads d l scope e) : e.isResolved = true := by
  induction h with
  | @read d _ _ name shape indices _ _ hindices =>
    have hbase : (TensorInput.ofShape name d shape).toExpr.isResolved = true := by
      rw [TensorInput.toExpr, TensorInput.ofShape, Expr.isResolved, allResolved_ofShape]
      rfl
    have hindices' : allResolved indices = true := allResolved_iff.mpr fun i hi => (hindices i hi).isResolved
    rw [TensorInput.elementAt, Expr.isResolved, hbase, hindices', Bool.and_self]
  | const => rfl
  | neg _ ih => exact ih
  | binary _ _ _ _ ihl ihr => rw [Expr.isResolved, ihl, ihr, Bool.and_self]
  | call _ _ ih => simp [Expr.isResolved, allResolved, ih]
  | callPair _ _ _ _ ihl ihr => simp [Expr.isResolved, allResolved, ihl, ihr]
  | ite hcond _ _ iht ihe => simp [Expr.isResolved, hcond.isResolved, iht, ihe]
  | reduce _ _ _ _ _ _ ih => rw [Expr.isResolved, allResolved_ofShape, ih, Bool.and_self]

end Expr

theorem Ty.isResolved_global (d : DType) (shape : List Int64) :
    Ty.isResolved (.tensor ⟨.known .global, .known d, some (Expr.ofShape shape), none⟩) = true := by
  rw [Ty.isResolved, TensorType.isResolved, Expr.allResolved_ofShape]
  rfl

/-- No task of an operator has an open field. -/
theorem Operator.Computes.checkResolved {k : ElementKind} {T : TensorTable} {op : Operator} {d : DType}
    {shape : List Int64} (h : op.Computes k T d shape) (worker : Worker) :
    Task.checkResolved { op.task with worker := worker } = .ok () := by
  have hcomputation : op.task.computation.toExpr.isResolved = true := by
    change Expr.isResolved (.compute _ op.computation.shape _ op.computation.value) = true
    rw [Expr.isResolved, h.defines.shape_eq, Expr.allResolved_ofShape, h.defines.value.isResolved, Bool.and_self]
  have htypes : op.task.paramTypes.findIdx? (fun ty => !ty.isResolved) = none := by
    obtain ⟨args, hargs, -, htypes⟩ := h.params_eq
    refine List.findIdx?_eq_none_iff.mpr fun ty hty => ?_
    rw [htypes, List.mem_append, List.mem_singleton] at hty
    rw [Bool.not_eq_false']
    rcases hty with hty | rfl
    · obtain ⟨arg, harg, rfl⟩ := List.mem_map.mp hty
      obtain ⟨id, -, d', shape', -, rfl⟩ := exists_mem_of_forall₂ hargs.flip harg
      exact Ty.isResolved_global d' shape'
    · rw [h.defines.shape_eq]
      exact Ty.isResolved_global d shape
  rw [Task.checkResolved]
  simp only [hcomputation, htypes]
  rfl

/-! ## The registry -/

namespace Registry

variable {r : Registry} {task : Task} {m : Module} {gridDim blockDim : Option UInt32}

/-- A task without open fields goes to the selected implementer, whose module is checked against the task. -/
theorem dispatch_eq_ok_iff : r.dispatch task = .ok m ↔ task.checkResolved = .ok () ∧
    ∃ i b, r.select task = .ok (i, b) ∧ i.implement task b = .ok m ∧ outputFault? task m = none := by
  constructor
  · intro h
    obtain ⟨⟨⟩, hresolved, hrest⟩ := bind_eq_ok_iff.mp h
    obtain ⟨⟨i, b⟩, hselect, hrest⟩ := bind_eq_ok_iff.mp hrest
    obtain ⟨m', himplement, hresult⟩ := bind_eq_ok_iff.mp hrest
    split at hresult
    · cases hresult
    · rename_i hfault
      cases hresult
      exact ⟨hresolved, i, b, hselect, himplement, hfault⟩
  · rintro ⟨hresolved, i, b, hselect, himplement, hfault⟩
    simp only [dispatch, hresolved, bind_ok, hselect, himplement, hfault]
    rfl

/-- A module of one function implements the task if the function has its name and its worker. -/
theorem outputFault?_singleton {f : Function} (hname : f.name = task.name) (hsame : f.worker = task.worker) :
    outputFault? task ⟨[f]⟩ = none := by
  have hfound : Module.get? ⟨[f]⟩ task.name = some f := by
    simp [Module.get?, hname]
  rw [outputFault?, hfound]
  exact if_pos hsame

theorem matchTask_anyGridTask (hworker : task.worker = .grid gridDim blockDim) :
    matchTask TaskPattern.anyGridTask task = .ok {} := by
  have haccepts : TaskPattern.anyGridTask.worker.accepts task.worker = true := by
    rw [hworker]
    rfl
  have hmatch : (matchExpr (.anyCompute none true) task.computation.toExpr).run {} = .ok ((), {}) := by
    rw [TensorCompute.toExpr, matchExpr]
    rfl
  rw [matchTask, haccepts]
  change ((matchExpr (.anyCompute none true) task.computation.toExpr >>= fun _ => pure ()).run {} >>= _) = _
  rw [StateT.run_bind, hmatch]
  rfl

theorem select_builtin (hworker : task.worker = .grid gridDim blockDim) :
    builtin.select task = .ok (GridKernel.implementer, {}) := by
  have hgrid := matchTask_anyGridTask hworker
  have hwarp : matchTask WarpTransfer.pattern task = .error .worker := by
    have haccepts : WarpTransfer.pattern.worker.accepts task.worker = false := by
      rw [hworker]
      rfl
    rw [matchTask, haccepts]
    rfl
  have hcandidates : builtin.candidates task = [(GridKernel.implementer, {})] := by
    have hpattern : GridKernel.implementer.pattern = TaskPattern.anyGridTask := rfl
    have hpattern' : WarpTransfer.implementer.pattern = WarpTransfer.pattern := rfl
    simp only [candidates, builtin, List.filterMap_cons, List.filterMap_nil, hpattern, hpattern', hgrid, hwarp]
  rw [select, hcandidates]
  rfl

/-- A task on a grid goes to the implementer for grids. -/
theorem dispatch_builtin {f : Function} (hresolved : task.checkResolved = .ok ())
    (hworker : task.worker = .grid gridDim blockDim) (hkernel : GridKernel.kernel task = .ok f)
    (hname : f.name = task.name) (hsame : f.worker = task.worker) : builtin.dispatch task = .ok ⟨[f]⟩ := by
  have himplement : GridKernel.implementer.implement task {} = .ok ⟨[f]⟩ := by
    change (GridKernel.kernel task >>= _) = _
    rw [hkernel]
    rfl
  exact dispatch_eq_ok_iff.mpr ⟨hresolved, _, _, select_builtin hworker, himplement, outputFault?_singleton hname hsame⟩

end Registry

end TensorCompiler
