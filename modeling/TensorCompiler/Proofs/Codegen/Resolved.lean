import TensorCompiler.Proofs.Codegen.IndexArithmetic
import TensorCompiler.Proofs.Codegen.Lowers
import TensorCompiler.Proofs.Codegen.Selection

/-! # The code of resolved tasks

The two implementers of the library copy types into their code from three places: the parameters of the task, its
definition, and the axes of the definition. The test of the registry covers the first two. It passes over the axes, as it
passes over every place that binds a variable, and the kernel for grids binds the axes under the types that they have. So a
module that the registry makes has no holes if, next to the test, the variables that the task binds have resolved types;
the test alone lets holes through.
-/

namespace TensorCompiler

/-! ## What the test covers -/

namespace Task

variable {task : Task}

theorem checkResolved_eq_ok_iff : task.checkResolved = .ok () ↔
    task.computation.toExpr.isResolved = true ∧ ∀ ty ∈ task.paramTypes, ty.isResolved = true := by
  rw [checkResolved]
  cases hcomputation : task.computation.toExpr.isResolved with
  | false => simp
  | true =>
    cases hfind : task.paramTypes.findIdx? fun ty => !ty.isResolved with
    | none => simpa using hfind
    | some i =>
      refine iff_of_false (fun h => by cases h) fun h => ?_
      have hnone : (task.paramTypes.findIdx? fun ty => !ty.isResolved) = none := by simpa using h.2
      rw [hfind] at hnone
      cases hnone

/-- The variables that a task binds, in its definition and in the types of its parameters. -/
def boundVars (task : Task) : List Var :=
  task.computation.toExpr.boundVars ++ task.paramTypes.flatMap Ty.boundVars

/-- Whether a task has no holes. -/
structure IsHoleFree (task : Task) : Prop where
  computation : task.computation.toExpr.isHoleFree = true
  paramTypes : ∀ ty ∈ task.paramTypes, ty.isHoleFree = true

/-- A task that passes the test has no holes if the variables that it binds have none. -/
theorem isHoleFree_of_checkResolved (h : task.checkResolved = .ok ()) (hbound : AreResolved task.boundVars) :
    task.IsHoleFree := by
  obtain ⟨hcomputation, htypes⟩ := checkResolved_eq_ok_iff.mp h
  rw [boundVars, areResolved_append] at hbound
  refine ⟨Expr.isHoleFree_of_isResolved _ hcomputation hbound.1, fun ty hty => ?_⟩
  exact ty.isHoleFree_of_isResolved (htypes ty hty) fun v hv => hbound.2 v (List.mem_flatMap.mpr ⟨ty, hty, hv⟩)

theorem IsHoleFree.value (h : task.IsHoleFree) : task.computation.value.isHoleFree = true := by
  have hcomputation := h.computation
  simp only [TensorCompute.toExpr, Expr.isHoleFree, Bool.and_eq_true] at hcomputation
  exact hcomputation.2

theorem IsHoleFree.axes (h : task.IsHoleFree) : ∀ v ∈ task.computation.axes, v.ty.isHoleFree = true := by
  have hcomputation := h.computation
  simp only [TensorCompute.toExpr, Expr.isHoleFree, Bool.and_eq_true] at hcomputation
  exact Var.allHoleFree_iff.mp hcomputation.1.2

end Task

/-! ## Kernels for grids -/

theorem Expr.closedUnderArithmetic_isHoleFree : Expr.ClosedUnderArithmetic fun e => e.isHoleFree = true where
  int _ := rfl
  binary _ hl hr := by
    rw [Expr.isHoleFree, hl, hr]
    rfl

namespace ParamMap

theorem isHoleFree_declare {task : Task} (htask : task.IsHoleFree) {params : ParamMap} {b b' : FunctionBuilder}
    (hb : b.IsHoleFree) (h : declare task b = .ok (params, b')) : params.IsHoleFree ∧ b'.IsHoleFree := by
  refine CodegenM.foldlM_invariant (P := fun (params : ParamMap) b => params.IsHoleFree ∧ b.IsHoleFree)
    (fun entry hentry params params' b b' hbefore hstep => ?_) ⟨fun _ h => absurd h List.not_mem_nil, hb⟩ h
  obtain ⟨hparams, hb⟩ := hbefore
  have hty : entry.2.isHoleFree = true := htask.paramTypes _ (List.of_mem_zip hentry).2
  obtain ⟨name, b₁, hname, hrest⟩ := CodegenM.bind_eq_ok_iff.mp hstep
  obtain ⟨⟨⟩, b₂, hdeclare, hresult⟩ := CodegenM.bind_eq_ok_iff.mp hrest
  obtain ⟨-, rfl⟩ := CodegenM.ofOption_eq_ok_iff.mp hname
  cases hdeclare
  cases hresult
  exact ⟨List.forall_mem_cons.mpr ⟨hty, hparams⟩,
    List.forall_mem_append.mpr ⟨hb.params, List.forall_mem_singleton.mpr hty⟩, hb.locals, hb.retType⟩

end ParamMap

namespace GridKernel

variable {task : Task} {shape : List Int64} {out thread : Var} {lowered : Lowered Expr} {f : Function}

theorem isHoleFree_blockDim (worker : Worker) : (GridKernel.blockDim worker).isHoleFree = true := by
  unfold GridKernel.blockDim
  split <;> rfl

theorem isHoleFree_body {worker : Worker} {c : TensorCompute} (haxes : ∀ v ∈ c.axes, v.ty.isHoleFree = true)
    (hout : out.ty.isHoleFree = true) (hthread : thread.ty.isHoleFree = true) (hlowered : lowered.IsHoleFree) :
    (body worker c shape out thread lowered).IsHoleFree := by
  have hnumber : (Primitive.blockIdx * GridKernel.blockDim worker + Primitive.threadIdx).isHoleFree = true := by
    change ((true && (GridKernel.blockDim worker).isHoleFree) && true) = true
    rw [isHoleFree_blockDim]
    rfl
  have hguard : ((Expr.var thread).lt (Expr.int (numElements shape))).isHoleFree = true := by
    change ((Expr.var thread).isHoleFree && true) = true
    rw [Expr.isHoleFree_var, hthread, Bool.and_self]
  have hbound : (Scope.letIn thread (Primitive.blockIdx * GridKernel.blockDim worker + Primitive.threadIdx)).IsHoleFree :=
    ⟨hthread, hnumber⟩
  have htested : (Scope.ifThen ((Expr.var thread).lt (Expr.int (numElements shape)))).IsHoleFree := hguard
  have hguarded := (StmtBuilder.IsHoleFree.empty.enter hbound).enter htested
  have hcoordinates : ∀ entry ∈ c.axes.zip (unravel (.var thread) shape), (Scope.letIn entry.1 entry.2).IsHoleFree := by
    rintro ⟨v, e⟩ hentry
    obtain ⟨hv, he⟩ := List.of_mem_zip hentry
    have hflat : (Expr.var thread).isHoleFree = true := (Expr.isHoleFree_var thread).trans hthread
    exact ⟨haxes v hv, Expr.closedUnderArithmetic_isHoleFree.unravelFrom hflat true _ shape e he⟩
  have hstore : (Stmt.store (.var out) (c.axes.map .var) lowered.value).IsHoleFree := by
    refine Stmt.isHoleFree_store ((Expr.isHoleFree_var out).trans hout) (fun e he => ?_) hlowered.value
    obtain ⟨v, hv, rfl⟩ := List.mem_map.mp he
    exact (Expr.isHoleFree_var v).trans (haxes v hv)
  exact ((hguarded.foldl_enter hcoordinates).appendAll
    (List.forall_mem_append.mpr ⟨hlowered.prelude, List.forall_mem_singleton.mpr hstore⟩)).finish

/-- The kernel of a task without holes has no holes. -/
theorem isHoleFree_kernel (htask : task.IsHoleFree) (h : kernel task = .ok f) : f.IsHoleFree := by
  obtain ⟨shape, params, b, out, thread, lowered, b', -, hdeclare, hout, rfl, hlower, rfl⟩ := exists_of_kernel h
  obtain ⟨hparams, hb⟩ :=
    ParamMap.isHoleFree_declare htask ⟨List.forall_mem_nil _, List.forall_mem_nil _, rfl⟩ hdeclare
  have hnamed : FunctionBuilder.IsHoleFree { b with taken := freshName b.taken "tid" :: b.taken } :=
    ⟨hb.params, hb.locals, hb.retType⟩
  obtain ⟨hb', hlowered⟩ := Expr.isHoleFree_lower hparams _ htask.value hnamed hlower
  exact ⟨hb'.params, hb'.locals, hb'.retType, isHoleFree_body htask.axes (hparams.lookup hout) rfl hlowered⟩

end GridKernel

/-! ## Transfers of a warp -/

theorem Expr.allHoleFree_ofShape (shape : List Int64) : allHoleFree (ofShape shape) = true := by
  refine allHoleFree_iff.mpr fun e he => ?_
  obtain ⟨n, -, rfl⟩ := List.mem_map.mp he
  rfl

theorem Ty.isHoleFree_ofShape {scope : MemoryScope} (hscope : scope.isResolved = true) (d : DType) (shape : List Int64) :
    Ty.isHoleFree (.tensor (.ofShape scope d shape)) = true := by
  have hshape : Expr.openHoleFree (some (Expr.ofShape shape)) = true := Expr.allHoleFree_ofShape shape
  rw [TensorType.ofShape, Ty.isHoleFree, TensorType.isHoleFree, hscope, hshape]
  rfl

namespace WarpTransfer

variable {task : Task} {t : Transfer} {shared registers : Var} {f : Function}

theorem isHoleFree_sharedTileType (htask : task.IsHoleFree) (b : Binding) : (sharedTileType task b t).isHoleFree = true := by
  unfold sharedTileType
  cases hparam : (b.param? 0).bind fun i => task.paramTypes[i]? with
  | none => exact Ty.isHoleFree_ofShape rfl _ _
  | some ty =>
    obtain ⟨i, -, hi⟩ := Option.bind_eq_some_iff.mp hparam
    exact htask.paramTypes ty (List.mem_of_getElem? hi)

theorem isHoleFree_load (hshared : shared.ty.isHoleFree = true) (hregisters : registers.ty.isHoleFree = true)
    (position : List Int64) : (load t shared registers position).IsHoleFree := by
  have helement : (Expr.element (.var shared) (t.tile.globalIndices (.var lane) position)).isHoleFree = true := by
    have hindices : Expr.allHoleFree (t.tile.globalIndices (.var lane) position) = true :=
      Expr.allHoleFree_iff.mpr (Expr.closedUnderArithmetic_isHoleFree.globalIndices t.tile rfl position)
    rw [Expr.isHoleFree, hindices, Expr.isHoleFree_var, hshared, Bool.and_self]
  have hposition : ∀ e ∈ position.map Expr.int, e.isHoleFree = true :=
    Expr.allHoleFree_iff.mp (Expr.allHoleFree_ofShape position)
  refine Stmt.isHoleFree_store ((Expr.isHoleFree_var registers).trans hregisters) hposition ?_
  split
  · exact helement
  · rw [Expr.isHoleFree, helement]
    rfl

/-- The function that copies the tile of a task without holes has no holes. -/
theorem isHoleFree_function (htask : task.IsHoleFree) {b : Binding} (h : function task b = .ok f) : f.IsHoleFree := by
  obtain ⟨t, -, hresult⟩ := bind_eq_ok_iff.mp h
  cases hresult
  have hshared : (sharedTileType task b t).isHoleFree = true := isHoleFree_sharedTileType htask b
  have hregisters : (registerTileType t).isHoleFree = true := Ty.isHoleFree_ofShape rfl _ _
  have hloads : ∀ s ∈ (indices t.tile.localShape).map (load t ⟨"smem", sharedTileType task b t⟩ ⟨"regs", registerTileType t⟩),
      s.IsHoleFree := by
    intro s hs
    obtain ⟨position, -, rfl⟩ := List.mem_map.mp hs
    exact isHoleFree_load hshared hregisters position
  exact ⟨List.forall_mem_cons.mpr ⟨hshared, List.forall_mem_singleton.mpr hregisters⟩, nofun, rfl,
    Stmt.isHoleFree_letIn rfl rfl (Stmt.isHoleFree_block hloads)⟩

end WarpTransfer

/-! ## Dispatch -/

namespace Registry

variable {r : Registry} {task : Task} {m : Module}

theorem mem_of_select {chosen : Implementer × Binding} (h : r.select task = .ok chosen) :
    chosen.1 ∈ r.implementers := by
  obtain ⟨earlier, later, hsplit, -⟩ := exists_eq_append_of_select h
  rw [hsplit]
  exact List.mem_append_right _ List.mem_cons_self

/-- A registry that holds implementers of the library makes modules without holes from tasks that bind variables of
resolved types. -/
theorem isHoleFree_dispatch (hbuiltin : ∀ i ∈ r.implementers, i ∈ builtin.implementers)
    (hbound : AreResolved task.boundVars) (h : r.dispatch task = .ok m) : ∀ f ∈ m.functions, f.IsHoleFree := by
  obtain ⟨⟨⟩, hcheck, hrest⟩ := bind_eq_ok_iff.mp h
  have htask : task.IsHoleFree := Task.isHoleFree_of_checkResolved hcheck hbound
  obtain ⟨⟨implementer, b⟩, hselect, hrest⟩ := bind_eq_ok_iff.mp hrest
  obtain ⟨m', himplement, hresult⟩ := bind_eq_ok_iff.mp hrest
  obtain rfl : m' = m := by
    split at hresult
    · cases hresult
    · cases hresult
      rfl
  have hmember := hbuiltin _ (mem_of_select hselect)
  rw [builtin, List.mem_cons, List.mem_singleton] at hmember
  rcases hmember with rfl | rfl
  · obtain ⟨f, hkernel, hmodule⟩ := bind_eq_ok_iff.mp himplement
    cases hmodule
    exact List.forall_mem_singleton.mpr (GridKernel.isHoleFree_kernel htask hkernel)
  · obtain ⟨f, hfunction, hmodule⟩ := bind_eq_ok_iff.mp himplement
    cases hmodule
    exact List.forall_mem_singleton.mpr (WarpTransfer.isHoleFree_function htask hfunction)

theorem isHoleFree_dispatch_rowSums : (∀ i ∈ builtin.implementers, i ∈ builtin.implementers) ∧
    AreResolved rowSums.boundVars ∧ ∃ m, builtin.dispatch rowSums = .ok m ∧ ∀ f ∈ m.functions, f.IsHoleFree := by
  have hbound : AreResolved rowSums.boundVars :=
    List.forall_mem_cons.mpr ⟨rfl, List.forall_mem_singleton.mpr rfl⟩
  obtain ⟨f, hkernel, hname, hworker⟩ : ∃ f, GridKernel.kernel rowSums = .ok f ∧ f.name = rowSums.name ∧
      f.worker = rowSums.worker := ⟨_, rfl, rfl, rfl⟩
  have hdispatch := dispatch_builtin rfl rfl hkernel hname hworker
  exact ⟨fun i hi => hi, hbound, _, hdispatch, isHoleFree_dispatch (fun i hi => hi) hbound hdispatch⟩

/-- A task whose axis has an open type, and which uses the axis nowhere. -/
def openAxis : Task :=
  let computation : TensorCompute := ⟨"y", Expr.ofShape [4], [⟨"i", .scalar (.hole 0)⟩], .float 1.0⟩
  { name := "ones"
    computation
    params := [computation.toExpr]
    paramTypes := [.tensor (.ofShape .global .float32 [4])]
    worker := .grid (some 1) (some 4) }

/-- The registry accepts the task, and its kernel binds the axis under the open type. -/
theorem not_isHoleFree_dispatch_openAxis : ∃ m, builtin.dispatch openAxis = .ok m ∧
    ∃ f ∈ m.functions, ¬ f.IsHoleFree := by
  obtain ⟨f, hkernel, hname, hworker, hbody⟩ : ∃ f, GridKernel.kernel openAxis = .ok f ∧ f.name = openAxis.name ∧
      f.worker = openAxis.worker ∧ ∃ v number test coordinate store,
        f.body = .letIn v number (.ite test (.letIn ⟨"i", .scalar (.hole 0)⟩ coordinate store) none) :=
    ⟨_, rfl, rfl, rfl, _, _, _, _, _, rfl⟩
  refine ⟨_, dispatch_builtin rfl rfl hkernel hname hworker, f, List.mem_singleton_self f, fun hf => ?_⟩
  obtain ⟨v, number, test, coordinate, store, hbody⟩ := hbody
  have hlet := hf.body
  rw [hbody] at hlet
  have hite := (Stmt.isHoleFree_iff.mp hlet).2 _ (List.mem_singleton_self _)
  have haxis := (Stmt.isHoleFree_iff.mp hite).2 _ (List.mem_singleton_self _)
  exact absurd ((Stmt.isHoleFree_iff.mp haxis).1.1 _ (List.mem_singleton_self _)) Bool.false_ne_true

end Registry

end TensorCompiler
