import TensorCompiler.Codegen.Registry
import TensorCompiler.Proofs.Graph.WellFormed

/-! # Kernels of operators

A kernel has one parameter for each tensor that its operator reads or writes, under the name that the graph gives the
tensor and at its recorded type. Lowering goes through a definition from the leaves up, and what the value of an operator
is lowered to becomes the body of its kernel.
-/

namespace TensorCompiler

namespace CodegenM

variable {α β : Type}

theorem bind_eq {x : CodegenM α} {b b' : FunctionBuilder} {a : α} (h : x b = .ok (a, b')) (f : α → CodegenM β) :
    (x >>= f) b = f a b' := by
  change (x b >>= fun p => f p.1 p.2) = _
  rw [h]
  rfl

theorem lift_eq {x : Except Error α} {a : α} (h : x = .ok a) (b : FunctionBuilder) :
    (liftM x : CodegenM α) b = .ok (a, b) := by
  subst h
  rfl

end CodegenM

/-! ## Lowering -/

namespace Expr

variable {k : ElementKind} {reads : DType → String → List Int64 → Prop} {d : DType} {l : Level} {scope : List String}
  {e : Expr} {params : ParamMap}

/-! ### One node after the other -/

section

variable {b b' b'' b₁ b₂ : FunctionBuilder} {lhs rhs cond thenE elseE value : Expr}

theorem lower_unary (op : UnaryOp) {arg : Lowered Expr} (harg : e.lower params b = .ok (arg, b')) :
    (unary op e).lower params b = .ok (⟨arg.prelude, .unary op arg.value⟩, b') := by
  rw [Expr.lower, CodegenM.bind_eq harg]
  rfl

theorem lower_binary (op : BinaryOp) {l r : Lowered Expr} (hl : lhs.lower params b = .ok (l, b'))
    (hr : rhs.lower params b' = .ok (r, b'')) :
    (binary op lhs rhs).lower params b = .ok (⟨l.prelude ++ r.prelude, .binary op l.value r.value⟩, b'') := by
  rw [Expr.lower, CodegenM.bind_eq hl, CodegenM.bind_eq hr]
  rfl

theorem lower_ite {c t f : Lowered Expr} (hc : cond.lower params b = .ok (c, b'))
    (ht : thenE.lower params b' = .ok (t, b₁)) (hf : elseE.lower params b₁ = .ok (f, b'')) :
    (ite cond thenE elseE).lower params b =
      .ok (⟨c.prelude ++ t.prelude ++ f.prelude, .ite c.value t.value f.value⟩, b'') := by
  rw [Expr.lower, CodegenM.bind_eq hc, CodegenM.bind_eq ht, CodegenM.bind_eq hf]
  rfl

theorem lowerAll_nil (b : FunctionBuilder) : lowerAll params [] b = .ok (⟨[], []⟩, b) := by
  rw [lowerAll]
  rfl

theorem lowerAll_cons {es : List Expr} {first : Lowered Expr} {rest : Lowered (List Expr)}
    (hfirst : e.lower params b = .ok (first, b')) (hrest : lowerAll params es b' = .ok (rest, b'')) :
    lowerAll params (e :: es) b = .ok (⟨first.prelude ++ rest.prelude, first.value :: rest.value⟩, b'') := by
  rw [lowerAll, CodegenM.bind_eq hfirst, CodegenM.bind_eq hrest]
  rfl

theorem lower_call (func : String) {es : List Expr} {args : Lowered (List Expr)}
    (hargs : lowerAll params es b = .ok (args, b')) :
    (call func es).lower params b = .ok (⟨args.prelude, .call func args.value⟩, b') := by
  rw [Expr.lower, CodegenM.bind_eq hargs]
  rfl

/-- A reduction becomes a local variable that a loop in front of the value fills. -/
theorem lower_reduce {kind : ReduceKind} {shape : List Expr} {axes : List Var} {acc : Var} {combined : Lowered Expr}
    {divide : List Stmt} (hd : value.scalarDType = .ok d)
    (hacc : CodegenM.build (FunctionBuilder.declareLocal "acc" (.ofDType d)) b = .ok (acc, b₁))
    (hvalue : value.lower params b₁ = .ok (combined, b₂)) (hdivide : Reduction.divide kind d acc shape = .ok divide) :
    (reduce kind shape axes value).lower params b =
      .ok (⟨[Reduction.toStmt kind d acc shape axes combined divide], .var acc⟩, b₂) := by
  rw [Expr.lower, CodegenM.bind_eq (CodegenM.lift_eq hd b), CodegenM.bind_eq hacc, CodegenM.bind_eq hvalue,
    CodegenM.bind_eq (CodegenM.lift_eq hdivide b₂)]
  rfl

end

/-! ### Definitions -/

/-- Coordinates stay as they are. -/
theorem IsCoordinate.lower (h : IsCoordinate scope d e) (b : FunctionBuilder) :
    e.lower params b = .ok (⟨[], e⟩, b) := by
  induction h with
  | @var v => exact lower_var v b
  | const v d => exact lower_const v d b
  | binary op _ _ ihl ihr => exact lower_binary op ihl ihr

theorem lowerAll_of_isCoordinate {indices : List Expr} (h : ∀ i ∈ indices, IsCoordinate scope .int32 i) (b : FunctionBuilder) :
    lowerAll params indices b = .ok (⟨[], indices⟩, b) := by
  induction indices with
  | nil => exact lowerAll_nil b
  | cons i indices ih =>
    have hrest := ih fun j hj => h j (List.mem_cons_of_mem _ hj)
    exact lowerAll_cons ((h i List.mem_cons_self).lower b) hrest

/-- A read becomes a read of the parameter. -/
theorem lower_elementAt {name : String} {shape : List Int64} {indices : List Expr} {v : Var}
    (hname : params.lookup name = some v) (hindices : ∀ i ∈ indices, IsCoordinate scope .int32 i) (b : FunctionBuilder) :
    ((TensorInput.ofShape name d shape).elementAt indices).lower params b = .ok (⟨[], element (.var v) indices⟩, b) := by
  have hread : params.read (TensorInput.ofShape name d shape).name = .ok (.var v) := by
    change params.read name = _
    rw [ParamMap.read, hname]
  have hbase : (TensorInput.ofShape name d shape).toExpr.lower params b = .ok (⟨[], .var v⟩, b) := by
    rw [TensorInput.toExpr, Expr.lower, CodegenM.bind_eq (CodegenM.lift_eq hread b)]
    rfl
  rw [TensorInput.elementAt, Expr.lower, CodegenM.bind_eq hbase, CodegenM.bind_eq (lowerAll_of_isCoordinate hindices b)]
  rfl

theorem scalarDType_eq_ok (h : e.HasDType d) : e.scalarDType = .ok d := by
  rw [scalarDType, h]
  rfl

theorem exists_divide (kind : ReduceKind) (dtype : DType) (acc : Var) {shape : List Expr} {extents : List Int64}
    (hshape : constShape? shape = some extents) : ∃ stmts, Reduction.divide kind dtype acc shape = .ok stmts := by
  cases kind with
  | avg =>
    rw [Reduction.divide, averageCount, hshape]
    exact ⟨_, rfl⟩
  | sum | max | min => exact ⟨[], rfl⟩

end Expr

/-! ## Kernels -/

namespace ParamMap

/-- The parameter that a function has for a parameter of its task. -/
def paramVar (entry : Expr × Ty) : Var :=
  ⟨entry.1.nodeName?.getD "", entry.2⟩

/-- The parameters under their names, the last one in front. -/
def ofEntries (entries : List (Expr × Ty)) : ParamMap :=
  (entries.map fun entry => ((paramVar entry).name, paramVar entry)).reverse

/-- Declaring named parameters appends them and takes their names. -/
theorem exists_declare (task : Task) (hnames : ∀ entry ∈ task.params.zip task.paramTypes, entry.1.nodeName?.isSome)
    (b : FunctionBuilder) :
    ∃ b', declare task b = .ok (ofEntries (task.params.zip task.paramTypes), b') ∧
      b'.function = { b.function with
        params := b.function.params ++ (task.params.zip task.paramTypes).map paramVar } ∧
      b'.taken = ((task.params.zip task.paramTypes).map fun entry => (paramVar entry).name).reverse ++ b.taken := by
  rw [declare]
  generalize task.params.zip task.paramTypes = entries at hnames
  rw [ofEntries, ← List.append_nil (List.reverse _)]
  generalize ([] : ParamMap) = params
  induction entries generalizing params b with
  | nil => exact ⟨b, rfl, by simp, rfl⟩
  | cons entry entries ih =>
    obtain ⟨param, ty⟩ := entry
    obtain ⟨name, hname⟩ := Option.isSome_iff_exists.mp (hnames _ List.mem_cons_self)
    have hvar : (⟨name, ty⟩ : Var) = paramVar (param, ty) := by rw [paramVar, hname, Option.getD_some]
    let extended : FunctionBuilder :=
      ⟨{ b.function with params := b.function.params ++ [⟨name, ty⟩] }, name :: b.taken⟩
    obtain ⟨b', hrest, hfunction, htaken⟩ := ih extended (fun entry hentry => hnames entry (List.mem_cons_of_mem _ hentry))
      ((name, paramVar (param, ty)) :: params)
    have hfound : CodegenM.ofOption (.invalidOperand (.unnamedParameter param task.name)) param.nodeName? b =
        .ok (name, b) := by
      rw [hname]
      rfl
    refine ⟨b', ?_, ?_, ?_⟩
    · rw [List.foldlM_cons]
      change ((CodegenM.ofOption _ param.nodeName? >>= _) >>= _) b = _
      have hstep : (CodegenM.ofOption (.invalidOperand (.unnamedParameter param task.name)) param.nodeName? >>=
          fun name => CodegenM.build (FunctionBuilder.extendParams [⟨name, ty⟩]) >>= fun _ =>
            pure ((name, ⟨name, ty⟩) :: params)) b = .ok ((name, paramVar (param, ty)) :: params, extended) := by
        rw [CodegenM.bind_eq hfound, ← hvar]
        rfl
      rw [CodegenM.bind_eq hstep, hrest]
      simp [← hvar]
    · rw [hfunction]
      simp [extended, hvar]
    · rw [htaken]
      simp [extended, ← hvar]

/-- A declared name stands for a parameter of that name. -/
theorem lookup_ofEntries {entries : List (Expr × Ty)} {entry : Expr × Ty} (h : entry ∈ entries) :
    ∃ found ∈ entries, (paramVar found).name = (paramVar entry).name ∧
      (ofEntries entries).lookup (paramVar entry).name = some (paramVar found) := by
  have hmem : ((paramVar entry).name, paramVar entry) ∈ ofEntries entries :=
    List.mem_reverse.mpr (List.mem_map_of_mem h)
  cases hlookup : (ofEntries entries).lookup (paramVar entry).name with
  | none =>
    have hne := List.lookup_eq_none_iff.mp hlookup _ hmem
    simp at hne
  | some v =>
    obtain ⟨before, after, heq, -⟩ := List.lookup_eq_some_iff.mp hlookup
    have hmem' : ((paramVar entry).name, v) ∈ ofEntries entries := by simp [heq]
    obtain ⟨found, hfound, hpair⟩ := List.mem_map.mp (List.mem_reverse.mp hmem')
    obtain ⟨hname, rfl⟩ := Prod.mk.injEq .. ▸ hpair
    exact ⟨found, hfound, hname, rfl⟩

/-- Whether the tensors that may be read are parameters. -/
def Covers (params : ParamMap) (reads : DType → String → List Int64 → Prop) : Prop :=
  ∀ d name shape, reads d name shape → params.lookup name = some ⟨name, (TensorInput.ofShape name d shape).globalType⟩

end ParamMap

namespace GridKernel

/-- The kernel of a task, from the steps that lead to it. -/
theorem kernel_eq_ok (task : Task) {shape : List Int64} {params : ParamMap} {b₁ b₂ b₃ : FunctionBuilder} {out thread : Var}
    {lowered : Lowered Expr} (hshape : task.computation.constShape? = some shape)
    (hdeclare : ParamMap.declare task
      ⟨{ name := task.name, worker := task.worker, label := some key }, []⟩ = .ok (params, b₁))
    (hout : params.lookup task.computation.name = some out)
    (hthread : CodegenM.build (FunctionBuilder.freshVar "tid" (.ofDType .int32)) b₁ = .ok (thread, b₂))
    (hlower : task.computation.value.lower params b₂ = .ok (lowered, b₃)) :
    kernel task = .ok { b₃.function with body := body task.worker task.computation shape out thread lowered } := by
  have hlabel : CodegenM.build (FunctionBuilder.setLabel key) (.new task.name task.worker) =
      .ok ((), ⟨{ name := task.name, worker := task.worker, label := some key }, []⟩) := rfl
  have hfound : CodegenM.ofOption (.codegen key (.unboundOutput task.name)) (params.lookup task.computation.name) b₁ =
      .ok (out, b₁) := by
    rw [hout]
    rfl
  have hemit : emit task shape (.new task.name task.worker) =
      .ok ((), { b₃ with
        function := { b₃.function with body := body task.worker task.computation shape out thread lowered } }) := by
    rw [emit, CodegenM.bind_eq hlabel, CodegenM.bind_eq hdeclare, CodegenM.bind_eq hfound, CodegenM.bind_eq hthread,
      CodegenM.bind_eq hlower]
    rfl
  rw [kernel, hshape]
  change (emit task shape (.new task.name task.worker) >>= _) = _
  rw [hemit]
  rfl

end GridKernel

namespace Operator.Computes

variable {k : ElementKind} {T : TensorTable} {op : Operator} {d : DType} {shape : List Int64}

/-- The parameters of the task of an operator: its inputs and its output, each under the name of the tensor. -/
theorem params_eq (h : op.Computes k T d shape) :
    ∃ args : List TensorInput,
      List.Forall₂ (fun id arg => ∃ d shape, T.type? id = some (d, shape) ∧ arg = .ofShape id.name d shape) op.inputs args ∧
      op.task.params = args.map TensorInput.toExpr ++ [op.computation.toExpr] ∧
      op.task.paramTypes = args.map TensorInput.globalType ++
        [.tensor ⟨.known .global, .known d, some op.computation.shape, none⟩] := by
  obtain ⟨args, hargs, htask⟩ := h.task_eq
  obtain ⟨d', hd', htask⟩ := Task.ofCompute_eq_ok_iff.mp htask
  cases h.defines.value.hasDType.symm.trans hd'
  exact ⟨args, hargs, congrArg Task.params htask, congrArg Task.paramTypes htask⟩

/-- A parameter of the task with its type. -/
theorem mem_zip_params (h : op.Computes k T d shape) {entry : Expr × Ty}
    (hentry : entry ∈ op.task.params.zip op.task.paramTypes) :
    (∃ id ∈ op.inputs, ∃ d' shape', T.type? id = some (d', shape') ∧
      entry = ((TensorInput.ofShape id.name d' shape').toExpr, (TensorInput.ofShape id.name d' shape').globalType)) ∨
      entry = (op.computation.toExpr, .tensor ⟨.known .global, .known d, some op.computation.shape, none⟩) := by
  obtain ⟨args, hargs, hparams, htypes⟩ := h.params_eq
  rw [hparams, htypes, List.zip_append (by simp), List.zip_map', List.mem_append] at hentry
  rcases hentry with hentry | hentry
  · left
    obtain ⟨arg, harg, rfl⟩ := List.mem_map.mp hentry
    obtain ⟨id, hid, d', shape', htype, rfl⟩ := exists_mem_of_forall₂ hargs.flip harg
    exact ⟨id, hid, d', shape', htype, rfl⟩
  · exact Or.inr (List.mem_singleton.mp hentry)

theorem isSome_nodeName? (h : op.Computes k T d shape) :
    ∀ entry ∈ op.task.params.zip op.task.paramTypes, entry.1.nodeName?.isSome := by
  intro entry hentry
  rcases h.mem_zip_params hentry with ⟨id, -, d', shape', -, rfl⟩ | rfl
  · rfl
  · rfl

/-- The inputs and the output are parameters. -/
theorem exists_param (h : op.Computes k T d shape) {id : TensorId} (hid : id ∈ op.inputs ∨ id = op.output) :
    ∃ entry ∈ op.task.params.zip op.task.paramTypes, (ParamMap.paramVar entry).name = id.name := by
  obtain ⟨args, hargs, hparams, htypes⟩ := h.params_eq
  rw [hparams, htypes, List.zip_append (by simp), List.zip_map']
  rcases hid with hid | rfl
  · obtain ⟨arg, harg, d', shape', -, rfl⟩ := exists_mem_of_forall₂ hargs hid
    exact ⟨_, List.mem_append_left _ (List.mem_map_of_mem harg), rfl⟩
  · exact ⟨_, List.mem_append_right _ (List.mem_singleton_self _), h.name_eq⟩

/-- The parameters of a kernel are its tensors, at their recorded types. -/
theorem exists_paramVar_eq (h : op.Computes k T d shape) {entry : Expr × Ty}
    (hentry : entry ∈ op.task.params.zip op.task.paramTypes) :
    ∃ id ∈ op.output :: op.inputs, ∃ d' shape', T.type? id = some (d', shape') ∧
      ParamMap.paramVar entry = ⟨id.name, (TensorInput.ofShape id.name d' shape').globalType⟩ := by
  rcases h.mem_zip_params hentry with ⟨id, hid, d', shape', htype, rfl⟩ | rfl
  · exact ⟨id, List.mem_cons_of_mem _ hid, d', shape', htype, rfl⟩
  · refine ⟨op.output, List.mem_cons_self, d, shape, h.recorded, ?_⟩
    change Var.mk op.computation.name (.tensor ⟨.known .global, .known d, some op.computation.shape, none⟩) = _
    rw [h.name_eq, h.defines.shape_eq]
    rfl

/-- Only one parameter bears the name of a tensor. -/
theorem paramVar_eq (h : op.Computes k T d shape) {entry : Expr × Ty} {id : TensorId} {d' : DType} {shape' : List Int64}
    (hentry : entry ∈ op.task.params.zip op.task.paramTypes) (hname : (ParamMap.paramVar entry).name = id.name)
    (htype : T.type? id = some (d', shape')) :
    ParamMap.paramVar entry = ⟨id.name, (TensorInput.ofShape id.name d' shape').globalType⟩ := by
  obtain ⟨id', -, d'', shape'', htype', heq⟩ := h.exists_paramVar_eq hentry
  rw [heq] at hname ⊢
  obtain rfl : id' = id := TensorId.name_injective hname
  cases htype.symm.trans htype'
  rfl

/-- The tensors that an operator reads and writes are parameters of its kernel. -/
theorem covers_reads (h : op.Computes k T d shape) :
    ParamMap.Covers (ParamMap.ofEntries (op.task.params.zip op.task.paramTypes)) (T.Reads (op.output :: op.inputs)) := by
  rintro d' _ shape' ⟨id, hid, rfl, htype⟩
  obtain ⟨entry, hentry, hname⟩ := h.exists_param (List.mem_cons.mp hid).symm
  obtain ⟨found, hfound, hname', hlookup⟩ := ParamMap.lookup_ofEntries hentry
  rw [hname] at hlookup hname'
  rw [hlookup, h.paramVar_eq hfound hname' htype]

/-- What the value of an operator is lowered to becomes its kernel. The function under construction has the parameters of
the task and no local variables by then, and a variable for the number of the thread. -/
theorem exists_kernel_of_lower (h : op.Computes k T d shape) (worker : Worker) :
    ∃ thread taken b, thread = ⟨freshName taken "tid", .ofDType .int32⟩ ∧ b.taken = thread.name :: taken ∧
      b.function = { name := op.task.name, worker, label := some GridKernel.key,
                     params := (op.task.params.zip op.task.paramTypes).map ParamMap.paramVar } ∧
      ∀ lowered b', op.computation.value.lower (ParamMap.ofEntries (op.task.params.zip op.task.paramTypes)) b =
          .ok (lowered, b') →
        GridKernel.kernel { op.task with worker := worker } = .ok { b'.function with
          body := GridKernel.body worker op.computation shape
            ⟨op.output.name, (TensorInput.ofShape op.output.name d shape).globalType⟩ thread lowered } := by
  let task : Task := { op.task with worker := worker }
  obtain ⟨b, hdeclare, hfunction, -⟩ := ParamMap.exists_declare task h.isSome_nodeName?
    ⟨{ name := task.name, worker := task.worker, label := some GridKernel.key }, []⟩
  have hout : (ParamMap.ofEntries (task.params.zip task.paramTypes)).lookup task.computation.name =
      some ⟨op.output.name, (TensorInput.ofShape op.output.name d shape).globalType⟩ := by
    rw [show task.computation.name = op.output.name from h.name_eq]
    exact h.covers_reads d op.output.name shape ⟨op.output, List.mem_cons_self, rfl, h.recorded⟩
  refine ⟨_, b.taken, ⟨b.function, freshName b.taken "tid" :: b.taken⟩, rfl, rfl, hfunction, fun lowered b' hlower => ?_⟩
  exact GridKernel.kernel_eq_ok task h.defines.constShape?_eq hdeclare hout rfl hlower

end Operator.Computes

end TensorCompiler
