import TensorCompiler.Proofs.Graph.Inline
import TensorCompiler.Proofs.Graph.Order
import TensorCompiler.Proofs.Graph.Table

/-! # Well-formed graphs

The operators of a graph compute what the graph records of their outputs, by definitions that read their inputs under
the types that the graph records of these. This depends on the recorded types only, so passes that edit the table
without changing a type keep it.
-/

namespace TensorCompiler

/-- Where the values of an operator of a class stand. -/
def FusionClass.level : FusionClass → Level
  | unary | elementwise => .elementwise
  | anchor => .anchor

/-- What a definition may read: the tensors `ids` under their recorded types. -/
def TensorTable.Reads (T : TensorTable) (ids : List TensorId) (d : DType) (name : String) (shape : List Int64) : Prop :=
  ∃ id ∈ ids, name = id.name ∧ T.type? id = some (d, shape)

theorem TensorTable.Reads.cons {T : TensorTable} {ids : List TensorId} {d : DType} {name : String} {shape : List Int64}
    (h : T.Reads ids d name shape) (id : TensorId) : T.Reads (id :: ids) d name shape := by
  obtain ⟨id', hid', hread⟩ := h
  exact ⟨id', List.mem_cons_of_mem id hid', hread⟩

/-- A definition of a tensor of the given type that reads the given tensors, all of them and no others. -/
structure TensorCompute.Defines (k : ElementKind) (T : TensorTable) (ids : List TensorId) (l : Level) (d : DType)
    (shape : List Int64) (c : TensorCompute) : Prop where
  kind : k.hasDType d
  shape_eq : c.shape = Expr.ofShape shape
  rank : c.axes.length = shape.length
  axes : ∀ v ∈ c.axes, IsResultAxis v.name
  types : ∀ v ∈ c.axes, v.ty = .ofDType .int32
  nodup : (c.axes.map Var.name).Nodup
  value : Expr.IsElement k (T.Reads ids) d l (c.axes.map Var.name) c.value
  reads : ∀ id ∈ ids, c.value.ReadsName id.name

/-- An operator that computes a tensor of the given type as the graph has it. -/
structure Operator.Computes (k : ElementKind) (T : TensorTable) (op : Operator) (d : DType) (shape : List Int64) :
    Prop where
  recorded : T.type? op.output = some (d, shape)
  name_eq : op.computation.name = op.output.name
  defines : op.computation.Defines k T op.inputs op.fusionClass.level d shape
  task_name : op.task.name = op.kind.label ++ "_" ++ op.output.name
  worker_eq : op.task.worker = Worker.launch (numElements shape) Worker.defaultBlockSize
  task_eq : ∃ args : List TensorInput,
    List.Forall₂ (fun id arg => ∃ d shape, T.type? id = some (d, shape) ∧ arg = .ofShape id.name d shape)
      op.inputs args ∧
    Task.ofCompute op.task.name args op.computation op.task.worker = .ok op.task

variable {k : ElementKind} {T T' : TensorTable} {ids : List TensorId} {l : Level} {d : DType} {shape : List Int64}
  {c : TensorCompute} {op : Operator}

namespace TensorCompute.Defines

theorem constShape?_eq (h : c.Defines k T ids l d shape) : c.constShape? = some shape := by
  rw [constShape?, h.shape_eq, Expr.constShape?_ofShape]

/-- Only the types of the tensors that a definition reads count. -/
theorem congr (h : c.Defines k T ids l d shape) (htypes : ∀ id ∈ ids, T'.type? id = T.type? id) :
    c.Defines k T' ids l d shape := by
  refine ⟨h.kind, h.shape_eq, h.rank, h.axes, h.types, h.nodup, h.value.mono ?_, h.reads⟩
  rintro d name shape ⟨id, hid, hname, htype⟩
  exact ⟨id, hid, hname, (htypes id hid).trans htype⟩

/-- A definition gives the same array where the tensors that it reads have the same values. -/
theorem evaluate_mono [FloatOps] {tensors tensors' : Tensors} {a : NDArray} (h : c.Defines k T ids l d shape)
    (htensors : ∀ id ∈ ids, ∀ b, tensors.lookup id.name = some b → tensors'.lookup id.name = some b)
    (heval : c.evaluate tensors = .ok a) : c.evaluate tensors' = .ok a := by
  obtain ⟨shape', vs, hshape, hextents, hvs, ha⟩ := TensorCompute.evaluate_eq_ok_iff.mp heval
  refine TensorCompute.evaluate_eq_ok_iff.mpr ⟨shape', vs, hshape, hextents, hvs.imp fun point v hv => ?_, ha⟩
  refine h.value.eval_mono ?_ hv
  rintro _ name _ ⟨id, hid, rfl, -⟩
  exact htensors id hid

end TensorCompute.Defines

namespace Operator.Computes

/-- Every input of an operator is recorded. -/
theorem exists_type_of_mem_inputs (h : op.Computes k T d shape) {id : TensorId} (hid : id ∈ op.inputs) :
    ∃ d' shape', T.type? id = some (d', shape') := by
  obtain ⟨args, hargs, -⟩ := h.task_eq
  obtain ⟨-, -, d', shape', htype, -⟩ := exists_mem_of_forall₂ hargs hid
  exact ⟨d', shape', htype⟩

/-- Only the types of the tensors that an operator reads and computes count. -/
theorem congr (h : op.Computes k T d shape) (hinputs : ∀ id ∈ op.inputs, T'.type? id = T.type? id)
    (houtput : T'.type? op.output = T.type? op.output) : op.Computes k T' d shape := by
  obtain ⟨args, hargs, htask⟩ := h.task_eq
  refine ⟨houtput.trans h.recorded, h.name_eq, h.defines.congr hinputs, h.task_name, h.worker_eq,
    args, ?_, htask⟩
  refine forall₂_imp_of_mem hargs fun id hid arg harg => ?_
  rwa [hinputs id hid]

end Operator.Computes

namespace Graph

variable {g g' : Graph} {kind : OpKind} {output : TensorId}

/-- Whether every operator computes what the graph records of its output. -/
def Computed (k : ElementKind) (g : Graph) : Prop :=
  ∀ op ∈ g.nodes, ∃ d shape, op.Computes k g.tensors d shape

/-- An operator made from a definition computes the tensor that is recorded for it. -/
theorem computes_of_operator (hc : c.Defines k g.tensors ids kind.fusionClass.level d shape)
    (hkept : ∀ id ∈ ids, id = output → g.tensors.type? id = some (d, shape))
    (h : g.operator kind ids output c = .ok (op, g')) :
    op.kind = kind ∧ op.inputs = ids ∧ op.output = output ∧ op.computation = { c with name := output.name } ∧
      g' = { g with tensors := g.tensors.insert output ⟨d, shape, .operator⟩ } ∧ op.Computes k g'.tensors d shape := by
  obtain ⟨d', shape', args, task, hshape, hd, hargs, htask, rfl, rfl⟩ := operator_eq_ok_iff.mp h
  cases hc.constShape?_eq.symm.trans hshape
  cases hc.value.hasDType.symm.trans hd
  have htypes : ∀ id ∈ ids, TensorTable.type? (g.tensors.insert output ⟨d, shape, .operator⟩) id = g.tensors.type? id := by
    intro id hid
    rw [TensorTable.type?, TensorTable.lookup_insert]
    split_ifs with hsame
    · exact (hkept id hid hsame).symm
    · rfl
  have hrecorded : TensorTable.type? (g.tensors.insert output ⟨d, shape, .operator⟩) output = some (d, shape) := by
    rw [TensorTable.type?, TensorTable.lookup_insert, if_pos rfl]
    rfl
  obtain ⟨d', -, htask'⟩ := Task.ofCompute_eq_ok_iff.mp htask
  have hcomputation : task.computation = { c with name := output.name } := by rw [htask']
  have hname : task.name = kind.label ++ "_" ++ output.name := by rw [htask']
  have hworker : task.worker = Worker.launch (numElements shape) Worker.defaultBlockSize := by rw [htask']
  refine ⟨rfl, rfl, rfl, hcomputation, rfl, hrecorded, ?_, ?_, hname, hworker, args, ?_, ?_⟩
  · rw [Operator.computation, hcomputation]
  · rw [Operator.computation, hcomputation]
    exact TensorCompute.Defines.congr ⟨hc.kind, hc.shape_eq, hc.rank, hc.axes, hc.types, hc.nodup, hc.value, hc.reads⟩ htypes
  · refine forall₂_imp_of_mem hargs fun id hid arg harg => ?_
    rw [htypes id hid]
    exact tensorInput_eq_ok_iff.mp harg
  · rw [Operator.computation, hcomputation, hname, hworker]
    exact htask

/-- A definition that reads recorded tensors makes an operator. -/
theorem exists_operator (hc : c.Defines k g.tensors ids kind.fusionClass.level d shape)
    (hids : ∀ id ∈ ids, ∃ d' shape', g.tensors.type? id = some (d', shape')) (output : TensorId) :
    ∃ op g', g.operator kind ids output c = .ok (op, g') := by
  obtain ⟨args, hargs⟩ : ∃ args, List.Forall₂ (fun id arg => g.tensorInput id = .ok arg) ids args := by
    refine exists_forall₂ fun id hid => ?_
    obtain ⟨d', shape', htype⟩ := hids id hid
    exact ⟨_, tensorInput_eq_ok_iff.mpr ⟨d', shape', htype, rfl⟩⟩
  have hd : Expr.HasDType { c with name := output.name }.value d := hc.value.hasDType
  obtain ⟨task, htask⟩ : ∃ task, Task.ofCompute (kind.label ++ "_" ++ output.name) args { c with name := output.name }
      (Worker.launch (numElements shape) Worker.defaultBlockSize) = .ok task :=
    ⟨_, Task.ofCompute_eq_ok_iff.mpr ⟨d, hd, rfl⟩⟩
  exact ⟨_, _, operator_eq_ok_iff.mpr
    ⟨d, shape, args, task, hc.constShape?_eq, hc.value.hasDType, hargs, htask, rfl, rfl⟩⟩

/-! ## Sources -/

/-- Whether a tensor is recorded with a value that no operator computes. -/
def IsSource (g : Graph) (id : TensorId) : Prop :=
  ∃ info, g.tensors.lookup id = some info ∧ info.source ≠ .operator

/-- A graph whose operators compute what it records and stand in order. -/
structure WellFormed (k : ElementKind) (g : Graph) : Prop where
  sorted : g.tensors.Sorted
  ordered : Ordered g.IsSource g.nodes
  computed : g.Computed k

/-- What an operator of a well-formed graph computes is recorded as computed. -/
theorem WellFormed.lookup_output (h : g.WellFormed k) (hop : op ∈ g.nodes) (hcomputes : op.Computes k g.tensors d shape) :
    g.tensors.lookup op.output = some ⟨d, shape, .operator⟩ := by
  obtain ⟨source, hlookup⟩ := TensorTable.type?_eq_some_iff.mp hcomputes.recorded
  have hsource : source = .operator := by
    by_contra hne
    exact h.ordered.not_known_output hop ⟨_, hlookup, hne⟩
  rw [hlookup, hsource]

end Graph

end TensorCompiler
