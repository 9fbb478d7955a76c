import TensorCompiler.Proofs.Graph.Build
import TensorCompiler.Proofs.Graph.Optimize

/-! # The edges of a graph

A graph says three times what an operator reads: in the list of its inputs, by the names in its definition, and by the
parameters of its task. Whatever steps, edits and passes lead to a graph, in any order, the three agree, and they agree
with the types that the graph records.
-/

namespace TensorCompiler

namespace Graph

variable {k : ElementKind} {g g' : Graph}

/-! ## Edits keep a graph linked -/

namespace Linked

/-- A tensor of known type recorded once more, and operators of a linked graph that compute what it records. -/
theorem of_insert (h : g.Linked k) {id : TensorId} {info : TensorInfo}
    (htype : g.tensors.type? id = some (info.dtype, info.shape))
    (hcomputed : g'.Computed k) (hnodup : (outputsOf g'.nodes).Nodup) (htensors : g'.tensors = g.tensors.insert id info)
    (hnextId : g'.nextId = g.nextId) : g'.Linked k := by
  refine ⟨hcomputed, hnodup, htensors ▸ forall_lookup_insert ?_ fun x i hx => ?_⟩
  · obtain ⟨source, hlookup⟩ := TensorTable.type?_eq_some_iff.mp htype
    exact hnextId ▸ h.below id _ hlookup
  · exact hnextId ▸ h.below x i hx

theorem setConstant (h : g.Linked k) {id : TensorId} {value : NDArray} (hset : g.setConstant id value = .ok g') :
    g'.Linked k := by
  have hcomputed := h.computed.setConstant hset
  obtain ⟨info, hinfo, rfl⟩ := setConstant_eq_ok_iff.mp hset
  have hkept : (outputsOf (g.removeProducer id).nodes).Nodup ∧ (g.removeProducer id).nextId = g.nextId := by
    rw [removeProducer]
    split
    · exact ⟨h.nodup.sublist ((List.eraseIdx_sublist _ _).map _), rfl⟩
    · exact ⟨h.nodup, rfl⟩
  have htype : g.tensors.type? id = some (info.dtype, info.shape) := TensorTable.type?_of_lookup hinfo
  let constant : TensorInfo := { info with source := .constant value }
  have hconstant : g.tensors.type? id = some (constant.dtype, constant.shape) := htype
  exact h.of_insert hconstant hcomputed hkept.1 rfl hkept.2

theorem replaceInput (h : g.Linked k) {index : Nat} {old new : TensorId}
    (hreplace : g.replaceInput index old new = .ok g') : g'.Linked k := by
  have hcomputed := h.computed.replaceInput hreplace
  rcases replaceInput_cases hreplace with rfl | ⟨op, _, _, hop, hold, hnew⟩
  · exact h
  obtain ⟨rebuilt, d, shape, hrecorded, houtput, -, -, -, hreplace'⟩ := exists_replaceInput h.computed hop hold hnew
  cases hreplace'.symm.trans hreplace
  refine h.of_insert hrecorded hcomputed ?_ rfl rfl
  change (outputsOf (g.nodes.set index rebuilt)).Nodup
  rw [outputsOf_set hop houtput]
  exact h.nodup

theorem fuse (h : g.Linked k) {pair : FusionPair} {producer consumer : Operator}
    (hmergeable : g.Mergeable pair producer consumer) (hfuse : g.fuse pair = .ok g') : g'.Linked k := by
  have hcomputed := h.computed.fuse hmergeable hfuse
  obtain ⟨merged, d, shape, hconsumer, hmerged, -, hfuse'⟩ := exists_fuse h.computed hmergeable
  cases hfuse'.symm.trans hfuse
  refine h.of_insert hconsumer.recorded hcomputed ?_ rfl rfl
  refine List.Nodup.sublist ((List.eraseIdx_sublist _ _).map _) ?_
  rw [← outputsOf, outputsOf_set hmergeable.consumer_at hmerged.output]
  exact h.nodup

theorem normalize (h : g.Linked k) (hnormal : g.normalize = .ok g') : g'.Linked k := by
  have hcomputed := h.computed.normalize hnormal
  obtain ⟨live, hlive, rfl⟩ := normalize_eq_ok_iff.mp hnormal
  refine ⟨hcomputed, (ordered_liveNodes h.nodup hlive).nodup_outputsOf, fun id info hlookup => ?_⟩
  rw [TensorTable.lookup_filter g.tensors fun id => mentions { g with nodes := live } id] at hlookup
  split_ifs at hlookup
  exact h.below id info hlookup

end Linked

theorem keptByEdits_linked : KeptByEdits (Linked k) where
  setConstant h := h.setConstant
  replaceInput h := h.replaceInput
  fuse h := h.fuse
  normalize h := h.normalize

/-! ## Reachable graphs -/

/-- The graphs that steps, edits and passes lead to from the empty graph, in any order. Steps may be refused. -/
inductive Reachable [FloatOps] : Graph → Prop
  | empty : Reachable {}
  | step {g : Graph} (h : Reachable g) (step : BuildStep) : Reachable (step.apply g)
  | replaceInput {g g' : Graph} (h : Reachable g) (index : Nat) (old new : TensorId)
      (hreplace : g.replaceInput index old new = .ok g') : Reachable g'
  | normalize {g g' : Graph} (h : Reachable g) (hnormal : g.normalize = .ok g') : Reachable g'
  | pass {g g' : Graph} (h : Reachable g) (pass : GraphPass) (hrun : pass.run g = .ok g') : Reachable g'

theorem reachable_build [FloatOps] (steps : List BuildStep) : Reachable (build steps) :=
  build_keeps .empty (fun _ step h => h.step step) steps

theorem Reachable.linked [FloatOps] (h : Reachable g) : g.Linked .mixed := by
  induction h with
  | empty => exact .empty
  | @step g _ step ih =>
    exact ih.outcome (BuildStep.outcome_apply (BuildStep.typed_mixed g) rfl) fun _ _ _ _ _ _ _ _ _ => rfl
  | replaceInput _ index old new hreplace ih => exact ih.replaceInput hreplace
  | normalize _ hnormal ih => exact ih.normalize hnormal
  | pass _ pass hrun ih => exact keptByEdits_linked.runPass ih hrun

end Graph

/-! ## What the graph says of an operator -/

/-- What a graph says of an operator in its list of inputs, its definition, its task and its table, without contradiction. -/
structure Operator.Agrees (g : Graph) (op : Operator) : Prop where
  /-- The definition reads the inputs, all of them and nothing else. -/
  inputNames : ∀ name, name ∈ op.computation.inputNames ↔ ∃ id ∈ op.inputs, name = id.name
  /-- Every tensor in the value has the type that is recorded for it. -/
  typed : ∀ name dtype shape, Expr.tensorInput name dtype shape ∈ op.computation.value.preorder →
    ∃ id info, name = id.name ∧ g.tensor id = .ok info ∧ dtype = .known info.dtype ∧
      shape = some (Expr.ofShape info.shape)
  name : op.computation.name = op.output.name
  /-- The task takes the inputs in their order, then the definition. -/
  params : ∃ args, op.inputs.mapM g.tensorInput = .ok args ∧
    op.task.params = args.map TensorInput.toExpr ++ [op.computation.toExpr]
  paramTypes : List.Forall₂ (fun param ty => param.inferType = .ok ty) op.task.params op.task.paramTypes
  /-- The output is recorded under the type of the definition. -/
  output : ∃ info, g.tensor op.output = .ok info ∧ op.computation.constShape? = some info.shape ∧
    op.computation.elementType = .ok info.dtype

namespace Expr

variable {k : ElementKind} {reads : DType → String → List Int64 → Prop} {d : DType} {l : Level} {scope : List String}
  {e : Expr}

/-- Every tensor in a value is one that it may read. -/
theorem IsElement.reads_of_mem_preorder (h : IsElement k reads d l scope e) {name : String} {dtype : ScalarType}
    {shape : Option (List Expr)} (hmem : tensorInput name dtype shape ∈ e.preorder) :
    ∃ d shape', reads d name shape' ∧ dtype = .known d ∧ shape = some (ofShape shape') := by
  have hcoordinate {scope : List String} {d : DType} {c : Expr} (hc : IsCoordinate scope d c) :
      tensorInput name dtype shape ∉ c.preorder := fun hmem => hc.not_readsName name ⟨_, _, hmem⟩
  have hshape {shape' : List Int64} {i : Expr} (hi : i ∈ ofShape shape') :
      tensorInput name dtype shape ∉ i.preorder := fun hmem => not_readsName_of_mem_ofShape hi name ⟨_, _, hmem⟩
  induction h with
  | @read d l scope name' shape' indices hreads hlength hindices =>
    obtain ⟨c, hc, hmem⟩ := exists_child_of_mem_preorder hmem (by simp [TensorInput.elementAt])
    rcases List.mem_cons.mp hc with rfl | hc
    · by_cases heq : tensorInput name dtype shape = (TensorInput.ofShape name' d shape').toExpr
      · cases heq
        exact ⟨d, shape', hreads, rfl, rfl⟩
      · obtain ⟨i, hi, hmem⟩ := exists_child_of_mem_preorder hmem heq
        exact absurd hmem (hshape hi)
    · exact absurd hmem (hcoordinate (hindices c hc))
  | const => cases List.mem_singleton.mp hmem
  | neg _ ih | call _ _ ih =>
    obtain ⟨c, hc, hchild⟩ := exists_child_of_mem_preorder hmem (by simp)
    exact ih (List.mem_singleton.mp hc ▸ hchild)
  | binary _ _ _ _ ihl ihr | callPair _ _ _ _ ihl ihr =>
    obtain ⟨c, hc, hchild⟩ := exists_child_of_mem_preorder hmem (by simp)
    rcases List.mem_pair.mp hc with rfl | rfl
    · exact ihl hchild
    · exact ihr hchild
  | ite hcond _ _ iht ihe =>
    obtain ⟨c, hc, hchild⟩ := exists_child_of_mem_preorder hmem (by simp)
    rcases List.mem_cons.mp hc with rfl | hc
    · exact absurd hchild (hcoordinate hcond)
    · rcases List.mem_pair.mp hc with rfl | rfl
      · exact iht hchild
      · exact ihe hchild
  | reduce _ _ _ _ _ _ ih =>
    obtain ⟨c, hc, hchild⟩ := exists_child_of_mem_preorder hmem (by simp)
    rcases List.mem_append.mp hc with hc | hc
    · exact absurd hchild (hshape hc)
    · exact ih (List.mem_singleton.mp hc ▸ hchild)

end Expr

/-- An operator that computes what a graph records agrees with the graph. -/
theorem Operator.Computes.agrees {k : ElementKind} {g : Graph} {op : Operator} {d : DType} {shape : List Int64}
    (h : op.Computes k g.tensors d shape) : op.Agrees g := by
  have hc := h.defines
  obtain ⟨args, hargs, htask⟩ := h.task_eq
  obtain ⟨d', hd', htask⟩ := Task.ofCompute_eq_ok_iff.mp htask
  cases hc.value.hasDType.symm.trans hd'
  have hparams : op.task.params = args.map TensorInput.toExpr ++ [op.computation.toExpr] :=
    congrArg Task.params htask
  have htypes : op.task.paramTypes =
      args.map TensorInput.globalType ++ [.tensor ⟨.known .global, .known d, some op.computation.shape, none⟩] :=
    congrArg Task.paramTypes htask
  refine ⟨fun name => ?_, fun name dtype shape hmem => ?_, h.name_eq, ⟨args, ?_, hparams⟩, ?_, ?_⟩
  · rw [TensorCompute.mem_inputNames]
    constructor
    · rintro ⟨dtype, shape, hmem⟩
      obtain ⟨d, shape', ⟨id, hid, hname, -⟩, -, -⟩ := hc.value.reads_of_mem_preorder hmem
      exact ⟨id, hid, hname⟩
    · rintro ⟨id, hid, rfl⟩
      exact hc.reads id hid
  · obtain ⟨d, shape', ⟨id, -, hname, htype⟩, hdtype, hshape⟩ := hc.value.reads_of_mem_preorder hmem
    obtain ⟨source, hlookup⟩ := TensorTable.type?_eq_some_iff.mp htype
    exact ⟨id, _, hname, Graph.tensor_eq_ok_iff.mpr hlookup, hdtype, hshape⟩
  · exact mapM_eq_ok_iff.mpr (hargs.imp fun id arg harg => Graph.tensorInput_eq_ok_iff.mpr harg)
  · rw [hparams, htypes]
    refine List.rel_append ?_ (.cons ?_ .nil)
    · rw [List.forall₂_map_left_iff, List.forall₂_map_right_iff, List.forall₂_same]
      exact fun arg _ => rfl
    · rw [TensorCompute.toExpr, Expr.inferType, hd']
      rfl
  · obtain ⟨source, hlookup⟩ := TensorTable.type?_eq_some_iff.mp h.recorded
    exact ⟨_, Graph.tensor_eq_ok_iff.mpr hlookup, hc.constShape?_eq, TensorCompute.elementType_eq_ok_iff.mpr hd'⟩

namespace Graph

/-- However a graph was built, edited and optimized, its edges agree with the definitions and the tasks of its
operators, and no two operators compute one tensor. -/
theorem Reachable.operators_agree [FloatOps] {g : Graph} (h : Reachable g) :
    (∀ op ∈ g.nodes, op.Agrees g) ∧ (g.nodes.map Operator.output).Nodup := by
  refine ⟨fun op hop => ?_, h.linked.nodup⟩
  obtain ⟨d, shape, hcomputes⟩ := h.linked.computed op hop
  exact hcomputes.agrees

/-- The exponential of a negated difference. -/
def differenceSteps : List BuildStep :=
  [.input "x" .float32 [2], .input "y" .float32 [2], .binary .sub 0 1, .unary .neg 2, .unary .exp 3, .output 4]

/-- The negation reads `x` in the place of the difference, and one more operator is appended behind. -/
theorem operators_agree_differenceSteps :
    ∃ g, (build differenceSteps).replaceInput 1 2 0 = .ok g ∧
      let grown := (BuildStep.unary .relu 4).apply g
      grown.nodes.map Operator.inputs = [[0, 1], [0], [3], [4]] ∧
        (∀ op ∈ grown.nodes, op.Agrees grown) ∧ (grown.nodes.map Operator.output).Nodup := by
  obtain ⟨g, hrewired, hinputs⟩ : ∃ g, (build differenceSteps).replaceInput 1 2 0 = .ok g ∧
      ((BuildStep.unary .relu 4).apply g).nodes.map Operator.inputs = [[0, 1], [0], [3], [4]] := ⟨_, rfl, rfl⟩
  exact ⟨g, hrewired, hinputs,
    Reachable.operators_agree (.step (.replaceInput (reachable_build differenceSteps) 1 2 0 hrewired) (.unary .relu 4))⟩

end Graph

end TensorCompiler
