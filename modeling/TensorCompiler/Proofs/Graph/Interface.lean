import TensorCompiler.Proofs.Graph.FixedPoint

/-! # The interface of a graph

What the users of a graph see of it: its inputs and outputs and the types of these. No pass changes it. And whatever
passes have run, the operators can be executed in their order: each reads inputs of the graph, constants and what
operators in front of it compute.
-/

namespace TensorCompiler

/-! ## Steps that make operators -/

namespace BuildStep

/-- Whether a step makes a tensor that no user supplies or asks for: a constant, or what an operator computes. -/
def isInternal : BuildStep → Bool
  | input .. | output _ => false
  | constant .. | unary .. | binary .. | matmul .. | conv2d .. | reduceAxis .. => true

/-- What holds of a graph, and after any constant or operator is added to it, holds after a step that adds one of them. -/
theorem apply_induct {P : Graph → Prop} {g : Graph} {step : BuildStep} (hstep : step.isInternal) (hg : P g)
    (hconstant : ∀ value dtype, P ((GraphM.addConstant value dtype).stateAfter g))
    (hoperator : ∀ kind inputs define, P ((GraphM.addOperator kind inputs define).stateAfter g)) :
    P (step.apply g) := by
  cases step with
  | input | output => cases hstep
  | constant value dtype => exact hconstant value dtype
  | unary fn x => exact GraphM.after_tensor_bind hg fun info _ => hoperator ..
  | binary fn a b =>
    exact GraphM.after_tensor_bind hg fun lhs _ => GraphM.after_tensor_bind hg fun rhs _ =>
      GraphM.after_ofExcept_bind hg fun shape _ => hoperator ..
  | matmul a b =>
    refine GraphM.after_tensor_bind hg fun lhs _ => GraphM.after_tensor_bind hg fun rhs _ =>
      GraphM.after_ofExcept_bind hg fun _ _ => GraphM.after_ofExcept_bind hg fun _ _ => ?_
    split
    · split_ifs
      · exact hg
      · exact hoperator ..
    · exact hg
  | conv2d x w stride padding =>
    refine GraphM.after_tensor_bind hg fun image _ => GraphM.after_tensor_bind hg fun kernel _ =>
      GraphM.after_ofExcept_bind hg fun _ _ => GraphM.after_ofExcept_bind hg fun _ _ => ?_
    split
    · exact hg
    · exact hoperator ..
  | reduceAxis kind x axis =>
    refine GraphM.after_tensor_bind hg fun info _ => ?_
    split_ifs
    · exact hg
    · exact hoperator ..

end BuildStep

namespace Graph

variable {k : ElementKind} {g g' : Graph} {op : Operator} {id : TensorId}

/-! ## Inputs -/

/-- Whether every tensor that is recorded as supplied by the caller is an input of the graph. -/
def ListsInputs (g : Graph) : Prop :=
  ∀ id info, g.tensors.lookup id = some info → ∀ name, info.source = .input name → id ∈ g.inputs

/-- Recording a tensor that no caller supplies. -/
theorem ListsInputs.insert (h : g.ListsInputs) {info : TensorInfo} (hsource : ∀ name, info.source ≠ .input name)
    (htensors : g'.tensors = g.tensors.insert id info) (hinputs : g'.inputs = g.inputs) : g'.ListsInputs := by
  rw [ListsInputs, htensors, hinputs]
  exact forall_lookup_insert (fun name hname => absurd hname (hsource name)) h

/-- Whether the inputs of a graph are the tensors that the caller supplies, under numbers below the next one. -/
structure Declared (g : Graph) : Prop where
  lists : g.ListsInputs
  below : ∀ id ∈ g.inputs, id < g.nextId

namespace Declared

theorem empty : Declared {} where
  lists id info h := by cases h
  below id h := by cases h

/-- A step that makes an operator or a constant adds no input. -/
theorem addNode (h : g.Declared) (info : TensorInfo) (hsource : ∀ name, info.source ≠ .input name)
    (htensors : g'.tensors = g.tensors.insert id info) (hinputs : g'.inputs = g.inputs) (hnextId : g.nextId ≤ g'.nextId) :
    g'.Declared :=
  ⟨h.lists.insert hsource htensors hinputs, fun x hx => Nat.lt_of_lt_of_le (h.below x (hinputs ▸ hx)) hnextId⟩

theorem apply (h : g.Declared) (step : BuildStep) : (step.apply g).Declared := by
  cases hstep : step.isInternal with
  | true =>
    refine BuildStep.apply_induct hstep h (fun value dtype => ?_) fun kind inputs define => ?_
    · have hsource : ∀ name, TensorSource.constant value ≠ .input name := by simp
      exact h.addNode ⟨dtype, value.shape.map Int64.ofNat, .constant value⟩ hsource rfl rfl (Nat.le_succ _)
    · rcases GraphM.stateAfter_addOperator kind inputs define g with hafter | hafter
      · rw [hafter]
        exact h
      rw [hafter]
      cases hop : Graph.operator { g with nextId := g.nextId + 1 } kind inputs g.nextId
          (define (TensorId.name g.nextId)) with
      | error e => exact ⟨h.lists, fun x hx => Nat.lt_succ_of_lt (h.below x hx)⟩
      | ok result =>
        obtain ⟨op, grown⟩ := result
        obtain ⟨d, shape, -, -, -, -, -, -, -, rfl⟩ := operator_eq_ok_iff.mp hop
        exact h.addNode ⟨d, shape, .operator⟩ (by simp) rfl rfl (Nat.le_succ _)
  | false =>
    cases step with
    | input name dtype shape =>
      refine ⟨forall_lookup_insert (fun _ _ => ?_) fun x info hx name hsource => ?_, fun x hx => ?_⟩
      · exact List.mem_append_right _ (List.mem_singleton_self _)
      · exact List.mem_append_left _ (h.lists x info hx name hsource)
      · rcases List.mem_append.mp hx with hx | hx
        · exact Nat.lt_succ_of_lt (h.below x hx)
        · rw [List.mem_singleton.mp hx]
          exact Nat.lt_succ_self _
    | output id =>
      change Declared (if g.isOutput id then g else { g with outputs := g.outputs ++ [id] })
      split_ifs
      · exact h
      · exact ⟨h.lists, h.below⟩
    | _ => cases hstep

end Declared

/-- The inputs of a graph that was built are what its callers supply. -/
theorem declared_build (steps : List BuildStep) : (build steps).Declared := by
  have hsteps : ∀ g : Graph, g.Declared → (steps.foldl BuildStep.apply g).Declared := by
    induction steps with
    | nil => exact fun _ h => h
    | cons step steps ih => exact fun g h => ih _ (h.apply step)
  exact hsteps {} .empty

/-! ## What passes keep -/

/-- Whether a graph has the inputs and outputs of another one, under the same types. -/
structure SameInterface (g g' : Graph) : Prop where
  inputs : g'.inputs = g.inputs
  outputs : g'.outputs = g.outputs
  types : ∀ id, id ∈ g.inputs ∨ id ∈ g.outputs → g'.tensors.type? id = g.tensors.type? id

namespace SameInterface

theorem refl (g : Graph) : g.SameInterface g :=
  ⟨rfl, rfl, fun _ _ => rfl⟩

/-- Recording a tensor once more under the type that it has. -/
theorem insert {start : Graph} (h : start.SameInterface g) {info : TensorInfo}
    (htype : g.tensors.type? id = some (info.dtype, info.shape)) (htensors : g'.tensors = g.tensors.insert id info)
    (hinputs : g'.inputs = g.inputs) (houtputs : g'.outputs = g.outputs) : start.SameInterface g' where
  inputs := hinputs.trans h.inputs
  outputs := houtputs.trans h.outputs
  types x hx := by
    rw [htensors, TensorTable.type?_insert htype]
    exact h.types x hx

/-- The normal form forgets no tensor of the interface. -/
theorem normalize {start : Graph} (h : start.SameInterface g) (hnormal : g.normalize = .ok g') :
    start.SameInterface g' := by
  obtain ⟨live, -, rfl⟩ := normalize_eq_ok_iff.mp hnormal
  refine ⟨h.inputs, h.outputs, fun id hid => ?_⟩
  have hmentioned : mentions { g with nodes := live } id = true := by
    rw [← h.inputs, ← h.outputs] at hid
    rcases hid with hid | hid <;> simp [mentions, hid]
  refine Eq.trans ?_ (h.types id hid)
  rw [TensorTable.type?, TensorTable.type?, lookup_filter_mentions hmentioned]

end SameInterface

/-- What a pass keeps of the graph where the passes started. -/
structure Continues (k : ElementKind) (start g : Graph) : Prop where
  computed : g.Computed k
  interface : start.SameInterface g
  lists : g.ListsInputs

namespace Continues

variable {start : Graph}

/-- Recording a tensor once more, as one that no caller supplies. -/
theorem insert (h : start.Continues k g) (info : TensorInfo) (hcomputed : g'.Computed k)
    (htype : g.tensors.type? id = some (info.dtype, info.shape)) (hsource : ∀ name, info.source ≠ .input name)
    (htensors : g'.tensors = g.tensors.insert id info) (hinputs : g'.inputs = g.inputs)
    (houtputs : g'.outputs = g.outputs) : start.Continues k g' :=
  ⟨hcomputed, h.interface.insert htype htensors hinputs houtputs, h.lists.insert hsource htensors hinputs⟩

theorem setConstant (h : start.Continues k g) {value : NDArray} (hset : g.setConstant id value = .ok g') :
    start.Continues k g' := by
  have hcomputed := h.computed.setConstant hset
  obtain ⟨info, hinfo, rfl⟩ := setConstant_eq_ok_iff.mp hset
  have hkept : (g.removeProducer id).inputs = g.inputs ∧ (g.removeProducer id).outputs = g.outputs := by
    rw [removeProducer]
    split <;> exact ⟨rfl, rfl⟩
  have htype : g.tensors.type? id = some (info.dtype, info.shape) := TensorTable.type?_of_lookup hinfo
  exact h.insert { info with source := .constant value } hcomputed htype (by simp) rfl hkept.1 hkept.2

theorem replaceInput (h : start.Continues k g) {index : Nat} {old new : TensorId}
    (hreplace : g.replaceInput index old new = .ok g') : start.Continues k g' := by
  have hcomputed := h.computed.replaceInput hreplace
  rcases replaceInput_cases hreplace with rfl | ⟨op, _, _, hop, hold, hnew⟩
  · exact h
  obtain ⟨rebuilt, d, shape, hrecorded, -, -, -, -, hreplace'⟩ := exists_replaceInput h.computed hop hold hnew
  cases hreplace'.symm.trans hreplace
  exact h.insert ⟨d, shape, .operator⟩ hcomputed hrecorded (by simp) rfl rfl rfl

theorem fuse (h : start.Continues k g) {pair : FusionPair} {producer consumer : Operator}
    (hmergeable : g.Mergeable pair producer consumer) (hfuse : g.fuse pair = .ok g') : start.Continues k g' := by
  have hcomputed := h.computed.fuse hmergeable hfuse
  obtain ⟨merged, d, shape, hconsumer, -, -, hfuse'⟩ := exists_fuse h.computed hmergeable
  cases hfuse'.symm.trans hfuse
  exact h.insert ⟨d, shape, .operator⟩ hcomputed hconsumer.recorded (by simp) rfl rfl rfl

theorem normalize (h : start.Continues k g) (hnormal : g.normalize = .ok g') : start.Continues k g' := by
  have hcomputed := h.computed.normalize hnormal
  have hinterface := h.interface.normalize hnormal
  obtain ⟨live, -, rfl⟩ := normalize_eq_ok_iff.mp hnormal
  refine ⟨hcomputed, hinterface, fun id info hlookup => ?_⟩
  rw [TensorTable.lookup_filter g.tensors fun id => mentions { g with nodes := live } id] at hlookup
  split_ifs at hlookup
  exact h.lists id info hlookup

end Continues

theorem keptByEdits_continues (start : Graph) : KeptByEdits (start.Continues k) where
  setConstant h := h.setConstant
  replaceInput h := h.replaceInput
  fuse h := h.fuse
  normalize h := h.normalize

/-! ## Execution in order -/

/-- Whether each operator reads only inputs of the graph, constants and what operators in front of it compute. -/
def Executable (g : Graph) : Prop :=
  ∀ before op after, g.nodes = before ++ op :: after → ∀ id ∈ op.inputs,
    id ∈ g.inputs ∨ (∃ info, g.tensor id = .ok info ∧ info.isConstant) ∨ id ∈ outputsOf before

/-- The tensors that the outputs of a graph depend on. -/
inductive FeedsOutput (g : Graph) : TensorId → Prop
  | output {id : TensorId} (h : id ∈ g.outputs) : FeedsOutput g id
  | read {op : Operator} {id : TensorId} (hop : op ∈ g.nodes) (h : FeedsOutput g op.output) (hread : id ∈ op.inputs) :
      FeedsOutput g id

/-- The operators of a well-formed graph can be executed in order. -/
theorem WellFormed.executable (h : g.WellFormed k) (hlists : g.ListsInputs) : g.Executable := by
  intro before op after hnodes id hid
  have hordered := h.ordered
  rw [hnodes] at hordered
  rcases hordered.at_split.1 id hid with ⟨info, hinfo, hsource⟩ | hmem
  · cases hkind : info.source with
    | input name => exact Or.inl (hlists id info hinfo name hkind)
    | constant value =>
      refine Or.inr (Or.inl ⟨info, tensor_eq_ok_iff.mpr hinfo, ?_⟩)
      rw [TensorInfo.isConstant, TensorInfo.constant?, hkind]
      rfl
    | operator => exact absurd hkind hsource
  · exact Or.inr (Or.inr hmem)

/-- In a graph whose operators are all needed each of them computes what an output depends on. -/
theorem Trim.feedsOutput (h : g.Trim k) : ∀ op ∈ g.nodes, g.FeedsOutput op.output :=
  h.needed.induct h.ordered (fun _ _ hout => .output hout) fun _ _ _ hreader hread ih => .read hreader ih hread

section

variable [FloatOps]

/-- Every graph on the way of a run of passes keeps what passes keep. -/
theorem WellFormed.exists_trace {P : Graph → Prop} (hP : KeptByEdits P) (h : g.WellFormed k) (hg : P g)
    (passes : List GraphPass) :
    ∃ trace last, PassRun.runSteps g passes = .ok (trace, last) ∧ trace.map Prod.fst = passes ∧
      (∀ entry ∈ trace, entry.2.WellFormed k ∧ P entry.2) ∧ last.WellFormed k ∧ P last := by
  induction passes generalizing g with
  | nil => exact ⟨[], g, rfl, rfl, by simp, h, hg⟩
  | cons pass passes ih =>
    obtain ⟨next, hnext, hwell⟩ := h.exists_runPass pass
    have hkept := hP.runPass hg hnext
    obtain ⟨trace, last, hsteps, hpasses, htrace, hlast⟩ := ih hwell hkept
    refine ⟨(pass, next) :: trace, last, runSteps_cons_eq_ok_iff.mpr ⟨next, trace, hnext, hsteps, rfl⟩, ?_, ?_, hlast⟩
    · rw [List.map_cons, hpasses]
    · exact List.forall_mem_cons.mpr ⟨⟨hwell, hkept⟩, htrace⟩

/-- Whatever passes run over a graph that was built, each of them succeeds and leaves a graph with the same inputs and
outputs under the same types, whose operators can be executed in order. So does optimizing the graph, and then every
operator computes what an output depends on. -/
theorem sameInterface_runSteps_build (steps : List BuildStep) (passes : List GraphPass) :
    (∃ trace last, PassRun.runSteps (build steps) passes = .ok (trace, last) ∧ trace.map Prod.fst = passes ∧
      (∀ entry ∈ trace, (build steps).SameInterface entry.2 ∧ entry.2.Executable) ∧
      (build steps).SameInterface last ∧ last.Executable) ∧
    ∃ optimized, (build steps).optimize = .ok optimized ∧ (build steps).SameInterface optimized ∧
      optimized.Executable ∧ ∀ op ∈ optimized.nodes, optimized.FeedsOutput op.output := by
  have hwell := wellFormed_build_mixed steps
  have hstart : (build steps).Continues .mixed (build steps) :=
    ⟨hwell.computed, .refl _, (declared_build steps).lists⟩
  have hkept : ∀ g : Graph, g.WellFormed .mixed ∧ (build steps).Continues .mixed g →
      (build steps).SameInterface g ∧ g.Executable :=
    fun g hg => ⟨hg.2.interface, hg.1.executable hg.2.lists⟩
  constructor
  · obtain ⟨trace, last, hrun, hpasses, htrace, hlast⟩ := hwell.exists_trace (keptByEdits_continues _) hstart passes
    exact ⟨trace, last, hrun, hpasses, fun entry hentry => hkept entry.2 (htrace entry hentry), hkept last hlast⟩
  · obtain ⟨run, hrun, -⟩ := hwell.exists_run GraphPass.pipeline
    have hoptimize := optimize_eq_ok_iff.mpr ⟨run, hrun, rfl⟩
    have htrim := (hwell.settled_optimize hoptimize).1
    obtain ⟨hsame, hexecutable⟩ :=
      hkept run.result ⟨htrim.toWellFormed, (keptByEdits_continues _).optimize hstart hoptimize⟩
    exact ⟨run.result, hoptimize, hsame, hexecutable, htrim.feedsOutput⟩

end

end Graph

end TensorCompiler
