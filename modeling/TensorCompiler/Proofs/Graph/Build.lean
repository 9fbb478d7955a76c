import TensorCompiler.Proofs.Graph.Operators
import TensorCompiler.Proofs.Graph.WellFormed

/-! # Building graphs

A graph is built in steps. A step that is refused leaves the graph that it has reached, so the graphs that can be built
are those that any steps lead to from the empty graph. Every step keeps a graph well-formed: a new tensor takes a
number above all recorded ones, and an operator is appended behind the operators that compute what it reads.
-/

namespace TensorCompiler

/-- A step that a user of a graph takes to build it. -/
inductive BuildStep where
  | input (name : String) (dtype : DType) (shape : List Int64)
  | constant (value : NDArray) (dtype : DType)
  | unary (fn : UnaryFn) (x : TensorId)
  | binary (fn : BinaryFn) (a b : TensorId)
  | matmul (a b : TensorId)
  | conv2d (x w : TensorId) (stride padding : Int64 × Int64)
  | reduceAxis (kind : ReduceKind) (x : TensorId) (axis : Nat)
  | output (id : TensorId)

namespace GraphM

/-- The graph that an action reaches, also when it fails. -/
def stateAfter {α : Type} (action : GraphM α) (g : Graph) : Graph :=
  match action.run g with
  | .ok _ g' => g'
  | .error _ g' => g'

end GraphM

namespace BuildStep

/-- The graph after a step. -/
def apply (g : Graph) : BuildStep → Graph
  | input name dtype shape => (GraphM.addInput name dtype shape).stateAfter g
  | constant value dtype => (GraphM.addConstant value dtype).stateAfter g
  | unary fn x => (GraphM.unary fn x).stateAfter g
  | binary fn a b => (GraphM.binary fn a b).stateAfter g
  | matmul a b => (GraphM.matmul a b).stateAfter g
  | conv2d x w stride padding => (GraphM.conv2d x w stride padding).stateAfter g
  | reduceAxis kind x axis => (GraphM.reduceAxis kind x axis).stateAfter g
  | output id => (GraphM.markOutput id).stateAfter g

/-- Whether a step stays within graphs of a kind. -/
def hasKind (k : NumberKind) : BuildStep → Bool
  | input _ dtype _ | constant _ dtype => k.hasDType dtype
  | unary fn _ => k.hasUnary fn
  | _ => true

end BuildStep

/-- The graph that steps lead to from the empty graph. -/
def Graph.build (steps : List BuildStep) : Graph :=
  steps.foldl BuildStep.apply {}

/-- Whether a step stays within graphs of given element types. -/
def ElementKind.hasStep : ElementKind → BuildStep → Bool
  | numbers kind, step => step.hasKind kind
  | mixed, _ => true

namespace ElementKind

theorem hasDType_of_hasStep_input {k : ElementKind} {name : String} {dtype : DType} {shape : List Int64}
    (h : k.hasStep (.input name dtype shape)) : k.hasDType dtype := by
  cases k <;> exact h

theorem hasDType_of_hasStep_constant {k : ElementKind} {value : NDArray} {dtype : DType}
    (h : k.hasStep (.constant value dtype)) : k.hasDType dtype := by
  cases k <;> exact h

theorem hasUnary_of_hasStep {k : ElementKind} {fn : UnaryFn} {x : TensorId} (h : k.hasStep (.unary fn x)) :
    k.hasUnary fn := by
  cases k <;> exact h

end ElementKind

/-- Whether every reduction of a value runs over extents of the kind. -/
def ElementKind.HasExtents (k : ElementKind) (e : Expr) : Prop :=
  ∀ kind extents axes value, Expr.reduce kind (Expr.ofShape extents) axes value ∈ e.preorder →
    ∀ n ∈ extents, k.hasExtent n

/-! ## Actions -/

namespace GraphM

variable {α β : Type} {g : Graph}

theorem run_bind (action : GraphM α) (f : α → GraphM β) (g : Graph) :
    (action >>= f).run g =
      match action.run g with
      | .ok a g' => (f a).run g'
      | .error e g' => .error e g' := by
  change EStateM.bind action f g = _
  unfold EStateM.bind EStateM.run
  cases action g <;> rfl

theorem run_ofExcept_bind (x : Except Error α) (f : α → GraphM β) (g : Graph) :
    (ofExcept x >>= f).run g =
      match x with
      | .ok a => (f a).run g
      | .error e => .error e g := by
  cases x <;> rfl

theorem run_tensor (id : TensorId) : (tensor id).run g = (ofExcept (g.tensor id)).run g := rfl

theorem run_tensor_bind (id : TensorId) (f : TensorInfo → GraphM β) (g : Graph) :
    (tensor id >>= f).run g =
      match g.tensor id with
      | .ok info => (f info).run g
      | .error e => .error e g := by
  rw [run_bind, run_tensor]
  cases g.tensor id <;> rfl

theorem stateAfter_bind (action : GraphM α) (f : α → GraphM β) (g : Graph) :
    (action >>= f).stateAfter g =
      match action.run g with
      | .ok a g' => (f a).stateAfter g'
      | .error _ g' => g' := by
  rw [stateAfter, run_bind]
  cases action.run g <;> rfl

theorem stateAfter_ofExcept_bind (x : Except Error α) (f : α → GraphM β) :
    (ofExcept x >>= f).stateAfter g =
      match x with
      | .ok a => (f a).stateAfter g
      | .error _ => g := by
  cases x <;> rfl

theorem stateAfter_tensor_bind (id : TensorId) (f : TensorInfo → GraphM β) :
    (tensor id >>= f).stateAfter g =
      match g.tensor id with
      | .ok info => (f info).stateAfter g
      | .error _ => g := by
  rw [stateAfter, run_tensor_bind]
  cases g.tensor id <;> rfl

/-- What holds where an action starts and after the rest of it holds after it, if it looks up a tensor first. -/
theorem after_tensor_bind {P : Graph → Prop} {id : TensorId} {f : TensorInfo → GraphM β} (hg : P g)
    (hf : ∀ info, g.tensor id = .ok info → P ((f info).stateAfter g)) : P ((tensor id >>= f).stateAfter g) := by
  rw [stateAfter_tensor_bind]
  cases hinfo : g.tensor id with
  | error e => exact hg
  | ok info => exact hf info hinfo

theorem after_ofExcept_bind {P : Graph → Prop} {x : Except Error α} {f : α → GraphM β} (hg : P g)
    (hf : ∀ a, x = .ok a → P ((f a).stateAfter g)) : P ((ofExcept x >>= f).stateAfter g) := by
  rw [stateAfter_ofExcept_bind]
  cases x with
  | error e => exact hg
  | ok a => exact hf a rfl

/-- A check changes nothing: it lets the rest happen or refuses a tensor that the graph lacks. -/
theorem run_check (inputs : List TensorId) (g : Graph) :
    EStateM.run (inputs.forM fun id => do discard (ofExcept ((← get).tensor id))) g = .ok () g ∨
      ∃ id ∈ inputs, ∃ e, g.tensor id = .error e ∧
        EStateM.run (inputs.forM fun id => do discard (ofExcept ((← get).tensor id))) g = .error e g := by
  induction inputs with
  | nil => exact Or.inl rfl
  | cons id inputs ih =>
    change (EStateM.bind (discard (ofExcept (g.tensor id))) _) g = _ ∨
      ∃ x ∈ id :: inputs, ∃ e, g.tensor x = .error e ∧ (EStateM.bind (discard (ofExcept (g.tensor id))) _) g = _
    cases hinfo : g.tensor id with
    | error e => exact Or.inr ⟨id, List.mem_cons_self, e, hinfo, rfl⟩
    | ok info =>
      refine ih.imp_right ?_
      rintro ⟨x, hx, e, he, hrun⟩
      exact ⟨x, List.mem_cons_of_mem _ hx, e, he, hrun⟩

/-- Appending an operator may be refused before or after its tensor number is taken. -/
theorem stateAfter_addOperator (kind : OpKind) (inputs : List TensorId) (define : String → TensorCompute) (g : Graph) :
    (addOperator kind inputs define).stateAfter g = g ∨
      (addOperator kind inputs define).stateAfter g =
        match Graph.operator { g with nextId := g.nextId + 1 } kind inputs g.nextId (define (TensorId.name g.nextId)) with
        | .ok (op, g') => { g' with nodes := g'.nodes ++ [op] }
        | .error _ => { g with nextId := g.nextId + 1 } := by
  rw [addOperator, stateAfter_bind]
  rcases run_check inputs g with hcheck | ⟨_, _, e, _, hcheck⟩
  · right
    rw [hcheck]
    change stateAfter (ofExcept (Graph.operator { g with nextId := g.nextId + 1 } kind inputs g.nextId
      (define (TensorId.name g.nextId))) >>= _) { g with nextId := g.nextId + 1 } = _
    rw [stateAfter_ofExcept_bind]
    cases Graph.operator { g with nextId := g.nextId + 1 } kind inputs g.nextId (define (TensorId.name g.nextId)) <;> rfl
  · rw [hcheck]
    exact Or.inl rfl

/-! ### Steps that succeed -/

section

variable {α β : Type} {g g' : Graph}

theorem run_bind_eq_ok_iff {action : GraphM α} {f : α → GraphM β} {b : β} :
    (action >>= f).run g = .ok b g' ↔ ∃ a middle, action.run g = .ok a middle ∧ (f a).run middle = .ok b g' := by
  rw [run_bind]
  cases action.run g with
  | ok a middle => simp
  | error e middle => simp

theorem run_ofExcept_eq_ok_iff {x : Except Error α} {a : α} :
    (ofExcept x).run g = .ok a g' ↔ x = .ok a ∧ g' = g := by
  cases x with
  | error e =>
    change EStateM.Result.error e g = .ok a g' ↔ _
    simp
  | ok b =>
    change EStateM.Result.ok b g = .ok a g' ↔ _
    simp [eq_comm]

theorem run_ofExcept_bind_eq_ok_iff {x : Except Error α} {f : α → GraphM β} {b : β} :
    (ofExcept x >>= f).run g = .ok b g' ↔ ∃ a, x = .ok a ∧ (f a).run g = .ok b g' := by
  simp only [run_bind_eq_ok_iff, run_ofExcept_eq_ok_iff, and_assoc, exists_and_left, exists_eq_left]

theorem run_tensor_bind_eq_ok_iff {id : TensorId} {f : TensorInfo → GraphM β} {b : β} :
    (tensor id >>= f).run g = .ok b g' ↔ ∃ info, g.tensor id = .ok info ∧ (f info).run g = .ok b g' := by
  simp only [run_bind_eq_ok_iff, run_tensor, run_ofExcept_eq_ok_iff, and_assoc, exists_and_left, exists_eq_left]

/-- An operator that is appended computes the next tensor. -/
theorem exists_of_run_addOperator {kind : OpKind} {inputs : List TensorId} {define : String → TensorCompute} {t : TensorId}
    (h : (addOperator kind inputs define).run g = .ok t g') :
    t = g.nextId ∧ ∃ op grown,
      Graph.operator { g with nextId := g.nextId + 1 } kind inputs t (define (TensorId.name t)) = .ok (op, grown) ∧
        g' = { grown with nodes := grown.nodes ++ [op] } := by
  obtain ⟨_, checked, hcheck, h⟩ := run_bind_eq_ok_iff.mp h
  rcases run_check inputs g with hsame | ⟨_, _, e, _, hfails⟩
  · cases hsame.symm.trans hcheck
    obtain ⟨output, numbered, hfresh, h⟩ := run_bind_eq_ok_iff.mp h
    cases hfresh
    obtain ⟨current, same, hget, h⟩ := run_bind_eq_ok_iff.mp h
    cases hget
    obtain ⟨⟨op, grown⟩, hop, h⟩ := run_ofExcept_bind_eq_ok_iff.mp h
    cases h
    exact ⟨rfl, op, grown, hop, rfl⟩
  · cases hfails.symm.trans hcheck

end

end GraphM

/-! ## Steps -/

/-- What a step makes of a graph: it is refused, takes a tensor number in vain, records a tensor that no operator
computes, chooses the outputs, or appends an operator whose definition reads the inputs of the operator. -/
inductive BuildStep.Outcome (k : ElementKind) (g : Graph) : Graph → Prop
  | refused : Outcome k g g
  | skipped : Outcome k g { g with nextId := g.nextId + 1 }
  | recorded (info : TensorInfo) (inputs : List TensorId) (hkind : k.hasDType info.dtype)
      (hsource : info.source ≠ .operator) :
      Outcome k g { g with tensors := g.tensors.insert g.nextId info, nextId := g.nextId + 1, inputs := inputs }
  | marked (outputs : List TensorId) : Outcome k g { g with outputs := outputs }
  | appended {kind : OpKind} {inputs : List TensorId} {c : TensorCompute} {op : Operator} {g' : Graph}
      (hdefines : k.HasExtents c.value → ∃ d shape, c.Defines k g.tensors inputs kind.fusionClass.level d shape)
      (hop : Graph.operator { g with nextId := g.nextId + 1 } kind inputs g.nextId c = .ok (op, g')) :
      Outcome k g { g' with nodes := g'.nodes ++ [op] }

namespace BuildStep

variable {k : ElementKind} {g g' : Graph}

/-- Whether the tensors of a graph have element types of a kind. -/
def Typed (k : ElementKind) (g : Graph) : Prop :=
  ∀ id info, g.tensors.lookup id = some info → k.hasDType info.dtype

theorem outcome_tensor_bind {β : Type} (hg : Typed k g) {id : TensorId} {f : TensorInfo → GraphM β}
    (hf : ∀ info, g.tensors.type? id = some (info.dtype, info.shape) → k.hasDType info.dtype →
      Outcome k g ((f info).stateAfter g)) : Outcome k g ((GraphM.tensor id >>= f).stateAfter g) := by
  refine GraphM.after_tensor_bind .refused fun info hinfo => ?_
  have hlookup := Graph.tensor_eq_ok_iff.mp hinfo
  exact hf info (TensorTable.type?_of_lookup hlookup) (hg id info hlookup)

theorem outcome_ofExcept_bind {α β : Type} {x : Except Error α} {f : α → GraphM β}
    (hf : ∀ a, x = .ok a → Outcome k g ((f a).stateAfter g)) :
    Outcome k g ((GraphM.ofExcept x >>= f).stateAfter g) :=
  GraphM.after_ofExcept_bind .refused hf

/-- Appending an operator by a definition that fits whenever it is typed. -/
theorem outcome_addOperator (kind : OpKind) (inputs : List TensorId) (define : String → TensorCompute)
    (hdefine : ∀ d, (define (TensorId.name g.nextId)).value.HasDType d →
      k.HasExtents (define (TensorId.name g.nextId)).value →
      ∃ d shape, (define (TensorId.name g.nextId)).Defines k g.tensors inputs kind.fusionClass.level d shape) :
    Outcome k g ((GraphM.addOperator kind inputs define).stateAfter g) := by
  rcases GraphM.stateAfter_addOperator kind inputs define g with hafter | hafter
  · rw [hafter]
    exact .refused
  · rw [hafter]
    cases hop : Graph.operator { g with nextId := g.nextId + 1 } kind inputs g.nextId
        (define (TensorId.name g.nextId)) with
    | error e => exact .skipped
    | ok result =>
      obtain ⟨-, d, hd⟩ := Graph.value_of_operator hop
      exact .appended (hdefine d hd) hop

theorem outcome_unary (hg : Typed k g) (fn : UnaryFn) (x : TensorId) (hfn : k.hasUnary fn) :
    Outcome k g ((GraphM.unary fn x).stateAfter g) := by
  refine outcome_tensor_bind hg fun info htype hkind => outcome_addOperator _ _ _ fun d hd hextents => ?_
  exact ⟨_, _, TensorCompute.defines_unary fn _ htype hkind hfn⟩

theorem outcome_binary (hg : Typed k g) (fn : BinaryFn) (a b : TensorId) :
    Outcome k g ((GraphM.binary fn a b).stateAfter g) := by
  refine outcome_tensor_bind hg fun lhs hlhs hkindL => outcome_tensor_bind hg fun rhs hrhs hkindR => ?_
  refine outcome_ofExcept_bind fun shape hshape => outcome_addOperator _ _ _ fun d hd hextents => ?_
  exact ⟨_, _, TensorCompute.defines_binary fn _ hlhs hrhs hkindL hkindR (broadcastShape_eq_ok_iff.mp hshape) hd⟩

theorem outcome_matmul (hg : Typed k g) (a b : TensorId) : Outcome k g ((GraphM.matmul a b).stateAfter g) := by
  refine outcome_tensor_bind hg fun lhs hlhs hkindL => outcome_tensor_bind hg fun rhs hrhs hkindR => ?_
  refine outcome_ofExcept_bind fun _ _ => outcome_ofExcept_bind fun _ _ => ?_
  split
  · rename_i rows inner inner' columns hleft hright
    rw [hleft] at hlhs
    rw [hright] at hrhs
    split_ifs with hinner
    · exact .refused
    · rw [not_not] at hinner
      subst hinner
      refine outcome_addOperator _ _ _ fun d hd hextents => ?_
      have ha : GraphM.asInput a lhs = .ofShape a.name lhs.dtype [rows, inner] := by rw [GraphM.asInput, hleft]
      have hb : GraphM.asInput b rhs = .ofShape b.name rhs.dtype [inner, columns] := by rw [GraphM.asInput, hright]
      rw [ha, hb] at hd ⊢
      have hinner := hextents _ [inner] _ _ (Expr.mem_preorder_self _) inner (List.mem_singleton_self inner)
      exact ⟨_, _, TensorCompute.defines_matmul _ hlhs hrhs hkindL hinner hd⟩
  · exact .refused

theorem outcome_conv2d (hg : Typed k g) (x w : TensorId) (stride padding : Int64 × Int64) :
    Outcome k g ((GraphM.conv2d x w stride padding).stateAfter g) := by
  refine outcome_tensor_bind hg fun image himage hkindL => outcome_tensor_bind hg fun kernel hkernel hkindR => ?_
  refine outcome_ofExcept_bind fun _ _ => outcome_ofExcept_bind fun _ _ => ?_
  split
  · exact .refused
  · rename_i height width hsize
    obtain ⟨hrankL, hrankR⟩ := TensorCompute.length_of_convolutionSize? hsize
    refine outcome_addOperator _ _ _ fun d hd hextents => ?_
    have htaps := hextents _ (kernel.shape.drop 1) _ _ (Expr.mem_preorder_self _)
    exact ⟨_, _, TensorCompute.defines_conv2d _ himage hkernel hkindL hrankL hrankR htaps hd⟩

theorem outcome_reduceAxis (hg : Typed k g) (kind : ReduceKind) (x : TensorId) (axis : Nat) :
    Outcome k g ((GraphM.reduceAxis kind x axis).stateAfter g) := by
  refine outcome_tensor_bind hg fun info htype hkind => ?_
  split_ifs with haxis
  · exact .refused
  · refine outcome_addOperator _ _ _ fun d hd hextents => ?_
    have hextent := hextents _ [info.shape.getD axis 0] _ _ (Expr.mem_preorder_self _) _ (List.mem_singleton_self _)
    exact ⟨_, _, TensorCompute.defines_reduceAxis kind _ htype hkind (Nat.not_le.mp haxis) hextent⟩

/-- Every step has one of these outcomes. -/
theorem outcome_apply (hg : Typed k g) {step : BuildStep} (hstep : k.hasStep step) : Outcome k g (step.apply g) := by
  cases step with
  | input name dtype shape =>
    exact .recorded ⟨dtype, shape, .input name⟩ (g.inputs ++ [g.nextId])
      (ElementKind.hasDType_of_hasStep_input hstep) (by simp)
  | constant value dtype =>
    exact .recorded ⟨dtype, value.shape.map Int64.ofNat, .constant value⟩ g.inputs
      (ElementKind.hasDType_of_hasStep_constant hstep) (by simp)
  | unary fn x => exact outcome_unary hg fn x (ElementKind.hasUnary_of_hasStep hstep)
  | binary fn a b => exact outcome_binary hg fn a b
  | matmul a b => exact outcome_matmul hg a b
  | conv2d x w stride padding => exact outcome_conv2d hg x w stride padding
  | reduceAxis kind x axis => exact outcome_reduceAxis hg kind x axis
  | output id =>
    change Outcome k g (if g.isOutput id then g else { g with outputs := g.outputs ++ [id] })
    split_ifs
    · exact .refused
    · exact .marked _

theorem typed_mixed (g : Graph) : Typed .mixed g := fun _ _ _ => rfl

/-- No step takes a node out. -/
theorem Outcome.mem_nodes (h : Outcome k g g') {op : Operator} (hop : op ∈ g.nodes) : op ∈ g'.nodes := by
  cases h with
  | refused | skipped | recorded | marked => exact hop
  | appended hdefines hnew =>
    obtain ⟨_, _, _, _, _, _, _, _, _, rfl⟩ := Graph.operator_eq_ok_iff.mp hnew
    exact List.mem_append_left _ hop

theorem mem_nodes_foldl_apply {steps : List BuildStep} {op : Operator} (hop : op ∈ g.nodes) :
    op ∈ (steps.foldl apply g).nodes := by
  induction steps generalizing g with
  | nil => exact hop
  | cons step steps ih =>
    have houtcome : Outcome .mixed g (step.apply g) := outcome_apply (typed_mixed g) rfl
    exact ih (houtcome.mem_nodes hop)

end BuildStep

/-! ## Linked graphs -/

namespace Graph

variable {k : ElementKind} {g g' : Graph}

theorem type?_insert_of_ne {T : TensorTable} {id x : TensorId} (info : TensorInfo) (hne : x ≠ id) :
    (T.insert id info).type? x = T.type? x := by
  rw [TensorTable.type?, TensorTable.lookup_insert, if_neg hne]
  rfl

/-- What is known of the tensors of a graph once one more is recorded. -/
theorem forall_lookup_insert {P : TensorId → TensorInfo → Prop} {T : TensorTable} {id : TensorId} {info : TensorInfo}
    (hnew : P id info) (hold : ∀ x i, T.lookup x = some i → P x i) :
    ∀ x i, (T.insert id info).lookup x = some i → P x i := by
  intro x i hx
  rw [TensorTable.lookup_insert] at hx
  split_ifs at hx with hsame
  · cases hx
    exact hsame ▸ hnew
  · exact hold x i hx

/-- A graph whose operators compute what it records, each another tensor, and which records tensors under numbers below
the next one. The operators may stand in any order. -/
structure Linked (k : ElementKind) (g : Graph) : Prop where
  computed : g.Computed k
  nodup : (outputsOf g.nodes).Nodup
  below : ∀ id info, g.tensors.lookup id = some info → id < g.nextId

namespace Linked

theorem empty : Linked k {} where
  computed op hop := by cases hop
  nodup := List.nodup_nil
  below id info h := by cases h

/-- The next number belongs to no recorded tensor. -/
theorem ne_nextId (h : g.Linked k) {id : TensorId} {d : DType} {shape : List Int64}
    (htype : g.tensors.type? id = some (d, shape)) : id ≠ g.nextId := by
  obtain ⟨source, hlookup⟩ := TensorTable.type?_eq_some_iff.mp htype
  exact Nat.ne_of_lt (h.below id _ hlookup)

/-- The next number is not that of a tensor that an operator reads or computes. -/
theorem ne_nextId_of_mem_nodes (h : g.Linked k) {op : Operator} (hop : op ∈ g.nodes) :
    op.output ≠ g.nextId ∧ ∀ id ∈ op.inputs, id ≠ g.nextId := by
  obtain ⟨d, shape, hcomputes⟩ := h.computed op hop
  refine ⟨h.ne_nextId hcomputes.recorded, fun id hid => ?_⟩
  obtain ⟨d', shape', htype⟩ := hcomputes.exists_type_of_mem_inputs hid
  exact h.ne_nextId htype

/-- Recording a tensor under the next number leaves what the operators compute. -/
theorem computed_insert (h : g.Linked k) (info : TensorInfo) {op : Operator} (hop : op ∈ g.nodes) :
    ∃ d shape, op.Computes k (g.tensors.insert g.nextId info) d shape := by
  obtain ⟨d, shape, hcomputes⟩ := h.computed op hop
  obtain ⟨houtput, hinputs⟩ := h.ne_nextId_of_mem_nodes hop
  exact ⟨d, shape, hcomputes.congr (fun id hid => type?_insert_of_ne info (hinputs id hid))
    (type?_insert_of_ne info houtput)⟩

/-- Recording a tensor. -/
theorem addTensor (h : g.Linked k) (info : TensorInfo) (inputs : List TensorId) :
    Linked k { g with tensors := g.tensors.insert g.nextId info, nextId := g.nextId + 1, inputs := inputs } where
  computed _ hop := h.computed_insert info hop
  nodup := h.nodup
  below := forall_lookup_insert (Nat.lt_succ_self _) fun x i hx => Nat.lt_succ_of_lt (h.below x i hx)

/-- Taking a tensor number. -/
theorem skip (h : g.Linked k) : Linked k { g with nextId := g.nextId + 1 } where
  computed := h.computed
  nodup := h.nodup
  below x i hx := Nat.lt_succ_of_lt (h.below x i hx)

theorem withOutputs (h : g.Linked k) (outputs : List TensorId) : Linked k { g with outputs := outputs } where
  computed := h.computed
  nodup := h.nodup
  below := h.below

/-- What appending an operator comes to: it computes the tensor of the next number, from recorded tensors. -/
theorem operator_nextId (h : g.Linked k) {kind : OpKind} {inputs : List TensorId} {c : TensorCompute} {op : Operator}
    {d : DType} {shape : List Int64} (hc : c.Defines k g.tensors inputs kind.fusionClass.level d shape)
    (hop : Graph.operator { g with nextId := g.nextId + 1 } kind inputs g.nextId c = .ok (op, g')) :
    (∀ id ∈ op.inputs, ∃ d' shape', g.tensors.type? id = some (d', shape')) ∧ op.output = g.nextId ∧
      g' = { g with tensors := g.tensors.insert g.nextId ⟨d, shape, .operator⟩, nextId := g.nextId + 1 } ∧
      op.Computes k g'.tensors d shape := by
  obtain ⟨-, -, args, -, -, -, hargs, -, -, -⟩ := operator_eq_ok_iff.mp hop
  have hinputs : ∀ id ∈ inputs, ∃ d' shape', g.tensors.type? id = some (d', shape') := by
    intro id hid
    obtain ⟨arg, -, harg⟩ := exists_mem_of_forall₂ hargs hid
    obtain ⟨d', shape', htype, -⟩ := tensorInput_eq_ok_iff.mp harg
    exact ⟨d', shape', htype⟩
  have hnew : ∀ id ∈ inputs, id ≠ g.nextId := by
    intro id hid
    obtain ⟨d', shape', htype⟩ := hinputs id hid
    exact h.ne_nextId htype
  obtain ⟨-, hread, houtput, -, hg', hcomputes⟩ :=
    computes_of_operator (g := { g with nextId := g.nextId + 1 }) hc (fun id hid hsame => absurd hsame (hnew id hid)) hop
  exact ⟨hread ▸ hinputs, houtput, hg', hcomputes⟩

/-- Appending an operator. -/
theorem addNode (h : g.Linked k) {kind : OpKind} {inputs : List TensorId} {c : TensorCompute} {op : Operator} {d : DType}
    {shape : List Int64} (hc : c.Defines k g.tensors inputs kind.fusionClass.level d shape)
    (hop : Graph.operator { g with nextId := g.nextId + 1 } kind inputs g.nextId c = .ok (op, g')) :
    Linked k { g' with nodes := g'.nodes ++ [op] } := by
  obtain ⟨-, houtput, rfl, hcomputes⟩ := h.operator_nextId hc hop
  refine ⟨fun old hold => ?_, ?_,
    forall_lookup_insert (Nat.lt_succ_self _) fun x i hx => Nat.lt_succ_of_lt (h.below x i hx)⟩
  · rcases List.mem_append.mp hold with hold | hold
    · exact h.computed_insert _ hold
    · rw [List.mem_singleton.mp hold]
      exact ⟨d, shape, hcomputes⟩
  · rw [outputsOf, List.map_append]
    refine h.nodup.append (List.nodup_singleton _) fun id hid hlast => ?_
    obtain ⟨old, hold, rfl⟩ := mem_outputsOf.mp hid
    rw [List.map_singleton, List.mem_singleton, houtput] at hlast
    exact (h.ne_nextId_of_mem_nodes hold).1 hlast

/-- A step keeps a graph linked, if its operators reduce over extents of the kind. -/
theorem outcome (h : g.Linked k) (houtcome : BuildStep.Outcome k g g')
    (hextents : ∀ op ∈ g'.nodes, k.HasExtents op.computation.value) : g'.Linked k := by
  cases houtcome with
  | refused => exact h
  | skipped => exact h.skip
  | recorded info inputs => exact h.addTensor info inputs
  | marked outputs => exact h.withOutputs outputs
  | @appended kind inputs c op grown hdefines hop =>
    obtain ⟨hvalue, -⟩ := value_of_operator hop
    have hlast := hextents op (List.mem_append_right _ (List.mem_singleton_self op))
    rw [hvalue] at hlast
    obtain ⟨d, shape, hc⟩ := hdefines hlast
    exact h.addNode hc hop

end Linked

/-- What holds of the empty graph and is kept by every step holds of the graphs that are built in steps. -/
theorem build_keeps {P : Graph → Prop} (hempty : P {}) (hstep : ∀ g (step : BuildStep), P g → P (step.apply g))
    (steps : List BuildStep) : P (build steps) :=
  List.foldlRecOn steps BuildStep.apply hempty fun g hg step _ => hstep g step hg

/-! ## Built graphs -/

/-- A well-formed graph under construction: its operators stand in order, tensors have the element types of one kind,
and what is recorded as computed is computed. -/
structure Built (k : ElementKind) (g : Graph) : Prop where
  linked : g.Linked k
  sorted : g.tensors.Sorted
  ordered : Ordered g.IsSource g.nodes
  kind : BuildStep.Typed k g
  produced : ∀ id info, g.tensors.lookup id = some info → info.source = .operator → id ∈ outputsOf g.nodes

namespace Built

theorem wellFormed (h : g.Built k) : g.WellFormed k :=
  ⟨h.sorted, h.ordered, h.linked.computed⟩

theorem empty : Built k {} where
  linked := .empty
  sorted := List.Pairwise.nil
  ordered := trivial
  kind id info h := by cases h
  produced id info h := by cases h

/-- Every recorded tensor has a value of its own or is computed. -/
theorem isSource_or_mem (h : g.Built k) {id : TensorId} {d : DType} {shape : List Int64}
    (htype : g.tensors.type? id = some (d, shape)) : g.IsSource id ∨ id ∈ outputsOf g.nodes := by
  obtain ⟨source, hlookup⟩ := TensorTable.type?_eq_some_iff.mp htype
  by_cases hsource : source = .operator
  · exact Or.inr (h.produced id _ hlookup hsource)
  · exact Or.inl ⟨_, hlookup, hsource⟩

theorem isSource_insert_iff {grown : Graph} {info : TensorInfo} (htable : grown.tensors = g.tensors.insert g.nextId info)
    {id : TensorId} (hne : id ≠ g.nextId) : grown.IsSource id ↔ g.IsSource id := by
  refine exists_congr fun info => and_congr_left fun _ => ?_
  rw [htable, TensorTable.lookup_insert, if_neg hne]

/-- The operators stay in order when a tensor is recorded under the next number. -/
theorem ordered_insert (h : g.Built k) {grown : Graph} {info : TensorInfo}
    (htable : grown.tensors = g.tensors.insert g.nextId info) : Ordered grown.IsSource g.nodes := by
  refine h.ordered.of_agree (fun op hop id hid => ?_) fun op hop => ?_
  · exact (isSource_insert_iff htable ((h.linked.ne_nextId_of_mem_nodes hop).2 id hid)).mpr
  · exact (isSource_insert_iff htable (h.linked.ne_nextId_of_mem_nodes hop).1).mp

/-- Recording a tensor that no operator computes. -/
theorem addTensor (h : g.Built k) (info : TensorInfo) (hkind : k.hasDType info.dtype) (hsource : info.source ≠ .operator)
    (inputs : List TensorId) :
    Built k { g with tensors := g.tensors.insert g.nextId info, nextId := g.nextId + 1, inputs := inputs } where
  linked := h.linked.addTensor info inputs
  sorted := TensorTable.Sorted.insert h.sorted _ _
  ordered := h.ordered_insert rfl
  kind := forall_lookup_insert hkind h.kind
  produced := forall_lookup_insert (fun hop => absurd hop hsource) h.produced

/-- Appending an operator. -/
theorem addNode (h : g.Built k) {kind : OpKind} {inputs : List TensorId} {c : TensorCompute} {op : Operator} {d : DType}
    {shape : List Int64} (hc : c.Defines k g.tensors inputs kind.fusionClass.level d shape)
    (hop : Graph.operator { g with nextId := g.nextId + 1 } kind inputs g.nextId c = .ok (op, g')) :
    Built k { g' with nodes := g'.nodes ++ [op] } := by
  have hlinked := h.linked.addNode hc hop
  obtain ⟨hinputs, houtput, rfl, -⟩ := h.linked.operator_nextId hc hop
  refine ⟨hlinked, TensorTable.Sorted.insert h.sorted _ _, ?_, forall_lookup_insert hc.kind h.kind,
    forall_lookup_insert (fun _ => ?_) fun x i hx hsource => ?_⟩
  · refine Ordered.append_singleton (h.ordered_insert rfl) (fun id hid => ?_) ?_ ?_
    · obtain ⟨d', shape', htype⟩ := hinputs id hid
      exact (h.isSource_or_mem htype).imp_left (isSource_insert_iff rfl (h.linked.ne_nextId htype)).mpr
    · rintro ⟨info, hinfo, hne⟩
      rw [houtput, TensorTable.lookup_insert, if_pos rfl] at hinfo
      cases hinfo
      exact hne rfl
    · rw [houtput]
      intro hmem
      obtain ⟨old, hold, hsame⟩ := mem_outputsOf.mp hmem
      exact (h.linked.ne_nextId_of_mem_nodes hold).1 hsame
  · exact mem_outputsOf.mpr ⟨op, List.mem_append_right _ (List.mem_singleton_self op), houtput⟩
  · obtain ⟨old, hold, hsame⟩ := mem_outputsOf.mp (h.produced x i hx hsource)
    exact mem_outputsOf.mpr ⟨old, List.mem_append_left _ hold, hsame⟩

/-- A step keeps a graph built, if its operators reduce over extents of the kind. -/
theorem outcome (h : g.Built k) (houtcome : BuildStep.Outcome k g g')
    (hextents : ∀ op ∈ g'.nodes, k.HasExtents op.computation.value) : g'.Built k := by
  cases houtcome with
  | refused => exact h
  | skipped => exact ⟨h.linked.skip, h.sorted, h.ordered, h.kind, h.produced⟩
  | recorded info inputs hkind hsource => exact h.addTensor info hkind hsource inputs
  | marked outputs => exact ⟨h.linked.withOutputs outputs, h.sorted, h.ordered, h.kind, h.produced⟩
  | @appended kind inputs c op grown hdefines hop =>
    obtain ⟨hvalue, -⟩ := value_of_operator hop
    have hlast := hextents op (List.mem_append_right _ (List.mem_singleton_self op))
    rw [hvalue] at hlast
    obtain ⟨d, shape, hc⟩ := hdefines hlast
    exact h.addNode hc hop

/-- Steps within a kind keep a graph built, if its operators reduce over extents of the kind in the end. -/
theorem foldl_apply (h : g.Built k) {steps : List BuildStep} (hsteps : ∀ step ∈ steps, k.hasStep step)
    (hextents : ∀ op ∈ (steps.foldl BuildStep.apply g).nodes, k.HasExtents op.computation.value) :
    Built k (steps.foldl BuildStep.apply g) := by
  induction steps generalizing g with
  | nil => exact h
  | cons step steps ih =>
    rw [List.foldl_cons] at hextents
    have houtcome := BuildStep.outcome_apply h.kind (hsteps step List.mem_cons_self)
    have hstep : Built k (step.apply g) :=
      h.outcome houtcome fun op hop => hextents op (BuildStep.mem_nodes_foldl_apply hop)
    exact ih hstep (fun step hmem => hsteps step (List.mem_cons_of_mem _ hmem)) hextents

end Built

/-- What building in steps over floats keeps. -/
theorem built_build {steps : List BuildStep} (hsteps : ∀ step ∈ steps, step.hasKind .real) :
    (build steps).Built .real :=
  Built.empty.foldl_apply hsteps fun _ _ _ _ _ _ _ _ _ => rfl

/-- Graphs that are built in steps over floats are well-formed. -/
theorem wellFormed_build {steps : List BuildStep} (hsteps : ∀ step ∈ steps, step.hasKind .real) :
    (build steps).WellFormed .real :=
  (built_build hsteps).wellFormed

/-- What building in any steps keeps, whatever element types they mix. -/
theorem built_build_mixed (steps : List BuildStep) : (build steps).Built .mixed :=
  Built.empty.foldl_apply (fun _ _ => rfl) fun _ _ _ _ _ _ _ _ _ => rfl

/-- Graphs that are built in any steps are well-formed, whatever element types they mix. -/
theorem wellFormed_build_mixed (steps : List BuildStep) : (build steps).WellFormed .mixed :=
  (built_build_mixed steps).wellFormed

end Graph

end TensorCompiler
