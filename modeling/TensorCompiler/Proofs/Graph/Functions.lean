import TensorCompiler.Proofs.Graph.Build

/-! # Operators that apply functions

In a graph that is built in steps, the kind of an operator that applies a function to elements says what it computes: the
function of the kind at each element of its one input, or at each pair of elements of its two operands. The passes rely
on it where they look at kinds only. Passes that merge operators give the result a kind of its own.
-/

namespace TensorCompiler

/-- Whether an operator applies the function of its kind to the tensors that it reads. Kinds without a function are not
looked at. -/
def Operator.Applies (T : TensorTable) (op : Operator) : Prop :=
  match op.kind with
  | .unary fn => ∃ x d shape, T.type? x = some (d, shape) ∧ op.inputs = [x] ∧
      op.computation = .unary fn (.ofShape x.name d shape) d shape op.output.name
  | .binary fn => ∃ a b da sa db sb shape, T.type? a = some (da, sa) ∧ T.type? b = some (db, sb) ∧
      broadcastShape? sa sb = some shape ∧ op.inputs = GraphM.pairInputs a b ∧
      op.computation = .binary fn (.ofShape a.name da sa) (.ofShape b.name db sb) shape op.output.name
  | _ => True

namespace Operator.Applies

variable {T T' : TensorTable} {op : Operator}

theorem mono (h : op.Applies T) (htypes : ∀ id type, T.type? id = some type → T'.type? id = some type) :
    op.Applies T' := by
  unfold Operator.Applies at h ⊢
  cases hkind : op.kind with
  | unary fn =>
    rw [hkind] at h
    obtain ⟨x, d, shape, htype, hop⟩ := h
    exact ⟨x, d, shape, htypes x _ htype, hop⟩
  | binary fn =>
    rw [hkind] at h
    obtain ⟨a, b, da, sa, db, sb, shape, ha, hb, hop⟩ := h
    exact ⟨a, b, da, sa, db, sb, shape, htypes a _ ha, htypes b _ hb, hop⟩
  | matmul | conv2d | reduce | fused => trivial

theorem exists_unary (h : op.Applies T) {fn : UnaryFn} (hkind : op.kind = .unary fn) :
    ∃ x d shape, T.type? x = some (d, shape) ∧ op.inputs = [x] ∧
      op.computation = .unary fn (.ofShape x.name d shape) d shape op.output.name := by
  rw [Operator.Applies, hkind] at h
  exact h

theorem exists_binary (h : op.Applies T) {fn : BinaryFn} (hkind : op.kind = .binary fn) :
    ∃ a b da sa db sb shape, T.type? a = some (da, sa) ∧ T.type? b = some (db, sb) ∧
      broadcastShape? sa sb = some shape ∧ op.inputs = GraphM.pairInputs a b ∧
      op.computation = .binary fn (.ofShape a.name da sa) (.ofShape b.name db sb) shape op.output.name := by
  rw [Operator.Applies, hkind] at h
  exact h

end Operator.Applies

namespace BuildStep

variable {k : ElementKind} {g g' : Graph}

/-- What recorded tensors there are stays known after a step. -/
theorem Outcome.type?_mono (h : Outcome k g g') (hlinked : g.Linked k) {id : TensorId} {type : DType × List Int64}
    (htype : g.tensors.type? id = some type) : g'.tensors.type? id = some type := by
  have hinsert (info : TensorInfo) : (g.tensors.insert g.nextId info).type? id = some type :=
    (Graph.type?_insert_of_ne info (hlinked.ne_nextId htype)).trans htype
  cases h with
  | refused | skipped | marked => exact htype
  | recorded info => exact hinsert info
  | appended _ hop =>
    obtain ⟨d, shape, -, -, -, -, -, -, -, rfl⟩ := Graph.operator_eq_ok_iff.mp hop
    exact hinsert _

/-- Whether the operators that a step appends apply the functions of their kinds. -/
def Appends (g g' : Graph) : Prop :=
  ∀ op ∈ g'.nodes, op ∈ g.nodes ∨ op.Applies g.tensors

theorem Appends.refl (g : Graph) : Appends g g :=
  fun _ hop => Or.inl hop

theorem appends_addOperator {kind : OpKind} {inputs : List TensorId} {define : String → TensorCompute}
    (hdefine : ∀ op : Operator, op.kind = kind → op.inputs = inputs →
      op.computation = { define op.output.name with name := op.output.name } → op.Applies g.tensors) :
    Appends g ((GraphM.addOperator kind inputs define).stateAfter g) := by
  rcases GraphM.stateAfter_addOperator kind inputs define g with hafter | hafter
  · rw [hafter]
    exact .refl g
  · rw [hafter]
    cases hop : Graph.operator { g with nextId := g.nextId + 1 } kind inputs g.nextId
        (define (TensorId.name g.nextId)) with
    | error e => exact .refl g
    | ok result =>
      obtain ⟨op, grown⟩ := result
      obtain ⟨d, shape, args, task, -, -, -, htask, rfl, rfl⟩ := Graph.operator_eq_ok_iff.mp hop
      obtain ⟨d', -, rfl⟩ := Task.ofCompute_eq_ok_iff.mp htask
      intro op hmem
      refine (List.mem_append.mp hmem).imp_right fun hlast => ?_
      rw [List.mem_singleton.mp hlast]
      exact hdefine _ rfl rfl rfl

/-- What a step appends applies the function of its kind. -/
theorem appends_apply (g : Graph) (step : BuildStep) : Appends g (step.apply g) := by
  have htype {id : TensorId} {info : TensorInfo} (hinfo : g.tensor id = .ok info) :
      g.tensors.type? id = some (info.dtype, info.shape) := TensorTable.type?_of_lookup (Graph.tensor_eq_ok_iff.mp hinfo)
  have hother {op : Operator} {kind : OpKind} (hkind : op.kind = kind) (hunary : ∀ fn, kind ≠ .unary fn)
      (hbinary : ∀ fn, kind ≠ .binary fn) : op.Applies g.tensors := by
    rw [Operator.Applies, hkind]
    cases kind with
    | unary fn => exact absurd rfl (hunary fn)
    | binary fn => exact absurd rfl (hbinary fn)
    | matmul | conv2d | reduce | fused => trivial
  cases step with
  | input name dtype shape | constant value dtype => exact fun _ hop => Or.inl hop
  | unary fn x =>
    refine GraphM.after_tensor_bind (.refl g) fun info hinfo => appends_addOperator fun op hkind hinputs hop => ?_
    rw [Operator.Applies, hkind]
    exact ⟨x, info.dtype, info.shape, htype hinfo, hinputs, hop⟩
  | binary fn a b =>
    refine GraphM.after_tensor_bind (.refl g) fun lhs hlhs => GraphM.after_tensor_bind (.refl g) fun rhs hrhs => ?_
    refine GraphM.after_ofExcept_bind (.refl g) fun shape hshape => appends_addOperator fun op hkind hinputs hop => ?_
    rw [Operator.Applies, hkind]
    exact ⟨a, b, lhs.dtype, lhs.shape, rhs.dtype, rhs.shape, shape, htype hlhs, htype hrhs,
      broadcastShape_eq_ok_iff.mp hshape, hinputs, hop⟩
  | matmul a b =>
    refine GraphM.after_tensor_bind (.refl g) fun lhs hlhs => GraphM.after_tensor_bind (.refl g) fun rhs hrhs => ?_
    refine GraphM.after_ofExcept_bind (.refl g) fun _ _ => GraphM.after_ofExcept_bind (.refl g) fun _ _ => ?_
    split
    · split_ifs
      · exact .refl g
      · exact appends_addOperator fun op hkind _ _ => hother hkind (by simp) (by simp)
    · exact .refl g
  | conv2d x w stride padding =>
    refine GraphM.after_tensor_bind (.refl g) fun image _ => GraphM.after_tensor_bind (.refl g) fun kernel _ => ?_
    refine GraphM.after_ofExcept_bind (.refl g) fun _ _ => GraphM.after_ofExcept_bind (.refl g) fun _ _ => ?_
    split
    · exact .refl g
    · exact appends_addOperator fun op hkind _ _ => hother hkind (by simp) (by simp)
  | reduceAxis kind x axis =>
    refine GraphM.after_tensor_bind (.refl g) fun info _ => ?_
    split_ifs
    · exact .refl g
    · exact appends_addOperator fun op hkind _ _ => hother hkind (by simp) (by simp)
  | output id =>
    change Appends g (if g.isOutput id then g else { g with outputs := g.outputs ++ [id] })
    split_ifs <;> exact fun _ hop => Or.inl hop

end BuildStep

/-- In a graph that is built in steps, every operator applies the function of its kind. -/
theorem Graph.applies_build (steps : List BuildStep) :
    ∀ op ∈ (Graph.build steps).nodes, op.Applies (Graph.build steps).tensors := by
  have hsteps : ∀ g : Graph, g.Linked .mixed → (∀ op ∈ g.nodes, op.Applies g.tensors) →
      ∀ op ∈ (steps.foldl BuildStep.apply g).nodes, op.Applies (steps.foldl BuildStep.apply g).tensors := by
    induction steps with
    | nil => exact fun g _ h => h
    | cons step steps ih =>
      intro g hlinked h
      have houtcome : BuildStep.Outcome .mixed g (step.apply g) := BuildStep.outcome_apply (BuildStep.typed_mixed g) rfl
      have hlinked' : (step.apply g).Linked .mixed := hlinked.outcome houtcome fun _ _ _ _ _ _ _ _ _ => rfl
      refine ih _ hlinked' fun op hop => ?_
      have hold : op.Applies g.tensors := (BuildStep.appends_apply g step op hop).elim (h op) id
      exact hold.mono fun id type htype => houtcome.type?_mono hlinked htype
  exact hsteps {} .empty fun op hop => absurd hop List.not_mem_nil

end TensorCompiler
