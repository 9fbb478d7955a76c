import TensorCompiler.Proofs.Graph.OperandTypes

/-! # Refused operators

Almost every operator that is refused is refused before anything of the graph is changed. Operands of two element types
are noticed last, when the task of the operator is made: its tensor number is taken by then and is not given back, so the
operators that follow get other names than without the attempt. Nothing else of the graph changes.
-/

namespace TensorCompiler

/-- The operator that a step appends. -/
def BuildStep.operator? : BuildStep → Option (GraphM TensorId)
  | unary fn x => some (GraphM.unary fn x)
  | binary fn a b => some (GraphM.binary fn a b)
  | matmul a b => some (GraphM.matmul a b)
  | conv2d x w stride padding => some (GraphM.conv2d x w stride padding)
  | reduceAxis kind x axis => some (GraphM.reduceAxis kind x axis)
  | input .. | constant .. | output _ => none

/-- What an error leaves of a graph. -/
inductive Graph.Refusal (g : Graph) : Error → Graph → Prop
  | early {e : Error} (h : e.kind ≠ "TypeMismatch") : Refusal g e g
  | late (op : String) (a b : DType) : Refusal g (.typeMismatch op a b) { g with nextId := g.nextId + 1 }

/-! ## Elements -/

namespace Expr

variable {e lhs rhs : Expr} {a b d : DType}

/-- Whether an element has a type, or operands of two types. -/
def IsChecked (e : Expr) : Prop :=
  (∃ d, e.HasDType d) ∨ ∃ op a b, e.inferType = .error (.typeMismatch op a b)

theorem HasDType.isChecked (h : e.HasDType d) : e.IsChecked :=
  .inl ⟨d, h⟩

theorem isChecked_binary (op : BinaryOp) (hl : lhs.HasDType a) (hr : rhs.HasDType b) : (binary op lhs rhs).IsChecked := by
  by_cases hab : a = b
  · subst hab
    exact (hl.binary op hr).isChecked
  · exact .inr ⟨op.symbol, a, b, by rw [inferType_binary op hl hr, if_neg hab]⟩

theorem IsChecked.reduce {kind : ReduceKind} {shape : List Expr} {axes : List Var} (h : e.IsChecked) :
    (reduce kind shape axes e).IsChecked := by
  simpa only [IsChecked, HasDType, inferType] using h

end Expr

theorem UnaryFn.hasDType_toExpr (fn : UnaryFn) {x : Expr} {d : DType} (h : x.HasDType d) : (fn.toExpr d x).HasDType d := by
  cases fn with
  | neg => exact h.unary .neg
  | relu | exp | sigmoid | tanh | sqrt | abs => exact (Expr.inferType_call_eq (by decide)).trans h

theorem BinaryFn.isChecked_toExpr (fn : BinaryFn) {x y : Expr} {a b : DType} (hx : x.HasDType a) (hy : y.HasDType b) :
    (fn.toExpr x y).IsChecked := by
  cases fn with
  | add | sub | mul | div => exact Expr.isChecked_binary _ hx hy
  | max => exact (hasDType_toExpr hx hy (.inr rfl)).isChecked

/-! ## Actions -/

namespace GraphM

variable {α : Type} {g : Graph}

/-- Whether an action that fails leaves what its error says. -/
def Refuses (g : Graph) (action : GraphM α) : Prop :=
  ∀ e g', action.run g = .error e g' → g.Refusal e g'

theorem refuses_throw {e : Error} (h : e.kind ≠ "TypeMismatch") : Refuses g (throw e : GraphM α) := by
  intro e' g' hrun
  cases hrun
  exact .early h

theorem refuses_ofExcept_bind {β : Type} {x : Except Error β} {f : β → GraphM α}
    (hx : ∀ e, x = .error e → e.kind ≠ "TypeMismatch") (hf : ∀ b, x = .ok b → Refuses g (f b)) :
    Refuses g (ofExcept x >>= f) := by
  intro e g' hrun
  rw [run_ofExcept_bind] at hrun
  cases x with
  | error e' =>
    cases hrun
    exact .early (hx e rfl)
  | ok b => exact hf b rfl e g' hrun

theorem kind_of_tensor {id : TensorId} {e : Error} (h : g.tensor id = .error e) : e.kind ≠ "TypeMismatch" := by
  unfold Graph.tensor at h
  split at h <;> cases h
  simp [Error.kind]

theorem refuses_tensor_bind {id : TensorId} {f : TensorInfo → GraphM α}
    (hf : ∀ info, g.tensor id = .ok info → Refuses g (f info)) : Refuses g (tensor id >>= f) := by
  intro e g' hrun
  rw [run_tensor_bind] at hrun
  cases hinfo : g.tensor id with
  | error e' =>
    rw [hinfo] at hrun
    cases hrun
    exact .early (kind_of_tensor hinfo)
  | ok info =>
    rw [hinfo] at hrun
    exact hf info hinfo e g' hrun

theorem kind_of_expectRank {op : String} {shape : List Int64} {rank : Nat} {e : Error}
    (h : expectRank op shape rank = .error e) : e.kind ≠ "TypeMismatch" := by
  unfold expectRank at h
  split_ifs at h
  cases h
  simp [Error.kind]

/-- An operator of known inputs whose element is checked is refused for the types of its operands only. -/
theorem refuses_addOperator {kind : OpKind} {inputs : List TensorId} {define : String → TensorCompute}
    {shape : List Int64} (hinputs : ∀ id ∈ inputs, ∃ info, g.tensor id = .ok info)
    (hshape : (define (TensorId.name g.nextId)).constShape? = some shape)
    (hvalue : (define (TensorId.name g.nextId)).value.IsChecked) : Refuses g (addOperator kind inputs define) := by
  intro e g' hrun
  rcases hvalue with ⟨d, hd⟩ | ⟨op, a, b, herror⟩
  · obtain ⟨op, hok⟩ : ∃ op, (addOperator kind inputs define).run g = _ := run_addOperator_of_hasDType hinputs hshape hd
    cases hok.symm.trans hrun
  · cases (run_addOperator_of_error hinputs hshape herror).symm.trans hrun
    exact .late op a b

/-! ## Operators -/

theorem refuses_unary (fn : UnaryFn) (x : TensorId) : Refuses g (unary fn x) := by
  refine refuses_tensor_bind fun info hinfo => ?_
  refine refuses_addOperator (by simp [hinfo]) (Expr.constShape?_ofShape info.shape) ?_
  exact (fn.hasDType_toExpr (Expr.hasDType_elementAt _ _ _ _)).isChecked

theorem refuses_binary (fn : BinaryFn) (a b : TensorId) : Refuses g (binary fn a b) := by
  refine refuses_tensor_bind fun lhs hlhs => refuses_tensor_bind fun rhs hrhs => refuses_ofExcept_bind ?_ fun shape _ => ?_
  · intro e he
    unfold broadcastShape at he
    split at he <;> cases he
    simp [Error.kind]
  · obtain ⟨x, y, hx, hy, hvalue⟩ := exists_value_binary fn a b lhs rhs shape g.nextId
    refine refuses_addOperator (forall_mem_pairInputs hlhs hrhs) (Expr.constShape?_ofShape shape) ?_
    rw [hvalue]
    exact fn.isChecked_toExpr hx hy

theorem refuses_matmul (a b : TensorId) : Refuses g (matmul a b) := by
  refine refuses_tensor_bind fun lhs hlhs => refuses_tensor_bind fun rhs hrhs => ?_
  refine refuses_ofExcept_bind (fun _ => kind_of_expectRank) fun _ _ => ?_
  refine refuses_ofExcept_bind (fun _ => kind_of_expectRank) fun _ _ => ?_
  split
  · split_ifs
    · exact refuses_throw (by simp [Error.kind])
    · refine refuses_addOperator (forall_mem_pairInputs hlhs hrhs) (Expr.constShape?_ofShape _) ?_
      exact (Expr.isChecked_binary .mul (Expr.hasDType_elementAt _ _ _ _) (Expr.hasDType_elementAt _ _ _ _)).reduce
  · exact refuses_throw (by simp [Error.kind])

theorem refuses_conv2d (x w : TensorId) (stride padding : Int64 × Int64) : Refuses g (conv2d x w stride padding) := by
  refine refuses_tensor_bind fun image himage => refuses_tensor_bind fun kernel hkernel => ?_
  refine refuses_ofExcept_bind (fun _ => kind_of_expectRank) fun _ _ => ?_
  refine refuses_ofExcept_bind (fun _ => kind_of_expectRank) fun _ _ => ?_
  split
  · exact refuses_throw (by simp [Error.kind])
  · refine refuses_addOperator (by simp [himage, hkernel]) (Expr.constShape?_ofShape _) ?_
    -- a position in the padding reads a zero of the type of the image
    refine (Expr.isChecked_binary .mul (a := image.dtype) ?_ (Expr.hasDType_elementAt _ _ _ _)).reduce
    dsimp only
    split_ifs
    · exact Expr.hasDType_elementAt _ _ _ _
    · exact .ite (Expr.hasDType_elementAt _ _ _ _) (Expr.hasDType_literal _ _)

theorem refuses_reduceAxis (kind : ReduceKind) (x : TensorId) (axis : Nat) : Refuses g (reduceAxis kind x axis) := by
  refine refuses_tensor_bind fun info hinfo => ?_
  split_ifs
  · exact refuses_throw (by simp [Error.kind])
  · refine refuses_addOperator (by simp [hinfo]) (Expr.constShape?_ofShape _) ?_
    exact (Expr.hasDType_elementAt _ _ _ _).isChecked.reduce

theorem refuses_of_operator? {step : BuildStep} {action : GraphM TensorId} (h : step.operator? = some action) :
    Refuses g action := by
  cases step with
  | unary fn x => exact Option.some.inj h ▸ refuses_unary fn x
  | binary fn a b => exact Option.some.inj h ▸ refuses_binary fn a b
  | matmul a b => exact Option.some.inj h ▸ refuses_matmul a b
  | conv2d x w stride padding => exact Option.some.inj h ▸ refuses_conv2d x w stride padding
  | reduceAxis kind x axis => exact Option.some.inj h ▸ refuses_reduceAxis kind x axis
  | input | constant | output => cases h

/-- An operator that is refused leaves the graph as it was, unless its operands have two types, which costs a tensor
number. -/
theorem eq_of_run_eq_error {step : BuildStep} {action : GraphM TensorId} {e : Error} {g' : Graph}
    (hstep : step.operator? = some action) (h : action.run g = .error e g') :
    g' = if e.kind = "TypeMismatch" then { g with nextId := g.nextId + 1 } else g := by
  cases refuses_of_operator? hstep e g' h with
  | early hkind => rw [if_neg hkind]
  | late op a b => rw [Error.kind, if_pos rfl]

/-- A reduction along an axis that the tensor lacks changes nothing, a sum of floats and integers takes a number. -/
theorem eq_of_run_mixedPair :
    (∀ e g', (reduceAxis .sum 0 1).run Graph.mixedPair = .error e g' → e.kind = "InvalidOperand" ∧ g' = Graph.mixedPair) ∧
      ∀ e g', (binary .add 0 1).run Graph.mixedPair = .error e g' →
        e.kind = "TypeMismatch" ∧ g' = { Graph.mixedPair with nextId := 3 } := by
  have hreduce : (reduceAxis .sum 0 1).run Graph.mixedPair =
      .error (.invalidOperand (.axisOutOfRange 1 [4])) Graph.mixedPair := rfl
  have hadd : (binary .add 0 1).run Graph.mixedPair =
      .error (.typeMismatch "+" .float32 .int32) { Graph.mixedPair with nextId := 3 } := rfl
  constructor
  · intro e g' h
    obtain rfl : e = .invalidOperand (.axisOutOfRange 1 [4]) := by
      cases hreduce.symm.trans h
      rfl
    have hstep : (BuildStep.reduceAxis .sum 0 1).operator? = some (reduceAxis .sum 0 1) := rfl
    exact ⟨rfl, eq_of_run_eq_error hstep h⟩
  · intro e g' h
    obtain rfl : e = .typeMismatch "+" .float32 .int32 := by
      cases hadd.symm.trans h
      rfl
    have hstep : (BuildStep.binary .add 0 1).operator? = some (binary .add 0 1) := rfl
    exact ⟨rfl, eq_of_run_eq_error hstep h⟩

/-- After a sum of floats and integers the next tensor has another number than without it. -/
theorem run_unary_after_mixedPair :
    ∃ e g', (binary .add 0 1).run Graph.mixedPair = .error e g' ∧ g' ≠ Graph.mixedPair ∧
      (∃ grown, (unary .exp 0).run Graph.mixedPair = .ok 2 grown) ∧ ∃ grown, (unary .exp 0).run g' = .ok 3 grown := by
  refine ⟨.typeMismatch "+" .float32 .int32, { Graph.mixedPair with nextId := 3 }, rfl, ?_, ⟨_, rfl⟩, _, rfl⟩
  intro h
  cases congrArg Graph.nextId h

end GraphM

end TensorCompiler
