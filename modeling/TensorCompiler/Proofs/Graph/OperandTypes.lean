import TensorCompiler.Proofs.Expr.FoldTyping
import TensorCompiler.Proofs.Graph.Build

/-! # Element types of operands

An operator whose operands have fitting shapes is appended if the element of its result has a type. Arithmetic has one
only if both operands have the same. A call has the type of its first argument whatever the others are, so `max` accepts
operands of two types and gives a tensor of the first one.
-/

namespace TensorCompiler

/-! ## Elements -/

namespace Expr

variable {lhs rhs : Expr} {a b : DType}

/-- The type of an operation on operands of known types. -/
theorem inferType_binary (op : BinaryOp) (hl : lhs.HasDType a) (hr : rhs.HasDType b) :
    (binary op lhs rhs).inferType =
      if a = b then .ok (.ofDType (op.typeOn a)) else .error (.typeMismatch op.symbol a b) := by
  split_ifs with hab
  · subst hab
    exact hl.binary op hr
  · rw [HasDType] at hl hr
    simp [inferType, hl, hr, Ty.ofDType, Ty.scalarOrFault, unify, hab, bind, Except.bind]

theorem hasDType_elementAt (name : String) (d : DType) (shape : List Int64) (indices : List Expr) :
    ((TensorInput.ofShape name d shape).elementAt indices).HasDType d := by
  rw [TensorInput.elementAt, HasDType, inferType, TensorInput.ofShape, TensorInput.toExpr, inferType]
  rfl

end Expr

/-- The operation of a binary function. The greater of two elements is a call. -/
def BinaryFn.operation? : BinaryFn → Option BinaryOp
  | .add => some .add
  | .sub => some .sub
  | .mul => some .mul
  | .div => some .div
  | .max => none

namespace BinaryFn

variable {fn : BinaryFn} {op : BinaryOp} {x y : Expr} {a b : DType}

theorem operation?_eq_none_iff : fn.operation? = none ↔ fn = .max := by
  cases fn <;> simp [operation?]

theorem toExpr_of_operation? (h : fn.operation? = some op) : fn.toExpr x y = .binary op x y ∧ op.typeOn a = a := by
  cases fn <;> cases h <;> exact ⟨rfl, rfl⟩

/-- Operands of one type give an element of it, and so do operands of any types of which the greater is taken. -/
theorem hasDType_toExpr (hx : x.HasDType a) (hy : y.HasDType b) (h : a = b ∨ fn = .max) : (fn.toExpr x y).HasDType a := by
  cases hop : fn.operation? with
  | none =>
    obtain rfl := operation?_eq_none_iff.mp hop
    exact (Expr.inferType_call_eq (by decide)).trans hx
  | some op =>
    obtain ⟨hexpr, htype⟩ := toExpr_of_operation? (x := x) (y := y) (a := a) hop
    have hab : a = b := h.resolve_right fun hmax => by simp [hmax, operation?] at hop
    rw [hexpr, Expr.HasDType, Expr.inferType_binary op hx hy, if_pos hab, htype]

theorem inferType_toExpr_of_ne (hx : x.HasDType a) (hy : y.HasDType b) (hop : fn.operation? = some op) (hab : a ≠ b) :
    (fn.toExpr x y).inferType = .error (.typeMismatch op.symbol a b) := by
  rw [(toExpr_of_operation? (a := a) hop).1, Expr.inferType_binary op hx hy, if_neg hab]

end BinaryFn

/-! ## Appending -/

section

variable {g : Graph} {kind : OpKind} {inputs : List TensorId} {output : TensorId} {c : TensorCompute}
  {shape : List Int64} {d : DType} {e : Error}

namespace Graph

theorem exists_mapM_tensorInput (hinputs : ∀ id ∈ inputs, ∃ info, g.tensor id = .ok info) :
    ∃ args, inputs.mapM g.tensorInput = .ok args := by
  refine exists_mapM fun id hid => ?_
  obtain ⟨info, hinfo⟩ := hinputs id hid
  exact ⟨.ofShape id.name info.dtype info.shape, by rw [tensorInput, hinfo]; rfl⟩

/-- A definition of an element without a type makes no operator. -/
theorem operator_eq_error (hshape : c.constShape? = some shape) (hinputs : ∀ id ∈ inputs, ∃ info, g.tensor id = .ok info)
    (h : c.value.inferType = .error e) : g.operator kind inputs output c = .error e := by
  obtain ⟨args, hargs⟩ := exists_mapM_tensorInput hinputs
  have hnamed : TensorCompute.constShape? { c with name := output.name } = some shape := hshape
  have htask (name : String) (worker : Worker) :
      Task.ofCompute name args { c with name := output.name } worker = .error e := by
    rw [Task.ofCompute, TensorCompute.elementType, h]
    rfl
  simp only [operator, hnamed, hargs, bind_ok, htask]
  rfl

/-- A definition of an element of known type makes an operator, whose output is recorded. -/
theorem exists_operator_of_hasDType (hshape : c.constShape? = some shape)
    (hinputs : ∀ id ∈ inputs, ∃ info, g.tensor id = .ok info) (h : c.value.HasDType d) :
    ∃ op, g.operator kind inputs output c =
      .ok (op, { g with tensors := g.tensors.insert output ⟨d, shape, .operator⟩ }) := by
  obtain ⟨args, hargs⟩ := exists_mapM_tensorInput hinputs
  exact ⟨_, operator_eq_ok_iff.mpr
    ⟨d, shape, args, _, hshape, h, mapM_eq_ok_iff.mp hargs, Task.ofCompute_eq_ok_iff.mpr ⟨d, h, rfl⟩, rfl, rfl⟩⟩

end Graph

namespace GraphM

variable {define : String → TensorCompute}

theorem run_check_of_known (hinputs : ∀ id ∈ inputs, ∃ info, g.tensor id = .ok info) :
    EStateM.run (inputs.forM fun id => do discard (ofExcept ((← get).tensor id))) g = .ok () g := by
  refine (run_check inputs g).resolve_right ?_
  rintro ⟨id, hid, e, he, -⟩
  obtain ⟨info, hinfo⟩ := hinputs id hid
  cases hinfo.symm.trans he

/-- An operator whose inputs are known takes the next tensor number before it is made. -/
theorem run_addOperator (hinputs : ∀ id ∈ inputs, ∃ info, g.tensor id = .ok info) :
    (addOperator kind inputs define).run g =
      match Graph.operator { g with nextId := g.nextId + 1 } kind inputs g.nextId (define (TensorId.name g.nextId)) with
      | .ok (op, grown) => .ok g.nextId { grown with nodes := grown.nodes ++ [op] }
      | .error e => .error e { g with nextId := g.nextId + 1 } := by
  rw [addOperator, run_bind, run_check_of_known hinputs]
  change (ofExcept (Graph.operator { g with nextId := g.nextId + 1 } kind inputs g.nextId
    (define (TensorId.name g.nextId))) >>= _).run { g with nextId := g.nextId + 1 } = _
  rw [run_ofExcept_bind]
  cases Graph.operator { g with nextId := g.nextId + 1 } kind inputs g.nextId (define (TensorId.name g.nextId)) <;> rfl

/-- A definition of an element of known type is appended. -/
theorem run_addOperator_of_hasDType (hinputs : ∀ id ∈ inputs, ∃ info, g.tensor id = .ok info)
    (hshape : (define (TensorId.name g.nextId)).constShape? = some shape)
    (h : (define (TensorId.name g.nextId)).value.HasDType d) :
    ∃ op, (addOperator kind inputs define).run g = .ok g.nextId { g with
      tensors := g.tensors.insert g.nextId ⟨d, shape, .operator⟩
      nodes := g.nodes ++ [op]
      nextId := g.nextId + 1 } := by
  obtain ⟨op, hop⟩ : ∃ op, Graph.operator { g with nextId := g.nextId + 1 } kind inputs g.nextId
      (define (TensorId.name g.nextId)) = _ := Graph.exists_operator_of_hasDType hshape hinputs h
  rw [run_addOperator hinputs, hop]
  exact ⟨op, rfl⟩

/-- A definition of an element without a type is refused once its tensor number is taken. -/
theorem run_addOperator_of_error (hinputs : ∀ id ∈ inputs, ∃ info, g.tensor id = .ok info)
    (hshape : (define (TensorId.name g.nextId)).constShape? = some shape)
    (h : (define (TensorId.name g.nextId)).value.inferType = .error e) :
    (addOperator kind inputs define).run g = .error e { g with nextId := g.nextId + 1 } := by
  have hop : Graph.operator { g with nextId := g.nextId + 1 } kind inputs g.nextId (define (TensorId.name g.nextId)) =
      .error e := Graph.operator_eq_error hshape hinputs h
  rw [run_addOperator hinputs, hop]

/-! ## Binary operators -/

variable {fn : BinaryFn} {op : BinaryOp} {a b : TensorId} {lhs rhs : TensorInfo}

theorem forall_mem_pairInputs (ha : g.tensor a = .ok lhs) (hb : g.tensor b = .ok rhs) :
    ∀ id ∈ pairInputs a b, ∃ info, g.tensor id = .ok info := by
  intro id hid
  rcases TensorCompute.mem_pairInputs.mp hid with rfl | rfl
  · exact ⟨lhs, ha⟩
  · exact ⟨rhs, hb⟩

theorem run_binary_of_broadcast (ha : g.tensor a = .ok lhs) (hb : g.tensor b = .ok rhs)
    (hshape : broadcastShape? lhs.shape rhs.shape = some shape) :
    (binary fn a b).run g =
      (addOperator (.binary fn) (pairInputs a b)
        (TensorCompute.binary fn (asInput a lhs) (asInput b rhs) shape)).run g := by
  simp only [binary, run_tensor_bind, ha, hb, run_ofExcept_bind, broadcastShape_eq_ok_iff.mpr hshape]

/-- Shapes that do not fit are refused before anything is changed. -/
theorem run_binary_of_shapes (ha : g.tensor a = .ok lhs) (hb : g.tensor b = .ok rhs)
    (hshape : broadcastShape? lhs.shape rhs.shape = none) :
    (binary fn a b).run g = .error (.shapeMismatch fn.name lhs.shape rhs.shape) g := by
  simp only [binary, run_tensor_bind, ha, hb, run_ofExcept_bind, broadcastShape, hshape]

/-- The element of a binary operator, with the types of the elements that it reads. -/
theorem exists_value_binary (fn : BinaryFn) (a b : TensorId) (lhs rhs : TensorInfo) (shape : List Int64) (id : TensorId) :
    ∃ x y, x.HasDType lhs.dtype ∧ y.HasDType rhs.dtype ∧
      (TensorCompute.binary fn (asInput a lhs) (asInput b rhs) shape id.name).value = fn.toExpr x y := by
  refine ⟨TensorCompute.readAt a lhs.dtype lhs.shape shape id, TensorCompute.readAt b rhs.dtype rhs.shape shape id,
    Expr.hasDType_elementAt _ _ _ _, Expr.hasDType_elementAt _ _ _ _, ?_⟩
  rw [asInput, asInput, TensorCompute.value_binary]
  rfl

/-- The tensor of a binary operator has the element type of the first operand. -/
theorem exists_run_binary (ha : g.tensor a = .ok lhs) (hb : g.tensor b = .ok rhs)
    (hshape : broadcastShape? lhs.shape rhs.shape = some shape) (htype : lhs.dtype = rhs.dtype ∨ fn = .max) :
    ∃ op, (binary fn a b).run g = .ok g.nextId { g with
      tensors := g.tensors.insert g.nextId ⟨lhs.dtype, shape, .operator⟩
      nodes := g.nodes ++ [op]
      nextId := g.nextId + 1 } := by
  obtain ⟨x, y, hx, hy, hvalue⟩ := exists_value_binary fn a b lhs rhs shape g.nextId
  rw [run_binary_of_broadcast ha hb hshape]
  refine run_addOperator_of_hasDType (forall_mem_pairInputs ha hb) (Expr.constShape?_ofShape shape) ?_
  rw [hvalue]
  exact BinaryFn.hasDType_toExpr hx hy htype

/-- Arithmetic on two types is refused after a tensor number is taken. -/
theorem run_binary_of_types (ha : g.tensor a = .ok lhs) (hb : g.tensor b = .ok rhs)
    (hshape : broadcastShape? lhs.shape rhs.shape = some shape) (htype : lhs.dtype ≠ rhs.dtype)
    (hop : fn.operation? = some op) :
    (binary fn a b).run g = .error (.typeMismatch op.symbol lhs.dtype rhs.dtype) { g with nextId := g.nextId + 1 } := by
  obtain ⟨x, y, hx, hy, hvalue⟩ := exists_value_binary fn a b lhs rhs shape g.nextId
  rw [run_binary_of_broadcast ha hb hshape]
  refine run_addOperator_of_error (forall_mem_pairInputs ha hb) (Expr.constShape?_ofShape shape) ?_
  rw [hvalue]
  exact BinaryFn.inferType_toExpr_of_ne hx hy hop htype

/-- A binary operator is appended exactly if the shapes of its operands broadcast and their element types are equal, of
which `max` does not ask. Otherwise it is refused for the shapes if they do not broadcast, and for the types if they do. -/
theorem binary_appends_iff (ha : g.tensor a = .ok lhs) (hb : g.tensor b = .ok rhs) :
    ((∃ t g', (binary fn a b).run g = .ok t g') ↔
        (∃ shape, broadcastShape? lhs.shape rhs.shape = some shape) ∧ (lhs.dtype = rhs.dtype ∨ fn = .max)) ∧
      (broadcastShape? lhs.shape rhs.shape = none →
        ∃ g', (binary fn a b).run g = .error (.shapeMismatch fn.name lhs.shape rhs.shape) g') ∧
      ∀ shape, broadcastShape? lhs.shape rhs.shape = some shape → lhs.dtype ≠ rhs.dtype → fn ≠ .max →
        ∃ op g', (binary fn a b).run g = .error (.typeMismatch op lhs.dtype rhs.dtype) g' := by
  have hmismatch {shape : List Int64} (hshape : broadcastShape? lhs.shape rhs.shape = some shape)
      (htype : lhs.dtype ≠ rhs.dtype) (hmax : fn ≠ .max) :
      ∃ op g', (binary fn a b).run g = .error (.typeMismatch op lhs.dtype rhs.dtype) g' := by
    obtain ⟨op, hop⟩ := Option.ne_none_iff_exists'.mp fun h => hmax (BinaryFn.operation?_eq_none_iff.mp h)
    exact ⟨_, _, run_binary_of_types ha hb hshape htype hop⟩
  refine ⟨⟨?_, ?_⟩, fun hshape => ⟨g, run_binary_of_shapes ha hb hshape⟩, fun _ => hmismatch⟩
  · rintro ⟨t, g', hrun⟩
    cases hshape : broadcastShape? lhs.shape rhs.shape with
    | none =>
      rw [run_binary_of_shapes ha hb hshape] at hrun
      cases hrun
    | some shape =>
      refine ⟨⟨shape, rfl⟩, ?_⟩
      by_contra h
      obtain ⟨htype, hmax⟩ := not_or.mp h
      obtain ⟨_, _, hfails⟩ := hmismatch hshape htype hmax
      cases hfails.symm.trans hrun
  · rintro ⟨⟨shape, hshape⟩, htype⟩
    obtain ⟨_, hrun⟩ := exists_run_binary ha hb hshape htype
    exact ⟨_, _, hrun⟩

end GraphM

end

/-- A tensor of floats and one of integers. -/
def Graph.mixedPair : Graph :=
  .build [.input "x" .float32 [4], .input "y" .int32 [4]]

namespace GraphM

/-- The sum of floats and integers is refused for their types. -/
theorem binary_add_mixedPair :
    (¬ ∃ t g', (binary .add 0 1).run Graph.mixedPair = .ok t g') ∧
      ∃ op g', (binary .add 0 1).run Graph.mixedPair = .error (.typeMismatch op .float32 .int32) g' := by
  have hlhs : Graph.mixedPair.tensor 0 = .ok ⟨.float32, [4], .input "x"⟩ := rfl
  have hrhs : Graph.mixedPair.tensor 1 = .ok ⟨.int32, [4], .input "y"⟩ := rfl
  obtain ⟨hiff, -, htypes⟩ := @binary_appends_iff _ .add _ _ _ _ hlhs hrhs
  refine ⟨fun h => ?_, htypes [4] rfl (by decide) (by decide)⟩
  obtain ⟨-, htype | hmax⟩ := hiff.mp h
  · cases htype
  · cases hmax

/-- The greater of floats and integers is taken. -/
theorem binary_max_mixedPair : ∃ t g', (binary .max 0 1).run Graph.mixedPair = .ok t g' := by
  have hlhs : Graph.mixedPair.tensor 0 = .ok ⟨.float32, [4], .input "x"⟩ := rfl
  have hrhs : Graph.mixedPair.tensor 1 = .ok ⟨.int32, [4], .input "y"⟩ := rfl
  obtain ⟨_, hrun⟩ := exists_run_binary hlhs hrhs rfl (Or.inr rfl)
  exact ⟨_, _, hrun⟩

end GraphM

end TensorCompiler
