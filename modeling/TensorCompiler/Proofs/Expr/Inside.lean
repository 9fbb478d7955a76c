import TensorCompiler.Proofs.Expr.Points

/-! # Reads inside of tensors

An evaluation fails outside of a tensor where an index is below zero or not below the extent. Whether it does is a property
of the run: a chain of steps stays inside if each step does, and a read stays inside if its indices lie in the shape of the
array.
-/

namespace TensorCompiler

/-- Whether a failure is that of a read outside of a tensor. -/
def Error.isOutside : Error → Bool
  | .eval (.negativeIndex ..) | .eval (.outOfBounds ..) => true
  | _ => false

/-- Whether a computation does not fail at a read outside of a tensor. -/
def StaysInside {α : Type} (x : Except Error α) : Prop :=
  ∀ e, x = .error e → e.isOutside = false

namespace StaysInside

variable {α β : Type}

theorem ok (a : α) : StaysInside (.ok a) := by
  intro e h
  cases h

theorem error {e : Error} (he : e.isOutside = false) : StaysInside (.error e : Except Error α) := by
  intro e' h
  cases h
  exact he

theorem bind {x : Except Error α} {f : α → Except Error β} (hx : StaysInside x)
    (hf : ∀ a, x = .ok a → StaysInside (f a)) : StaysInside (x >>= f) := by
  cases x with
  | error e => exact error (hx e rfl)
  | ok a => exact hf a rfl

theorem foldlM {step : β → α → Except Error β} {xs : List α} {init : β}
    (hstep : ∀ x ∈ xs, ∀ acc, StaysInside (step acc x)) : StaysInside (xs.foldlM step init) := by
  intro e h
  obtain ⟨x, hx, acc, hfails⟩ := exists_of_foldlM_eq_error h
  exact hstep x hx acc e hfails

end StaysInside

/-- Whether an array has as many elements as a shape has points, in its extents. -/
structure NDArray.HasShape (a : NDArray) (shape : List Int64) : Prop where
  shape_eq : a.shape = extentsOf shape
  size_eq : a.data.size = (grid shape).length

theorem NDArray.HasShape.exists_get? {a : NDArray} {shape : List Int64} (h : a.HasShape shape) {index : List Nat}
    (hindex : InShape (extentsOf shape) index) : ∃ x, a.get? index = some x := by
  obtain ⟨k, hk⟩ := hindex.exists_position?
  have hlt : k < a.data.size := h.size_eq ▸ (List.getElem?_eq_some_iff.mp (getElem?_grid hk)).1
  refine ⟨a.data[k], ?_⟩
  rw [NDArray.get?, h.shape_eq, hk]
  exact Array.getElem?_eq_getElem _

variable [FloatOps] {tensors : Tensors} {env : Env}

namespace Expr

theorem staysInside_eval_binary {op : BinaryOp} {lhs rhs : Expr} (hl : StaysInside (lhs.eval tensors env))
    (hr : StaysInside (rhs.eval tensors env)) : StaysInside ((binary op lhs rhs).eval tensors env) := by
  rw [eval]
  refine hl.bind fun a _ => hr.bind fun b _ => ?_
  split
  · exact .ok _
  · exact .error rfl

/-- An element whose indices lie in the shape of the tensor, as far as there is an array for the tensor. -/
theorem staysInside_eval_element {name : String} {dtype : ScalarType} {shape : Option (List Expr)} {indices : List Expr}
    {extents : List Int64} {ns : List Nat} (harray : ∀ a, tensors.lookup name = some a → a.HasShape extents)
    (hindices : List.Forall₂ (fun e n => e.eval tensors env = .ok (.int (Int64.ofNat n))) indices ns)
    (hinside : InShape (extentsOf extents) ns) :
    StaysInside ((element (tensorInput name dtype shape) indices).eval tensors env) := by
  have hvalues : evalIndices tensors env indices = .ok ns :=
    evalIndices_eq_ok_iff.mpr (forall₂_imp_of_mem hindices.flip fun n hn e he => ⟨he, hinside.lt_word n hn⟩).flip
  rw [eval]
  cases ha : tensors.lookup name with
  | none => exact .error rfl
  | some a =>
    obtain ⟨x, hx⟩ := (harray a ha).exists_get? hinside
    simp only [hvalues, bind_ok, NDArray.read, hx]
    exact .ok _

theorem staysInside_eval_reduce {kind : ReduceKind} {extents : List Int64} {axes : List Var} {value : Expr}
    (hvalue : ∀ point ∈ points extents, StaysInside (value.eval tensors (env.bind axes (point.map .int)))) :
    StaysInside ((reduce kind (ofShape extents) axes value).eval tensors env) := by
  have hcombine : ∀ (acc : Option Value) (v : Value), StaysInside (kind.accumulate acc v) := by
    intro acc v
    cases acc with
    | none => exact .ok _
    | some a =>
      unfold ReduceKind.accumulate
      simp only
      split
      · exact .ok _
      · exact .error rfl
  rw [eval, constShape?_ofShape]
  refine (StaysInside.foldlM fun point hpoint acc => (hvalue point hpoint).bind fun v _ => hcombine acc v).bind
    fun acc _ => ?_
  split
  · exact .ok _
  · exact .error rfl

end Expr

/-- A definition stays inside if its value does at each point of its shape. -/
theorem TensorCompute.staysInside_evaluate {c : TensorCompute} {shape : List Int64} (hshape : c.constShape? = some shape)
    (hvalue : ∀ point ∈ points shape, StaysInside (c.value.eval tensors (c.pointEnv point))) :
    StaysInside (c.evaluate tensors) := by
  simp only [evaluate, hshape]
  split
  · exact .error rfl
  · exact (StaysInside.foldlM fun point hpoint acc => (hvalue point hpoint).bind fun v _ => .ok _).bind fun data _ => .ok _

end TensorCompiler
