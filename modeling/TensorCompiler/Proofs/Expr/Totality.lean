import TensorCompiler.Proofs.Expr.Inside
import TensorCompiler.Proofs.Scalar.Typing

/-! # Values that are always there

Arithmetic on floats is never undefined, and neither is a reduction of floats, over nothing included. So a definition over
floats has a float at each point of its shape as soon as its reads lie inside of the arrays, and then it gives an array of
its shape.
-/

namespace TensorCompiler

/-! ## Indices in parts -/

namespace InShape

variable {shape shape' : List Int64} {index index' : List Nat}

theorem take (h : InShape (extentsOf shape) index) (n : Nat) : InShape (extentsOf (shape.take n)) (index.take n) := by
  rw [extentsOf, List.map_take]
  exact List.forall₂_take n h

theorem drop (h : InShape (extentsOf shape) index) (n : Nat) : InShape (extentsOf (shape.drop n)) (index.drop n) := by
  rw [extentsOf, List.map_drop]
  exact List.forall₂_drop n h

theorem append (h : InShape (extentsOf shape) index) (h' : InShape (extentsOf shape') index') :
    InShape (extentsOf (shape ++ shape')) (index ++ index') := by
  rw [extentsOf, List.map_append]
  exact List.rel_append h h'

end InShape

variable [FloatOps] {tensors : Tensors} {env : Env}

/-! ## Reductions of floats -/

namespace ReduceKind

theorem exists_merge? (kind : ReduceKind) (x y : Float) : ∃ z, kind.merge? (.float x) (.float y) = some (.float z) := by
  cases kind <;> exact ⟨_, rfl⟩

theorem exists_accumulate (kind : ReduceKind) (xs : List Float) :
    ∃ acc, (xs.map Value.float).foldlM kind.accumulate none = .ok acc ∧ ∀ v, acc = some v → ∃ x, v = .float x := by
  refine exists_foldlM (fun v hv acc hacc => ?_) (by simp)
  obtain ⟨x, -, rfl⟩ := List.mem_map.mp hv
  cases acc with
  | none => exact ⟨_, rfl, fun w hw => ⟨x, (Option.some.inj hw).symm⟩⟩
  | some total =>
    obtain ⟨y, rfl⟩ := hacc total rfl
    obtain ⟨z, hz⟩ := kind.exists_merge? y x
    exact ⟨some (.float z), by rw [accumulate, hz], fun w hw => ⟨z, (Option.some.inj hw).symm⟩⟩

theorem exists_finish?_float (kind : ReduceKind) {acc : Option Value} (hacc : ∀ v, acc = some v → ∃ x, v = .float x) (count : Int64) :
    ∃ x, kind.finish? acc count = some (.float x) := by
  cases acc with
  | none => cases kind <;> exact ⟨_, rfl⟩
  | some total =>
    obtain ⟨x, rfl⟩ := hacc total rfl
    cases kind <;> exact ⟨_, rfl⟩

end ReduceKind

/-! ## Expressions -/

namespace Expr

/-- Whether expressions have the coordinates of an index for their values. -/
def HaveIndex (tensors : Tensors) (env : Env) (es : List Expr) (index : List Nat) : Prop :=
  List.Forall₂ (fun e i => e.eval tensors env = .ok (.int (Int64.ofNat i))) es index

namespace HaveIndex

variable {es es' : List Expr} {index index' : List Nat}

theorem take (h : HaveIndex tensors env es index) (n : Nat) : HaveIndex tensors env (es.take n) (index.take n) :=
  List.forall₂_take n h

theorem drop (h : HaveIndex tensors env es index) (n : Nat) : HaveIndex tensors env (es.drop n) (index.drop n) :=
  List.forall₂_drop n h

theorem append (h : HaveIndex tensors env es index) (h' : HaveIndex tensors env es' index') :
    HaveIndex tensors env (es ++ es') (index ++ index') :=
  List.rel_append h h'

theorem evalIndices_eq {shape : List Int64} (h : HaveIndex tensors env es index)
    (hinside : InShape (extentsOf shape) index) : evalIndices tensors env es = .ok index :=
  evalIndices_eq_ok_iff.mpr (forall₂_imp_of_mem h.flip fun i hi _ he => ⟨he, hinside.lt_word i hi⟩).flip

end HaveIndex

/-- The value of a float element is the element of the array. -/
theorem eval_elementAt {a : NDArray} {name : String} {d : DType} {shape : List Int64} {indices : List Expr}
    {index : List Nat} {x : Float} (declared : List Int64) (hd : d.isFloat) (ha : tensors.lookup name = some a) (hx : a.get? index = some x)
    (hindices : HaveIndex tensors env indices index) (hinside : InShape (extentsOf shape) index) :
    ((TensorInput.ofShape name d declared).elementAt indices).eval tensors env = .ok (.float x) := by
  have hvalues := evalIndices_eq_ok_iff.mp (hindices.evalIndices_eq hinside)
  refine eval_element_eq_ok_iff.mpr ⟨a, index, x, ha, hvalues, hx, ?_⟩
  cases d <;> first | rfl | cases hd

/-- Zero of a float type. -/
theorem eval_literal_zero {d : DType} (hd : d.isFloat) : (Expr.literal (.int 0) d).eval tensors env = .ok (.float 0.0) := by
  refine eval_const_eq_ok_iff.mpr ?_
  cases d <;> first | rfl | cases hd

/-- Reductions of the same floats have the same float for their value. -/
theorem exists_eval_reduce (kind : ReduceKind) (extents : List Int64) (xs : List Float) :
    ∃ y, ∀ tensors env axes value, List.Forall₂ (fun point x =>
        eval tensors (env.bind axes (point.map .int)) value = .ok (.float x)) (points extents) xs →
      (Expr.reduce kind (ofShape extents) axes value).eval tensors env = .ok (.float y) := by
  obtain ⟨acc, hacc, hfloat⟩ := kind.exists_accumulate xs
  obtain ⟨y, hy⟩ := kind.exists_finish?_float hfloat (Int64.ofNat (points extents).length)
  refine ⟨y, fun tensors env axes value hxs => eval_reduce_eq_ok_iff.mpr ?_⟩
  exact ⟨extents, xs.map .float, acc, constShape?_ofShape extents, List.forall₂_map_right_iff.mpr hxs, hacc, hy⟩

/-- Reductions of values that agree at each point agree. -/
theorem exists_eval_reduce_of_agree {kind : ReduceKind} {extents : List Int64} {tensors' : Tensors} {env' : Env}
    {axes axes' : List Var} {value value' : Expr}
    (hvalue : ∀ point ∈ points extents, ∃ x, value.eval tensors (env.bind axes (point.map .int)) = .ok (.float x) ∧
      value'.eval tensors' (env'.bind axes' (point.map .int)) = .ok (.float x)) :
    ∃ y, (Expr.reduce kind (ofShape extents) axes value).eval tensors env = .ok (.float y) ∧
      (Expr.reduce kind (ofShape extents) axes' value').eval tensors' env' = .ok (.float y) := by
  obtain ⟨xs, hxs⟩ := exists_forall₂ hvalue
  obtain ⟨y, hy⟩ := exists_eval_reduce kind extents xs
  exact ⟨y, hy _ _ _ _ (hxs.imp fun _ _ h => h.1), hy _ _ _ _ (hxs.imp fun _ _ h => h.2)⟩

/-- Whether an expression has a value, which is a float. -/
def GivesFloat (tensors : Tensors) (env : Env) (e : Expr) : Prop :=
  ∃ x, e.eval tensors env = .ok (.float x)

namespace GivesFloat

variable {x y : Expr}

/-- A read of a float element inside of the array. -/
theorem elementAt {a : NDArray} {name : String} {d : DType} {shape : List Int64} {indices : List Expr}
    {index : List Nat} (hd : d.isFloat) (ha : tensors.lookup name = some a) (hshape : a.HasShape shape)
    (hindices : HaveIndex tensors env indices index) (hinside : InShape (extentsOf shape) index) :
    ((TensorInput.ofShape name d shape).elementAt indices).GivesFloat tensors env := by
  obtain ⟨x, hx⟩ := hshape.exists_get? hinside
  exact ⟨x, eval_elementAt shape hd ha hx hindices hinside⟩

theorem zero {d : DType} (hd : d.isFloat) : (Expr.literal (.int 0) d).GivesFloat tensors env :=
  ⟨0.0, eval_literal_zero hd⟩

theorem neg (hx : x.GivesFloat tensors env) : (-x).GivesFloat tensors env := by
  obtain ⟨a, ha⟩ := hx
  exact ⟨_, eval_unary_eq_ok_iff.mpr ⟨_, ha, rfl⟩⟩

theorem binary {op : BinaryOp} (hop : op ∈ [.add, .sub, .mul, .div]) (hx : x.GivesFloat tensors env)
    (hy : y.GivesFloat tensors env) : (Expr.binary op x y).GivesFloat tensors env := by
  obtain ⟨a, ha⟩ := hx
  obtain ⟨b, hb⟩ := hy
  simp only [List.mem_cons, List.not_mem_nil, or_false] at hop
  rcases hop with rfl | rfl | rfl | rfl
  all_goals exact ⟨_, eval_binary_eq_ok_iff.mpr ⟨_, _, ha, hb, rfl⟩⟩

theorem call {func : String} (hfunc : ∀ a, ∃ b, Intrinsic.real? func a = some b) (hx : x.GivesFloat tensors env) :
    (Expr.call func [x]).GivesFloat tensors env := by
  obtain ⟨a, ha⟩ := hx
  obtain ⟨b, hb⟩ := hfunc a
  exact ⟨b, eval_call_one_eq_ok_iff.mpr ⟨_, ha, congrArg (Option.map Value.float) hb⟩⟩

theorem max (hx : x.GivesFloat tensors env) (hy : y.GivesFloat tensors env) :
    (Expr.call "max" [x, y]).GivesFloat tensors env := by
  obtain ⟨a, ha⟩ := hx
  obtain ⟨b, hb⟩ := hy
  exact ⟨_, eval_call_pair_eq_ok_iff.mpr ⟨_, _, ha, hb, rfl⟩⟩

theorem reduce {kind : ReduceKind} {extents : List Int64} {axes : List Var} {value : Expr}
    (hvalue : ∀ point ∈ points extents, value.GivesFloat tensors (env.bind axes (point.map .int))) :
    (Expr.reduce kind (ofShape extents) axes value).GivesFloat tensors env := by
  obtain ⟨xs, hxs⟩ := exists_forall₂ hvalue
  obtain ⟨y, hy⟩ := exists_eval_reduce kind extents xs
  exact ⟨y, hy _ _ _ _ hxs⟩

end GivesFloat

end Expr

/-! ## Definitions -/

namespace TensorCompute

variable {c : TensorCompute} {shape : List Int64}

/-- A definition gives the array of the floats that its value has at the points. -/
theorem evaluate_of_forall₂ (hshape : c.constShape? = some shape) (hextents : ∀ n ∈ shape, 0 ≤ n) {xs : List Float}
    (hxs : List.Forall₂ (fun point x => c.value.eval tensors (c.pointEnv point) = .ok (.float x)) (points shape) xs) :
    c.evaluate tensors = .ok ⟨extentsOf shape, xs.toArray⟩ := by
  refine evaluate_eq_ok_iff.mpr
    ⟨shape, xs.map .float, hshape, hextents, List.forall₂_map_right_iff.mpr hxs, ?_⟩
  rw [List.map_map]
  exact congrArg (fun ys => NDArray.mk _ (List.toArray ys)) (List.map_id xs).symm

/-- A definition gives an array of its shape if it has a value at each point. -/
theorem exists_evaluate (hshape : c.constShape? = some shape) (hextents : ∀ n ∈ shape, 0 ≤ n)
    (hvalue : ∀ point ∈ points shape, c.value.GivesFloat tensors (c.pointEnv point)) :
    ∃ a, c.evaluate tensors = .ok a ∧ a.HasShape shape := by
  obtain ⟨xs, hxs⟩ := exists_forall₂ hvalue
  refine ⟨_, evaluate_of_forall₂ hshape hextents hxs, rfl, ?_⟩
  rw [List.size_toArray, ← hxs.length_eq, points_eq_grid]

/-- Definitions of one shape whose values agree at each point give the same array. -/
theorem exists_evaluate_of_agree {tensors' : Tensors} {c' : TensorCompute} (hshape : c.constShape? = some shape)
    (hshape' : c'.constShape? = some shape) (hextents : ∀ n ∈ shape, 0 ≤ n)
    (hvalue : ∀ point ∈ points shape, ∃ x, c.value.eval tensors (c.pointEnv point) = .ok (.float x) ∧
      c'.value.eval tensors' (c'.pointEnv point) = .ok (.float x)) :
    ∃ a, c.evaluate tensors = .ok a ∧ c'.evaluate tensors' = .ok a := by
  obtain ⟨xs, hxs⟩ := exists_forall₂ hvalue
  exact ⟨_, evaluate_of_forall₂ hshape hextents (hxs.imp fun _ _ h => h.1),
    evaluate_of_forall₂ hshape' hextents (hxs.imp fun _ _ h => h.2)⟩

end TensorCompute

end TensorCompiler
