import TensorCompiler.Expr.Eval
import TensorCompiler.Proofs.Result

/-! # When an expression has a value

For each kind of node, the values of its parts from which it gets its value.
-/

namespace TensorCompiler.Expr

variable [FloatOps] {tensors : Tensors} {env : Env} {v : Value}

theorem eval_var_eq_ok_iff {w : Var} : (var w).eval tensors env = .ok v ↔ env.lookup w.name = some v := by
  rw [eval]
  cases env.lookup w.name <;> simp

theorem eval_const_eq_ok_iff {value : Value} {d : DType} :
    (const value d).eval tensors env = .ok v ↔ value = v := by
  rw [eval_const, Except.ok.injEq]

theorem eval_unary_eq_ok_iff {op : UnaryOp} {arg : Expr} :
    (unary op arg).eval tensors env = .ok v ↔ ∃ a, arg.eval tensors env = .ok a ∧ op.eval? a = some v := by
  rw [eval, bind_eq_ok_iff]
  refine exists_congr fun a => and_congr_right fun _ => ?_
  cases op.eval? a <;> simp [pure, Except.pure, throw, throwThe, MonadExceptOf.throw]

theorem eval_binary_eq_ok_iff {op : BinaryOp} {lhs rhs : Expr} :
    (binary op lhs rhs).eval tensors env = .ok v ↔
      ∃ a b, lhs.eval tensors env = .ok a ∧ rhs.eval tensors env = .ok b ∧ op.eval? a b = some v := by
  simp only [eval, bind_eq_ok_iff, exists_and_left]
  refine exists_congr fun a => and_congr_right fun _ => exists_congr fun b => and_congr_right fun _ => ?_
  cases op.eval? a b <;> simp [pure, Except.pure, throw, throwThe, MonadExceptOf.throw]

theorem eval_letIn_eq_ok_iff {w : Var} {value body : Expr} :
    (letIn w value body).eval tensors env = .ok v ↔
      ∃ a, value.eval tensors env = .ok a ∧ body.eval tensors ((w.name, a) :: env) = .ok v := by
  rw [eval, bind_eq_ok_iff]

theorem eval_ite_eq_ok_iff {cond thenE elseE : Expr} :
    (ite cond thenE elseE).eval tensors env = .ok v ↔
      ∃ c, cond.eval tensors env = .ok c ∧
        if c.truthy then thenE.eval tensors env = .ok v else elseE.eval tensors env = .ok v := by
  rw [eval, bind_eq_ok_iff]
  refine exists_congr fun c => and_congr_right fun _ => ?_
  split <;> rfl

theorem evalAll_eq_ok_iff {es : List Expr} {vs : List Value} :
    evalAll tensors env es = .ok vs ↔ List.Forall₂ (fun e v => e.eval tensors env = .ok v) es vs := by
  have hmap : evalAll tensors env es = es.mapM fun e => e.eval tensors env := by
    induction es with
    | nil => rfl
    | cons e es ih => rw [evalAll, List.mapM_cons, ih]
  rw [hmap, mapM_eq_ok_iff]

theorem eval_call_eq_ok_iff {func : String} {args : List Expr} :
    (call func args).eval tensors env = .ok v ↔
      ∃ values, List.Forall₂ (fun e v => e.eval tensors env = .ok v) args values ∧
        Intrinsic.eval? func values = some v := by
  simp only [eval, bind_eq_ok_iff, evalAll_eq_ok_iff]
  refine exists_congr fun values => and_congr_right fun _ => ?_
  cases Intrinsic.eval? func values <;> simp [pure, Except.pure, throw, throwThe, MonadExceptOf.throw]

theorem eval_call_one_eq_ok_iff {func : String} {arg : Expr} :
    (call func [arg]).eval tensors env = .ok v ↔
      ∃ a, arg.eval tensors env = .ok a ∧ Intrinsic.eval? func [a] = some v := by
  rw [eval_call_eq_ok_iff]
  simp only [List.forall₂_cons_left_iff, List.forall₂_nil_left_iff]
  constructor
  · rintro ⟨_, ⟨a, _, ha, rfl, rfl⟩, hv⟩
    exact ⟨a, ha, hv⟩
  · rintro ⟨a, ha, hv⟩
    exact ⟨[a], ⟨a, [], ha, rfl, rfl⟩, hv⟩

theorem eval_call_pair_eq_ok_iff {func : String} {lhs rhs : Expr} :
    (call func [lhs, rhs]).eval tensors env = .ok v ↔
      ∃ a b, lhs.eval tensors env = .ok a ∧ rhs.eval tensors env = .ok b ∧ Intrinsic.eval? func [a, b] = some v := by
  rw [eval_call_eq_ok_iff]
  simp only [List.forall₂_cons_left_iff, List.forall₂_nil_left_iff]
  constructor
  · rintro ⟨_, ⟨a, _, ha, ⟨b, _, hb, rfl, rfl⟩, rfl⟩, hv⟩
    exact ⟨a, b, ha, hb, hv⟩
  · rintro ⟨a, b, ha, hb, hv⟩
    exact ⟨[a, b], ⟨a, [b], ha, ⟨b, [], hb, rfl, rfl⟩, rfl⟩, hv⟩

theorem eval_cast_eq_ok_iff {target : Ty} {arg : Expr} :
    (cast target arg).eval tensors env = .ok v ↔
      ∃ a d, arg.eval tensors env = .ok a ∧ target = .ofDType d ∧ a.cast d = v := by
  simp only [eval, bind_eq_ok_iff, exists_and_left]
  refine exists_congr fun a => and_congr_right fun _ => ?_
  split
  · simp [Ty.ofDType, pure, Except.pure]
  · rename_i hother
    constructor
    · intro h
      cases h
    · rintro ⟨d, rfl, -⟩
      exact absurd rfl (hother d)

/-! ## Elements and reductions -/

omit [FloatOps] in
/-- A value stands for an index if it is that number. -/
theorem toIndex_eq_ok_iff {w : Value} {e : Expr} {n : Nat} :
    w.toIndex e = .ok n ↔ w = .int (Int64.ofNat n) ∧ n < 2 ^ 63 := by
  cases w with
  | int i =>
    have hnat : i.toNatClampNeg = i.toInt.toNat := rfl
    have hupper := i.toInt_lt
    rw [Value.toIndex, Value.int.injEq, ← Int64.toInt_inj]
    split_ifs with hnonneg
    · have hsign : 0 ≤ i.toInt := Int64.le_iff_toInt_le.mp hnonneg
      constructor
      · intro h
        cases h
        rw [Int64.toInt_ofNat_of_lt (by omega)]
        omega
      · rintro ⟨heq, hn⟩
        rw [Int64.toInt_ofNat_of_lt hn] at heq
        rw [hnat, heq]
        rfl
    · constructor
      · intro h
        cases h
      · rintro ⟨heq, hn⟩
        rw [Int64.toInt_ofNat_of_lt hn] at heq
        have hsign : (0 : Int64).toInt ≤ i.toInt := by
          rw [heq]
          exact Int.natCast_nonneg n
        exact absurd (Int64.le_iff_toInt_le.mpr hsign) hnonneg
  | bool b =>
    constructor
    · intro h
      cases h
    · rintro ⟨h, -⟩
      cases h
  | float x =>
    constructor
    · intro h
      cases h
    · rintro ⟨h, -⟩
      cases h

theorem evalIndices_eq_ok_iff {es : List Expr} {ns : List Nat} :
    evalIndices tensors env es = .ok ns ↔
      List.Forall₂ (fun e n => e.eval tensors env = .ok (.int (Int64.ofNat n)) ∧ n < 2 ^ 63) es ns := by
  have hmap : evalIndices tensors env es = es.mapM fun e => e.eval tensors env >>= fun w => w.toIndex e := by
    induction es with
    | nil => rfl
    | cons e es ih =>
      rw [evalIndices, List.mapM_cons, ih, bind_assoc]
  have hone (e : Expr) (n : Nat) : (e.eval tensors env >>= fun w => w.toIndex e) = .ok n ↔
      e.eval tensors env = .ok (.int (Int64.ofNat n)) ∧ n < 2 ^ 63 := by
    simp only [bind_eq_ok_iff, toIndex_eq_ok_iff]
    constructor
    · rintro ⟨w, hw, rfl, hn⟩
      exact ⟨hw, hn⟩
    · rintro ⟨hw, hn⟩
      exact ⟨_, hw, rfl, hn⟩
  rw [hmap, mapM_eq_ok_iff]
  simp only [hone]

theorem eval_element_eq_ok_iff {name : String} {dtype : ScalarType} {shape : Option (List Expr)} {indices : List Expr} :
    (element (tensorInput name dtype shape) indices).eval tensors env = .ok v ↔
      ∃ a ns x, tensors.lookup name = some a ∧
        List.Forall₂ (fun e n => e.eval tensors env = .ok (.int (Int64.ofNat n)) ∧ n < 2 ^ 63) indices ns ∧
          a.get? ns = some x ∧ v = (Value.float x).cast (dtype.known?.getD .float32) := by
  rw [eval]
  cases tensors.lookup name with
  | none => simp
  | some a =>
    simp only [bind_eq_ok_iff, evalIndices_eq_ok_iff, Option.some.injEq, NDArray.read]
    constructor
    · rintro ⟨ns, hns, hread⟩
      cases hx : a.get? ns with
      | none =>
        rw [hx] at hread
        cases hread
      | some x =>
        rw [hx] at hread
        cases hread
        exact ⟨a, ns, x, rfl, hns, hx, rfl⟩
    · rintro ⟨_, ns, x, rfl, hns, hx, rfl⟩
      refine ⟨ns, hns, ?_⟩
      rw [hx]

theorem eval_reduce_eq_ok_iff {kind : ReduceKind} {shape : List Expr} {axes : List Var} {value : Expr} :
    (reduce kind shape axes value).eval tensors env = .ok v ↔
      ∃ extents vs acc, constShape? shape = some extents ∧
        List.Forall₂ (fun point w => value.eval tensors (env.bind axes (point.map .int)) = .ok w) (points extents) vs ∧
          vs.foldlM kind.accumulate none = .ok acc ∧
            kind.finish? acc (Int64.ofNat (points extents).length) = some v := by
  rw [eval]
  cases constShape? shape with
  | none => simp
  | some extents =>
    simp only [bind_eq_ok_iff, foldlM_bind_eq_ok_iff, Option.some.injEq]
    constructor
    · rintro ⟨acc, ⟨vs, hvs, hacc⟩, hv⟩
      refine ⟨extents, vs, acc, rfl, hvs, hacc, ?_⟩
      split at hv
      · rename_i result hresult
        cases hv
        exact hresult
      · cases hv
    · rintro ⟨_, vs, acc, rfl, hvs, hacc, hv⟩
      refine ⟨acc, ⟨vs, hvs, hacc⟩, ?_⟩
      rw [hv]
      rfl

omit [FloatOps] in
theorem constShape?_ofShape (shape : List Int64) : constShape? (ofShape shape) = some shape := by
  induction shape with
  | nil => rfl
  | cons extent shape ih =>
    rw [constShape?, ofShape, List.map_cons, List.mapM_cons]
    change (constShape? (ofShape shape)).bind (fun ns => some (extent :: ns)) = _
    rw [ih]
    rfl

end TensorCompiler.Expr
