import TensorCompiler.Proofs.Graph.Functions
import TensorCompiler.Proofs.Graph.Rewiring

/-! # Algebraic simplification preserves results

Simplification replaces the output of an operator that repeats a tensor: a sum with zeros, a product with ones, a double
negation, a rectifier applied twice. Each rule is an identity of the operations on floats, which those of a machine need
not have on every number, so the identities are assumed. Element by element the replaced tensor is then the one that
stands for it, at the end of a chain of replacements as well.
-/

namespace TensorCompiler

/-- The identities that the rules of simplification rely on. A zero and a one are what compares equal to them. -/
structure FloatOps.HasIdentities [FloatOps] : Prop where
  add_zero : ∀ x z, eq z 0.0 = true → add x z = x
  zero_add : ∀ x z, eq z 0.0 = true → add z x = x
  sub_zero : ∀ x z, eq z 0.0 = true → sub x z = x
  mul_one : ∀ x u, eq u 1.0 = true → mul x u = x
  one_mul : ∀ x u, eq u 1.0 = true → mul u x = x
  div_one : ∀ x u, eq u 1.0 = true → div x u = x
  neg_neg : ∀ x, neg (neg x) = x
  max_max : ∀ x, max (max x 0.0) 0.0 = max x 0.0

/-! ## Functions on floats -/

namespace UnaryFn

variable [FloatOps]

/-- The function on a float. -/
def onFloats : UnaryFn → Float → Float
  | relu => fun x => FloatOps.max x 0.0
  | neg => FloatOps.neg
  | exp => FloatOps.exp
  | sigmoid => FloatOps.sigmoid
  | tanh => FloatOps.tanh
  | sqrt => FloatOps.sqrt
  | abs => FloatOps.abs

theorem eval_toExpr {fn : UnaryFn} {d : DType} (hd : d.isFloat) {arg : Expr} {V : Tensors} {env : Env} {v : Value}
    (heval : (fn.toExpr d arg).eval V env = .ok v) :
    ∃ a, arg.eval V env = .ok a ∧ ∀ x, a = .float x → v = .float (fn.onFloats x) := by
  cases fn with
  | relu =>
    obtain ⟨a, b, ha, hb, hv⟩ := Expr.eval_call_pair_eq_ok_iff.mp heval
    have hzero : b = .float 0.0 := by
      cases d with
      | float16 | float32 | float64 => exact (Except.ok.inj hb).symm
      | bool | int32 | int64 => cases hd
    refine ⟨a, ha, ?_⟩
    rintro x rfl
    rw [hzero] at hv
    exact (Option.some.inj hv).symm
  | neg =>
    obtain ⟨a, ha, hv⟩ := Expr.eval_unary_eq_ok_iff.mp heval
    refine ⟨a, ha, ?_⟩
    rintro x rfl
    exact (Option.some.inj hv).symm
  | exp | sigmoid | tanh | sqrt | abs =>
    obtain ⟨a, ha, hv⟩ := Expr.eval_call_one_eq_ok_iff.mp heval
    refine ⟨a, ha, ?_⟩
    rintro x rfl
    exact (Option.some.inj hv).symm

end UnaryFn

namespace BinaryFn

variable [FloatOps]

/-- The function on a pair of floats. -/
def onFloats : BinaryFn → Float → Float → Float
  | add => FloatOps.add
  | sub => FloatOps.sub
  | mul => FloatOps.mul
  | div => FloatOps.div
  | max => FloatOps.max

theorem eval_toExpr {fn : BinaryFn} {lhs rhs : Expr} {V : Tensors} {env : Env} {v : Value}
    (heval : (fn.toExpr lhs rhs).eval V env = .ok v) :
    ∃ a b, lhs.eval V env = .ok a ∧ rhs.eval V env = .ok b ∧
      ∀ x y, a = .float x → b = .float y → v = .float (fn.onFloats x y) := by
  cases fn with
  | add | sub | mul | div =>
    obtain ⟨a, b, ha, hb, hv⟩ := Expr.eval_binary_eq_ok_iff.mp heval
    refine ⟨a, b, ha, hb, ?_⟩
    rintro x y rfl rfl
    exact (Option.some.inj hv).symm
  | max =>
    obtain ⟨a, b, ha, hb, hv⟩ := Expr.eval_call_pair_eq_ok_iff.mp heval
    refine ⟨a, b, ha, hb, ?_⟩
    rintro x y rfl rfl
    exact (Option.some.inj hv).symm

/-- An identity keeps one of two operands where the other one has the value that it must have. -/
theorem onFloats_of_mem_identities (hops : FloatOps.HasIdentities) {fn : BinaryFn} {a b kept other : TensorId} {c : Float}
    (hentry : (kept, other, c) ∈ fn.identities a b) :
    (kept = a ∧ other = b ∧ ∀ x z, FloatOps.eq z c = true → fn.onFloats x z = x) ∨
      (kept = b ∧ other = a ∧ ∀ x z, FloatOps.eq z c = true → fn.onFloats z x = x) := by
  cases fn with
  | add =>
    rcases List.mem_pair.mp hentry with h | h
    · cases h
      exact Or.inl ⟨rfl, rfl, hops.add_zero⟩
    · cases h
      exact Or.inr ⟨rfl, rfl, hops.zero_add⟩
  | mul =>
    rcases List.mem_pair.mp hentry with h | h
    · cases h
      exact Or.inl ⟨rfl, rfl, hops.mul_one⟩
    · cases h
      exact Or.inr ⟨rfl, rfl, hops.one_mul⟩
  | sub =>
    cases List.mem_singleton.mp hentry
    exact Or.inl ⟨rfl, rfl, hops.sub_zero⟩
  | div =>
    cases List.mem_singleton.mp hentry
    exact Or.inl ⟨rfl, rfl, hops.div_one⟩
  | max => cases hentry

end BinaryFn

/-! ## Elements -/

theorem NDArray.lt_of_position? {shape : List Int64} {ns : List Nat} {m : Nat}
    (h : position? (extentsOf shape) ns = some m) : ∀ n ∈ ns, n < 2 ^ 63 := by
  induction shape generalizing ns m with
  | nil =>
    cases ns with
    | nil => exact nofun
    | cons n ns => cases h
  | cons extent shape ih =>
    cases ns with
    | nil => cases h
    | cons n ns =>
      obtain ⟨hlt, hrest⟩ := Option.ite_none_right_eq_some.mp h
      obtain ⟨m', hm', -⟩ := Option.map_eq_some_iff.mp hrest
      exact List.forall_mem_cons.mpr ⟨Nat.lt_trans hlt extent.toNatClampNeg_lt, ih hm'⟩

/-- An operand that already has the shape of the result is read at the axes of the result. -/
theorem broadcastIndices_self {shape : List Int64} {axes : List Expr} (hlength : axes.length = shape.length) :
    broadcastIndices shape shape axes = axes := by
  rw [broadcastIndices, Nat.sub_self, List.drop_zero]
  induction shape generalizing axes with
  | nil =>
    rw [List.length_eq_zero_iff.mp hlength]
    rfl
  | cons extent shape ih =>
    obtain ⟨axis, axes, rfl⟩ := List.exists_cons_of_length_eq_add_one hlength
    rw [List.zip_cons_cons, List.zipWith_cons_cons, ih (Nat.succ.inj hlength)]
    simp

/-- Whether a variable stands for a number below `2 ^ 63`. -/
def Env.Binds (env : Env) (v : Var) (n : Nat) : Prop :=
  env.lookup v.name = some (.int (Int64.ofNat n)) ∧ n < 2 ^ 63

section

variable [FloatOps] {V : Tensors} {x id : TensorId} {d : DType} {s shape : List Int64} {ns : List Nat} {v : Value}

/-- What a read of a float tensor gives is one of its elements. -/
theorem Expr.exists_element_of_eval (hd : d.isFloat) {indices : List Expr} {env : Env}
    (heval : ((TensorInput.ofShape x.name d s).elementAt indices).eval V env = .ok v) :
    ∃ ms y, List.Forall₂ (fun e n => e.eval V env = .ok (.int (Int64.ofNat n)) ∧ n < 2 ^ 63) indices ms ∧
      V.element x ms = some y ∧ v = .float y := by
  obtain ⟨a, ms, y, ha, hms, hy, rfl⟩ := eval_element_eq_ok_iff.mp heval
  have htype : (Value.float y).HasType d := hd
  exact ⟨ms, y, hms, Option.bind_eq_some_iff.mpr ⟨a, ha, hy⟩, htype.cast_eq⟩

omit [FloatOps] in
/-- A variable stands for one number below `2 ^ 63`, because different ones are different words. -/
theorem Env.rightUnique_binds (env : Env) : Relator.RightUnique env.Binds := by
  intro w n n' h h'
  have hsame := congrArg Int64.toInt (Value.int.inj (Option.some.inj (h.1.symm.trans h'.1)))
  rw [Int64.toInt_ofNat_of_lt h.2, Int64.toInt_ofNat_of_lt h'.2] at hsame
  exact Int.ofNat_inj.mp hsame

/-- Axes that are bound to the coordinates of a point give that point. -/
theorem Expr.eq_of_eval_axes {axes : List Var} {ms : List Nat} (hnodup : (axes.map Var.name).Nodup)
    (hlength : axes.length = ns.length) (hns : ∀ n ∈ ns, n < 2 ^ 63)
    (hms : List.Forall₂ (fun (e : Expr) n =>
      e.eval V (Env.bind [] axes ((ns.map Int64.ofNat).map .int)) = .ok (.int (Int64.ofNat n)) ∧ n < 2 ^ 63)
      (axes.map .var) ms) : ms = ns := by
  have hgiven : List.Forall₂ (Env.bind [] axes ((ns.map Int64.ofNat).map .int)).Binds axes ms := by
    rw [List.forall₂_map_left_iff] at hms
    exact hms.imp fun w n h => ⟨eval_var_eq_ok_iff.mp h.1, h.2⟩
  have hbound : List.Forall₂ (Env.bind [] axes ((ns.map Int64.ofNat).map .int)).Binds axes ns := by
    have hvalues : axes.length = ((ns.map Int64.ofNat).map Value.int).length := by simpa using hlength
    have hlookup := Env.forall₂_lookup_bind hnodup hvalues []
    rw [List.forall₂_map_right_iff, List.forall₂_map_right_iff] at hlookup
    exact (forall₂_imp_of_mem hlookup.flip fun n hn w hw => ⟨hw, hns n hn⟩).flip
  exact (Env.rightUnique_binds _).forall₂ hgiven hbound

/-- A read at the axes of a definition gives the element at the point of the axes. -/
theorem Expr.element_of_eval_axes {axes : List Var} (hnodup : (axes.map Var.name).Nodup)
    (hlength : axes.length = ns.length) (hns : ∀ n ∈ ns, n < 2 ^ 63) (hd : d.isFloat)
    (heval : ((TensorInput.ofShape x.name d s).elementAt (axes.map .var)).eval V
      (Env.bind [] axes ((ns.map Int64.ofNat).map .int)) = .ok v) :
    ∃ y, V.element x ns = some y ∧ v = .float y := by
  obtain ⟨ms, y, hms, hy, hv⟩ := exists_element_of_eval hd heval
  rw [eq_of_eval_axes hnodup hlength hns hms] at hy
  exact ⟨y, hy, hv⟩

end

namespace Graph

variable [FloatOps] {k : ElementKind} {g : Graph} {op : Operator} {inputs V : Tensors} {outs : List NDArray}
  {x a b id : TensorId} {d da db : DType} {sa sb shape : List Int64} {ns : List Nat} {r : Float}

/-- An element of the output of an operator is the value of its definition at the point of the element. -/
theorem WellFormed.exists_value_of_element (h : g.WellFormed k) (hV : g.Valued inputs V outs) (hop : op ∈ g.nodes)
    (hread : V.element op.output ns = some r) :
    (∀ n ∈ ns, n < 2 ^ 63) ∧ op.computation.axes.length = ns.length ∧
      ∃ v, op.computation.value.eval V (op.computation.pointEnv (ns.map Int64.ofNat)) = .ok v ∧ v.toFloat = r := by
  obtain ⟨d, shape, hcomputes⟩ := h.computed op hop
  obtain ⟨array, harray, hlookup⟩ := hV.node op hop
  obtain ⟨array', hlookup', hget⟩ := Option.bind_eq_some_iff.mp hread
  cases hlookup.symm.trans hlookup'
  have hshape := hcomputes.defines.constShape?_eq
  obtain ⟨hlength, hvalue⟩ := TensorCompute.exists_value_of_get? harray hshape hget
  refine ⟨?_, hcomputes.defines.rank.trans hlength.symm, hvalue⟩
  obtain ⟨shape', vs, -, -, -, rfl⟩ := TensorCompute.evaluate_eq_ok_iff.mp harray
  obtain ⟨m, hm, -⟩ := Option.bind_eq_some_iff.mp hget
  exact NDArray.lt_of_position? hm

/-- The output of an operator with one operand holds the function of each element of the operand. -/
theorem WellFormed.element_unary (h : g.WellFormed k) (hV : g.Valued inputs V outs) (hop : op ∈ g.nodes) {fn : UnaryFn}
    (hcomputation : op.computation = .unary fn (.ofShape x.name d shape) d shape op.output.name) (hd : d.isFloat)
    (hread : V.element op.output ns = some r) : ∃ y, V.element x ns = some y ∧ r = fn.onFloats y := by
  obtain ⟨hns, hlength, v, hv, rfl⟩ := h.exists_value_of_element hV hop hread
  rw [hcomputation] at hlength hv
  obtain ⟨w, hw, hfn⟩ := UnaryFn.eval_toExpr hd hv
  obtain ⟨y, hy, rfl⟩ := Expr.element_of_eval_axes (nodup_names_axisVars _ _) hlength hns hd hw
  rw [hfn y rfl]
  exact ⟨y, hy, rfl⟩

omit [FloatOps] in
theorem length_axisVars (name : String) (rank : Nat) : (axisVars name rank).length = rank := by
  rw [axisVars, List.length_map, List.length_range]

/-- What an operand gives is one of its elements, and the one at the point itself if it has the shape of the result. -/
theorem element_readAt (hd : d.isFloat) (hlength : shape.length = ns.length) (hns : ∀ n ∈ ns, n < 2 ^ 63) {v : Value}
    (heval : (TensorCompute.readAt x d sa shape id).eval V
      (Env.bind [] (axisVars (axisName id.name) shape.length) ((ns.map Int64.ofNat).map .int)) = .ok v) :
    ∃ ms y, V.element x ms = some y ∧ v = .float y ∧ (sa = shape → V.element x ns = some y) := by
  obtain ⟨ms, y, hms, hy, rfl⟩ := Expr.exists_element_of_eval hd heval
  refine ⟨ms, y, hy, rfl, ?_⟩
  rintro rfl
  rw [broadcastIndices_self (Expr.length_axes _ _)] at hms
  have hpoint := Expr.eq_of_eval_axes (nodup_names_axisVars _ _) ((length_axisVars _ _).trans hlength) hns hms
  rwa [hpoint] at hy

/-- The output of an operator with two operands holds the function of pairs of elements of the operands. -/
theorem WellFormed.element_binary (h : g.WellFormed k) (hV : g.Valued inputs V outs) (hop : op ∈ g.nodes) {fn : BinaryFn}
    (hcomputation : op.computation =
      .binary fn (.ofShape a.name da sa) (.ofShape b.name db sb) shape op.output.name)
    (hda : da.isFloat) (hdb : db.isFloat) (hread : V.element op.output ns = some r) :
    ∃ y z, r = fn.onFloats y z ∧ (∃ ms, V.element a ms = some y) ∧ (∃ ms, V.element b ms = some z) ∧
      (sa = shape → V.element a ns = some y) ∧ (sb = shape → V.element b ns = some z) := by
  obtain ⟨hns, hlength, v, hv, rfl⟩ := h.exists_value_of_element hV hop hread
  rw [hcomputation, TensorCompute.value_binary] at hlength hv
  have hrank : shape.length = ns.length := (length_axisVars _ _).symm.trans hlength
  obtain ⟨p, q, hp, hq, hfn⟩ := BinaryFn.eval_toExpr hv
  obtain ⟨ms, y, hy, rfl, hyself⟩ := element_readAt hda hrank hns hp
  obtain ⟨ms', z, hz, rfl, hzself⟩ := element_readAt hdb hrank hns hq
  rw [hfn y z rfl rfl]
  exact ⟨y, z, rfl, ⟨ms, hy⟩, ⟨ms', hz⟩, hyself, hzself⟩

/-! ## Rules -/

/-- The elements of a constant with one value everywhere compare equal to it. -/
theorem eq_of_isSplat (hV : g.Valued inputs V outs) {c : Float} (h : g.isSplat id c = .ok true) {z : Float}
    (hread : V.element id ns = some z) : FloatOps.eq z c = true := by
  obtain ⟨info, hinfo, hresult⟩ := bind_eq_ok_iff.mp h
  have hlookup := tensor_eq_ok_iff.mp hinfo
  obtain ⟨d, shape, source⟩ := info
  cases source with
  | input name => cases hresult
  | operator => cases hresult
  | constant value =>
    obtain ⟨array, harray, hvalue⟩ := hV.source id _ hlookup (by simp)
    cases harray
    obtain ⟨array', harray', hget⟩ := Option.bind_eq_some_iff.mp hread
    cases hvalue.symm.trans harray'
    obtain ⟨m, -, hm⟩ := Option.bind_eq_some_iff.mp hget
    have hall : (value.data.all fun y => FloatOps.eq y c) = true := Except.ok.inj hresult
    rw [Array.all_eq_true_iff_forall_mem] at hall
    exact hall z (Array.mem_of_getElem? hm)

/-- The first identity that applies is one of those that may apply. -/
theorem mem_of_firstIdentity {entries : List (TensorId × TensorId × Float)}
    (h : g.firstIdentity entries = .ok (some x)) :
    ∃ other c, (x, other, c) ∈ entries ∧ g.isSplat other c = .ok true := by
  induction entries with
  | nil => cases h
  | cons entry entries ih =>
    obtain ⟨kept, other, c⟩ := entry
    obtain ⟨splat, hsplat, hrest⟩ := bind_eq_ok_iff.mp h
    cases splat with
    | true =>
      cases hrest
      exact ⟨other, c, List.mem_cons_self, hsplat⟩
    | false =>
      obtain ⟨other', c', hmem, hsplat'⟩ := ih hrest
      exact ⟨other', c', List.mem_cons_of_mem _ hmem, hsplat'⟩

omit [FloatOps] in
theorem eq_of_pairInputs {a' b' : TensorId} (h : GraphM.pairInputs a' b' = [a, b]) : a' = a ∧ b' = b := by
  rw [GraphM.pairInputs] at h
  split_ifs at h
  · cases h
  · cases h
    exact ⟨rfl, rfl⟩

omit [FloatOps] in
theorem Built.isFloat (h : g.Built .real) (htype : g.tensors.type? id = some (d, shape)) : d.isFloat := by
  obtain ⟨source, hlookup⟩ := TensorTable.type?_eq_some_iff.mp htype
  exact h.kind id _ hlookup

/-- An operator with two operands repeats the one that an identity keeps. -/
theorem Built.repeats_of_firstIdentity (hops : FloatOps.HasIdentities) (h : g.Built .real)
    (happlies : op.Applies g.tensors) (hV : g.Valued inputs V outs) (hop : op ∈ g.nodes) {fn : BinaryFn}
    (hkind : op.kind = .binary fn) (hinputs : op.inputs = [a, b])
    (hfound : g.firstIdentity (fn.identities a b) = .ok (some x))
    (htype : g.tensors.type? x = g.tensors.type? op.output) : V.Repeats x op.output := by
  obtain ⟨other, c, hentry, hsplat⟩ := mem_of_firstIdentity hfound
  obtain ⟨a', b', da, sa, db, sb, shape, ha, hb, -, hpair, hcomputation⟩ := happlies.exists_binary hkind
  obtain ⟨rfl, rfl⟩ := eq_of_pairInputs (hpair.symm.trans hinputs)
  -- the operand that is kept has the shape of the result, which its definition gives
  obtain ⟨d, houtput⟩ : ∃ d, g.tensors.type? op.output = some (d, shape) := by
    obtain ⟨d, shape', hcomputes⟩ := h.wellFormed.computed op hop
    have hconst := hcomputes.defines.constShape?_eq
    rw [hcomputation] at hconst
    cases (Expr.constShape?_ofShape shape).symm.trans hconst
    exact ⟨d, hcomputes.recorded⟩
  intro ns r hread
  obtain ⟨y, z, rfl, ⟨ms, hy⟩, ⟨ms', hz⟩, hyself, hzself⟩ :=
    h.wellFormed.element_binary hV hop hcomputation (h.isFloat ha) (h.isFloat hb) hread
  rcases BinaryFn.onFloats_of_mem_identities hops hentry with ⟨rfl, rfl, hidentity⟩ | ⟨rfl, rfl, hidentity⟩
  · cases ha.symm.trans (htype.trans houtput)
    rw [hidentity y z (eq_of_isSplat hV hsplat hz)]
    exact hyself rfl
  · cases hb.symm.trans (htype.trans houtput)
    rw [hidentity z y (eq_of_isSplat hV hsplat hy)]
    exact hzself rfl

/-- A function that is applied twice. -/
theorem Built.element_twice (h : g.Built .real) (happlies : ∀ op ∈ g.nodes, op.Applies g.tensors)
    (hV : g.Valued inputs V outs) (hop : op ∈ g.nodes) {fn : UnaryFn} (hkind : op.kind = .unary fn)
    (hinputs : op.inputs = [x]) {inner : Operator} (hinner : g.producerNode? x = some inner)
    (hkind' : inner.kind = .unary fn) (hread : V.element op.output ns = some r) :
    ∃ y w, inner.inputs = [y] ∧ V.element y ns = some w ∧ V.element x ns = some (fn.onFloats w) ∧
      r = fn.onFloats (fn.onFloats w) := by
  obtain ⟨hmem, rfl⟩ := exists_of_producerNode? hinner
  obtain ⟨x', d, s, hx, hsame, hcomputation⟩ := (happlies op hop).exists_unary hkind
  obtain ⟨y, d', s', hy, hread', hcomputation'⟩ := (happlies inner hmem).exists_unary hkind'
  cases hsame.symm.trans hinputs
  obtain ⟨v, hv, rfl⟩ := h.wellFormed.element_unary hV hop hcomputation (h.isFloat hx) hread
  obtain ⟨w, hw, rfl⟩ := h.wellFormed.element_unary hV hmem hcomputation' (h.isFloat hy) hv
  exact ⟨y, w, hread', hw, hv, rfl⟩

/-- By every rule an operator repeats the tensor that stands for its output. -/
theorem Built.repeats_of_simplified? (hops : FloatOps.HasIdentities) (h : g.Built .real)
    (happlies : ∀ op ∈ g.nodes, op.Applies g.tensors) (hV : g.Valued inputs V outs) (hop : op ∈ g.nodes)
    (hfound : g.simplified? op = .ok (some x)) (htype : g.tensors.type? x = g.tensors.type? op.output) :
    V.Repeats x op.output := by
  unfold simplified? at hfound
  split at hfound
  · rename_i hkind hinputs
    exact h.repeats_of_firstIdentity hops (happlies op hop) hV hop hkind hinputs hfound htype
  · rename_i y hkind hinputs
    cases hinner : g.producerNode? y with
    | none => simp [hinner] at hfound
    | some inner =>
      rw [hinner] at hfound
      have hhead := Except.ok.inj hfound
      split_ifs at hhead with hkind'
      intro ns r hread
      obtain ⟨z, w, hinputs', hw, -, rfl⟩ := h.element_twice happlies hV hop hkind hinputs hinner hkind' hread
      rw [hinputs'] at hhead
      cases hhead
      have hneg : UnaryFn.neg.onFloats (UnaryFn.neg.onFloats w) = w := hops.neg_neg w
      rw [hneg]
      exact hw
  · rename_i y hkind hinputs
    cases hinner : g.producerNode? y with
    | none => simp [hinner] at hfound
    | some inner =>
      rw [hinner] at hfound
      have hkept := Except.ok.inj hfound
      split_ifs at hkept with hkind'
      cases hkept
      intro ns r hread
      obtain ⟨z, w, -, -, hy, rfl⟩ := h.element_twice happlies hV hop hkind hinputs hinner hkind' hread
      have hmax : UnaryFn.relu.onFloats (UnaryFn.relu.onFloats w) = UnaryFn.relu.onFloats w := hops.max_max w
      rw [hmax]
      exact hy
  · cases hfound

theorem replacement?_eq_some (h : g.replacement? op = .ok (some x)) :
    g.simplified? op = .ok (some x) ∧ g.tensors.type? x = g.tensors.type? op.output := by
  obtain ⟨found, hfound, hrest⟩ := bind_eq_ok_iff.mp h
  cases found with
  | none => cases hrest
  | some y =>
    obtain ⟨info, hinfo, hrest⟩ := bind_eq_ok_iff.mp hrest
    obtain ⟨output, houtput, hresult⟩ := bind_eq_ok_iff.mp hrest
    have hsame := Except.ok.inj hresult
    split_ifs at hsame with htype
    cases hsame
    simp only [TensorInfo.sameType, Bool.and_eq_true, beq_iff_eq] at htype
    refine ⟨hfound, ?_⟩
    rw [TensorTable.type?_of_lookup (tensor_eq_ok_iff.mp hinfo), TensorTable.type?_of_lookup (tensor_eq_ok_iff.mp houtput),
      htype.1, htype.2]

/-- Every replacement repeats what it replaces. -/
theorem Built.repeats_of_replacements (hops : FloatOps.HasIdentities) (h : g.Built .real)
    (happlies : ∀ op ∈ g.nodes, op.Applies g.tensors) (hV : g.Valued inputs V outs) {map : Replacements}
    (hmap : g.replacements = .ok map) : ∀ entry ∈ map, V.Repeats entry.2 entry.1 := by
  refine foldlM_keeps (P := fun map : Replacements => ∀ entry ∈ map, V.Repeats entry.2 entry.1)
    (fun op hop found found' hbefore hstep => ?_) (fun _ hentry => absurd hentry List.not_mem_nil) hmap
  split_ifs at hstep
  · cases hstep
    exact hbefore
  · obtain ⟨replacement, hreplacement, hresult⟩ := bind_eq_ok_iff.mp hstep
    cases replacement with
    | none =>
      cases hresult
      exact hbefore
    | some x =>
      cases hresult
      obtain ⟨hsimplified, htype⟩ := replacement?_eq_some hreplacement
      exact List.forall_mem_cons.mpr ⟨h.repeats_of_simplified? hops happlies hV hop hsimplified htype, hbefore⟩

/-! ## The pass -/

/-- Simplifying a built graph over floats succeeds and keeps its values. -/
theorem Built.keepsValues_simplifyAlgebra (hops : FloatOps.HasIdentities) (h : g.Built .real)
    (happlies : ∀ op ∈ g.nodes, op.Applies g.tensors) :
    ∃ g', g.simplifyAlgebra = .ok g' ∧ g'.WellFormed .real ∧ g.KeepsValues g' := by
  obtain ⟨map, hmap, hfits⟩ := h.wellFormed.exists_replacements
  obtain ⟨rewired, hrewired, hwell⟩ := h.wellFormed.exists_rewire hfits
  obtain ⟨normal, hnormal, hwell', hkeeps⟩ := hwell.exists_normalize
  rw [simplifyAlgebra, hmap]
  change ∃ g', (if map.isEmpty then _ else _) = Except.ok g' ∧ _
  split_ifs
  · exact ⟨g, rfl, h.wellFormed, fun _ _ _ hV => hV⟩
  · refine ⟨normal, ?_, hwell', fun inputs V outs hV => hkeeps inputs V outs ?_⟩
    · rw [hrewired]
      exact hnormal
    · exact h.wellFormed.computed.valued_rewire (h.repeats_of_replacements hops happlies hV hmap) hrewired hV

/-- Simplification preserves results, if arithmetic has the identities that its rules rely on: on every graph over floats
that can be built it succeeds, and what the graph evaluates to the simplified graph does too. Every chain of replacements
that is followed on the way ends at a tensor that is not replaced and has the type of the tensor at its start. -/
theorem patternTransform_build (hops : FloatOps.HasIdentities) {steps : List BuildStep}
    (hsteps : ∀ step ∈ steps, step.hasKind .real) :
    (∃ map, (build steps).replacements = .ok map ∧ ∀ id, map.lookup (resolve map id) = none ∧
      (build steps).tensors.type? (resolve map id) = (build steps).tensors.type? id) ∧
    ∃ g', GraphPass.patternTransform.run (build steps) = .ok g' ∧
      ∀ inputs outs, (build steps).evaluate inputs = .ok outs → g'.evaluate inputs = .ok outs := by
  have hbuilt := built_build hsteps
  obtain ⟨map, hmap, hfits⟩ := hbuilt.wellFormed.exists_replacements
  obtain ⟨g', hsimplify, hwell, hkeeps⟩ := hbuilt.keepsValues_simplifyAlgebra hops (applies_build steps)
  refine ⟨⟨map, hmap, hfits.lookup_resolve hbuilt.wellFormed⟩, g', hsimplify, fun inputs outs heval => ?_⟩
  obtain ⟨V, hV⟩ := hbuilt.wellFormed.evaluate_eq_ok_iff.mp heval
  exact hwell.evaluate_eq_ok_iff.mpr ⟨V, hkeeps inputs V outs hV⟩

end Graph

/-- The machine's operations, made to leave an operand as it is where the other one is exactly neutral, and with a
negation that is its own inverse. -/
@[reducible] def FloatOps.exactlyNeutral : FloatOps where
  add x y := if y = 0.0 then x else if x = 0.0 then y else x + y
  sub x y := if y = 0.0 then x else x - y
  mul x y := if y = 1.0 then x else if x = 1.0 then y else x * y
  div x y := if y = 1.0 then x else x / y
  rem := binary64.rem
  neg x := if -(-x) = x then -x else x
  abs := binary64.abs
  exp := binary64.exp
  log := binary64.log
  sqrt := binary64.sqrt
  tanh := binary64.tanh
  max := binary64.max
  min := binary64.min
  eq x y := decide (x = y)
  lt := binary64.lt

theorem FloatOps.hasIdentities_exactlyNeutral : @FloatOps.HasIdentities .exactlyNeutral := by
  have hzero (x : Float) : (if x = 0.0 then 0.0 else if (0.0 : Float) = 0.0 then x else 0.0 + x) = x := by
    rw [if_pos (rfl : (0.0 : Float) = 0.0)]
    split_ifs with hx
    · exact hx.symm
    · rfl
  have hone (x : Float) : (if x = 1.0 then 1.0 else if (1.0 : Float) = 1.0 then x else 1.0 * x) = x := by
    rw [if_pos (rfl : (1.0 : Float) = 1.0)]
    split_ifs with hx
    · exact hx.symm
    · rfl
  have hneg (x : Float) : exactlyNeutral.neg (exactlyNeutral.neg x) = x := by
    by_cases hx : -(-x) = x
    · have hflip : exactlyNeutral.neg x = -x := if_pos hx
      rw [hflip]
      change (if -(- -x) = -x then - -x else -x) = x
      rw [hx, if_pos rfl]
    · have hkept : exactlyNeutral.neg x = x := if_neg hx
      rw [hkept, hkept]
  have hmax (x : Float) : binary64.max (binary64.max x 0.0) 0.0 = binary64.max x 0.0 := by
    by_cases hx : ((0.0 : Float).isNaN || decide (0.0 < x)) = true
    · have hself : binary64.max x 0.0 = x := if_pos hx
      rw [hself, hself]
    · have hzero : binary64.max x 0.0 = 0.0 := if_neg hx
      rw [hzero]
      exact ite_self 0.0
  exact @FloatOps.HasIdentities.mk .exactlyNeutral (fun x z hz => if_pos (of_decide_eq_true hz))
    (fun x z hz => of_decide_eq_true hz ▸ hzero x) (fun x z hz => if_pos (of_decide_eq_true hz))
    (fun x u hu => if_pos (of_decide_eq_true hu)) (fun x u hu => of_decide_eq_true hu ▸ hone x)
    (fun x u hu => if_pos (of_decide_eq_true hu)) hneg hmax

namespace Graph

/-- A sum with zeros, negated twice, and rectified twice before its absolute value is taken. -/
def neutralSteps : List BuildStep :=
  [.input "x" .float32 [2], .constant ⟨[2], #[0.0, 0.0]⟩ .float32, .binary .add 0 1, .unary .neg 2, .unary .neg 3,
    .unary .relu 4, .unary .relu 5, .unary .abs 6, .output 7]

set_option maxRecDepth 4000 in
/-- The simplified graph takes the absolute value of the input rectified once. -/
theorem patternTransform_build_neutral :
    @FloatOps.HasIdentities .exactlyNeutral ∧ (∀ step ∈ neutralSteps, step.hasKind .real) ∧
      ∃ g', @GraphPass.run .exactlyNeutral .patternTransform (build neutralSteps) = .ok g' ∧
        @evaluate .exactlyNeutral g' [("x", ⟨[2], #[-1.0, 2.0]⟩)] = .ok [⟨[2], #[0.0, 2.0]⟩] := by
  have hops := FloatOps.hasIdentities_exactlyNeutral
  have hsteps : ∀ step ∈ neutralSteps, step.hasKind .real := by decide
  obtain ⟨-, g', hrun, hkept⟩ := @patternTransform_build .exactlyNeutral hops neutralSteps hsteps
  exact ⟨hops, hsteps, g', hrun, hkept _ _ rfl⟩

end Graph

end TensorCompiler
