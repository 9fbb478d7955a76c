import TensorCompiler.Proofs.Expr.FoldEval
import TensorCompiler.Proofs.Graph.Element

/-! # What a type says of a value

`inferType` reads types off literals, variables and first arguments, and `eval` never looks at a type that a variable
or a literal bears. `Expr.IsFaithful` collects the rules by which the two agree, one or more for each kind of node: a
faithful expression that has a known scalar type and a value has a value of that type. Outside the rules they part:
the functions other than `abs`, `max` and `min` make floats of integers, an open element type counts as that of the
other operand for the type and as `float32` for the value, and a variable has the type of its occurrence whatever it is
bound to.
-/

namespace TensorCompiler

/-- Whether the values of two element types have the same form. -/
def DType.SameForm (c d : DType) : Prop :=
  c.isInteger = d.isInteger ∧ c.isFloat = d.isFloat

theorem Value.HasType.of_sameForm {v : Value} {c d : DType} (h : v.HasType c) (hform : c.SameForm d) : v.HasType d := by
  obtain ⟨hinteger, hfloat⟩ := hform
  cases v with
  | bool b =>
    obtain rfl : c = .bool := h
    cases d with
    | bool => rfl
    | int32 | int64 => cases hinteger
    | float16 | float32 | float64 => cases hfloat
  | int n =>
    have hc : c.isInteger := h
    rwa [hinteger] at hc
  | float x =>
    have hc : c.isFloat := h
    rwa [hfloat] at hc

/-- Whether an environment agrees with the types of some variables: where one of them is bound and has a known element
type, it has a value of that type. -/
def Env.Agrees (env : Env) (vars : List Var) : Prop :=
  ∀ w ∈ vars, ∀ x d, env.lookup w.name = some x → w.ty = .ofDType d → x.HasType d

theorem Env.Agrees.mono {env : Env} {vars vars' : List Var} (h : env.Agrees vars) (hsub : ∀ w ∈ vars', w ∈ vars) :
    env.Agrees vars' :=
  fun w hw => h w (hsub w hw)

/-- Whether a reduction of `count` values of the type `d` gives a value of that type. Over nothing it gives a float; the
average and the greater and lesser of booleans are floats. -/
def ReduceKind.KeepsType (kind : ReduceKind) (d : DType) (count : Nat) : Prop :=
  d.isFloat ∨ d.isInteger ∧ 0 < count ∨ d = .bool ∧ 0 < count ∧ (kind = .sum ∨ kind ≠ .avg ∧ count = 1)

namespace Expr

/-- Whether the evaluator has no value for a node, whatever its parts are. -/
def isRejected : Expr → Bool
  | call func args => args.isEmpty || !Intrinsic.names.contains func
  | deref _ | addr _ | ref _ | scalarInput .. | tensorInput .. | compute .. | any _ | anyCompute .. | anyReduce _ => true
  | _ => false

/-- The expressions of which the type predicts the form of the value. -/
inductive IsFaithful : Expr → Prop
  /-- Nothing is said of the values of an expression that is no scalar of known type. -/
  | untyped {e : Expr} (h : ∀ d, ¬ e.HasDType d) : IsFaithful e
  | rejected {e : Expr} (h : e.isRejected) : IsFaithful e
  | var (v : Var) : IsFaithful (.var v)
  | const {v : Value} {d : DType} (h : v.HasType d) : IsFaithful (.const v d)
  | not (arg : Expr) : IsFaithful (.unary .not arg)
  | unary (op : UnaryOp) {arg : Expr} (h : IsFaithful arg) : IsFaithful (.unary op arg)
  | test {op : BinaryOp} (hop : op.isComparison || op.isLogical) (lhs rhs : Expr) : IsFaithful (.binary op lhs rhs)
  | binary (op : BinaryOp) {d : DType} {lhs rhs : Expr} (hl : lhs.HasDType d) (hr : rhs.HasDType d)
      (hlhs : IsFaithful lhs) (hrhs : IsFaithful rhs) : IsFaithful (.binary op lhs rhs)
  | floatLeft (op : BinaryOp) {d : DType} {lhs : Expr} (hd : d.isFloat) (hl : lhs.HasDType d) (hlhs : IsFaithful lhs)
      (rhs : Expr) : IsFaithful (.binary op lhs rhs)
  | floatRight (op : BinaryOp) {d : DType} {rhs : Expr} (hd : d.isFloat) (hr : rhs.HasDType d) (lhs : Expr)
      (hrhs : IsFaithful rhs) : IsFaithful (.binary op lhs rhs)
  | letIn {x : Var} {value body : Expr}
      (hx : ∀ w ∈ body.freeVars, w.name = x.name → ∀ d, w.ty = .ofDType d → ∃ c, value.HasDType c ∧ c.SameForm d)
      (hvalue : IsFaithful value) (hbody : IsFaithful body) : IsFaithful (.letIn x value body)
  | ite (cond : Expr) {d : DType} {thenE elseE : Expr} (ht : thenE.HasDType d) (he : elseE.HasDType d)
      (hthen : IsFaithful thenE) (helse : IsFaithful elseE) : IsFaithful (.ite cond thenE elseE)
  | element (base : Expr) (indices : List Expr) : IsFaithful (.element base indices)
  | floatCall (func : String) {d : DType} {first : Expr} (hd : d.isFloat) (htype : first.HasDType d)
      (hfirst : IsFaithful first) (rest : List Expr) : IsFaithful (.call func (first :: rest))
  | intCall {func : String} {args : List Expr} (hfunc : func = "abs" ∨ func = "max" ∨ func = "min")
      (htypes : ∀ arg ∈ args, ∃ d : DType, d.isInteger ∧ arg.HasDType d) (hargs : ∀ arg ∈ args, IsFaithful arg) :
      IsFaithful (.call func args)
  | cast (target : Ty) (arg : Expr) : IsFaithful (.cast target arg)
  | reduce {kind : ReduceKind} {shape : List Expr} {axes : List Var} {value : Expr}
      (hlength : axes.length ≤ shape.length)
      (haxes : ∀ w ∈ value.freeVars, w.name ∈ axes.map Var.name → ∀ d, w.ty = .ofDType d → d.isInteger)
      (hkeeps : ∀ extents d, constShape? shape = some extents → value.HasDType d →
        kind.KeepsType d (points extents).length)
      (hvalue : IsFaithful value) : IsFaithful (.reduce kind shape axes value)

end Expr

/-! ## Operations on values of the types -/

section

variable [FloatOps] {v : Value} {d : DType}

/-- Arithmetic in which one operand is a float gives a float. -/
theorem BinaryOp.exists_float_of_eval? {op : BinaryOp} {a b : Value} (hop : (op.isComparison || op.isLogical) = false)
    (hfloat : (∃ x, a = .float x) ∨ ∃ y, b = .float y) (h : op.eval? a b = some v) : ∃ z, v = .float z := by
  have hmap : (op.applyFloat? a.toFloat b.toFloat).map .float = some v := by
    rcases hfloat with ⟨x, rfl⟩ | ⟨y, rfl⟩
    · cases op <;> first | exact h | cases hop
    · cases op <;> first | (cases a <;> exact h) | cases hop
  obtain ⟨z, -, hz⟩ := Option.map_eq_some_iff.mp hmap
  exact ⟨z, hz.symm⟩

/-- Tests give booleans. -/
theorem BinaryOp.exists_bool_of_eval? {op : BinaryOp} {a b : Value} (hop : op.isComparison || op.isLogical)
    (h : op.eval? a b = some v) : ∃ z, v = .bool z := by
  cases op with
  | and | or => exact ⟨_, (Option.some.inj h).symm⟩
  | lt | le | eq | ne =>
    obtain ⟨order, -, rfl⟩ := Option.map_eq_some_iff.mp h
    exact ⟨_, rfl⟩
  | _ => cases hop

/-- A reduction of booleans that has a value and gives a boolean is one of a single value, or a sum of one. -/
theorem ReduceKind.hasType_bool_of_keepsType {kind : ReduceKind} {vs : List Value} {acc : Option Value} {count : Int64}
    (hne : vs ≠ []) (hkind : kind = .sum ∨ kind ≠ .avg ∧ vs.length = 1) (hvs : ∀ w ∈ vs, w.HasType .bool)
    (hacc : vs.foldlM kind.accumulate none = .ok acc) (h : kind.finish? acc count = some v) : v.HasType .bool := by
  match vs, hne with
  | [w], _ =>
    cases hacc
    have hw := hvs w List.mem_cons_self
    have hself : v = w := by
      cases kind with
      | avg => exact absurd rfl (hkind.resolve_left (by simp)).1
      | sum | max | min => exact (Option.some.inj h).symm
    exact hself ▸ hw
  | w :: w' :: vs, _ =>
    obtain rfl : kind = .sum := hkind.resolve_right (by simp)
    -- two booleans have no sum, so the fold stops at the second value
    obtain ⟨b, rfl⟩ := (hvs w List.mem_cons_self).exists_bool
    obtain ⟨b', rfl⟩ := (hvs w' (List.mem_cons_of_mem _ List.mem_cons_self)).exists_bool
    cases hacc

/-- A reduction of values of a type that it keeps has that type. -/
theorem ReduceKind.hasType_of_keepsType {kind : ReduceKind} {vs : List Value} {acc : Option Value} {count : Int64}
    (hkeeps : kind.KeepsType d vs.length) (hvs : ∀ w ∈ vs, w.HasType d)
    (hacc : vs.foldlM kind.accumulate none = .ok acc) (h : kind.finish? acc count = some v) : v.HasType d := by
  have hnumber (k : NumberKind) (hd : k.hasDType d) (hpos : k = .integer → 0 < vs.length) : v.HasType d := by
    have hresult := hasType_accumulate hd hvs (fun a ha => by cases ha) hacc
    refine hasType_finish? hd hresult.1 (fun hk hnone => ?_) h
    rw [(hresult.2 hnone).2] at hpos
    exact absurd (hpos hk) (Nat.lt_irrefl 0)
  rcases hkeeps with hfloat | ⟨hinteger, hpos⟩ | ⟨rfl, hpos, hkind⟩
  · exact hnumber .real hfloat fun hk => by cases hk
  · exact hnumber .integer hinteger fun _ => hpos
  · exact hasType_bool_of_keepsType (List.ne_nil_of_length_pos hpos) hkind hvs hacc h

end

/-! ## Environments -/

namespace Env

theorem Agrees.cons {env : Env} {vars : List Var} {x : Var} {a : Value} (h : env.Agrees (vars.filter (·.name != x.name)))
    (hx : ∀ w ∈ vars, w.name = x.name → ∀ d, w.ty = .ofDType d → a.HasType d) :
    Agrees ((x.name, a) :: env) vars := by
  intro w hw y d hy hty
  by_cases hname : w.name = x.name
  · obtain rfl : a = y := by simpa [hname] using hy
    exact hx w hw hname d hty
  · rw [List.lookup_cons, beq_false_of_ne hname] at hy
    exact h w (List.mem_filter.mpr ⟨hw, by simpa using hname⟩) y d hy hty

/-- A binding of several variables gives each name one of the values, or leaves it as it was. -/
theorem lookup_bind (env : Env) {vars : List Var} {values : List Value} (hlength : vars.length ≤ values.length)
    (name : String) :
    (name ∈ vars.map Var.name ∧ ∃ a ∈ values, (env.bind vars values).lookup name = some a) ∨
      name ∉ vars.map Var.name ∧ (env.bind vars values).lookup name = env.lookup name := by
  induction vars generalizing env values with
  | nil => exact Or.inr ⟨by simp, rfl⟩
  | cons x vars ih =>
    cases values with
    | nil => cases hlength
    | cons a values =>
      rw [bind]
      rcases ih ((x.name, a) :: env) (Nat.le_of_succ_le_succ hlength) with ⟨hmem, b, hb, hlookup⟩ | ⟨hmem, hlookup⟩
      · exact Or.inl ⟨List.mem_cons_of_mem _ hmem, b, List.mem_cons_of_mem _ hb, hlookup⟩
      · by_cases hname : name = x.name
        · subst hname
          exact Or.inl ⟨List.mem_cons_self, a, List.mem_cons_self, by rw [hlookup, List.lookup_cons_self]⟩
        · refine Or.inr ⟨by simpa [hname] using hmem, ?_⟩
          rw [hlookup, List.lookup_cons, beq_false_of_ne hname]

/-- Axes that occur as integers agree with the coordinates of a point. -/
theorem Agrees.bind {env : Env} {vars axes : List Var} {point : List Int64} (hlength : axes.length ≤ point.length)
    (h : env.Agrees (vars.filter fun w => !(axes.map Var.name).contains w.name))
    (haxes : ∀ w ∈ vars, w.name ∈ axes.map Var.name → ∀ d, w.ty = .ofDType d → d.isInteger) :
    (env.bind axes (point.map .int)).Agrees vars := by
  intro w hw y d hy hty
  have hlength' : axes.length ≤ (point.map Value.int).length := by rwa [List.length_map]
  rcases lookup_bind env hlength' w.name with ⟨hmem, a, ha, hlookup⟩ | ⟨hmem, hlookup⟩
  · rw [hlookup] at hy
    obtain rfl := Option.some.inj hy
    obtain ⟨n, -, rfl⟩ := List.mem_map.mp ha
    exact haxes w hw hmem d hty
  · rw [hlookup] at hy
    have hkept : w ∈ vars.filter fun w => !(axes.map Var.name).contains w.name :=
      List.mem_filter.mpr ⟨hw, by simpa using hmem⟩
    exact h w hkept y d hy hty

end Env

namespace Expr

theorem length_of_constShape? {shape : List Expr} {extents : List Int64} (h : constShape? shape = some extents) :
    extents.length = shape.length := by
  induction shape generalizing extents with
  | nil =>
    cases h
    rfl
  | cons extent shape ih =>
    rw [constShape?, List.mapM_cons] at h
    obtain ⟨n, -, hrest⟩ := Option.bind_eq_some_iff.mp h
    obtain ⟨ns, hns, hcons⟩ := Option.bind_eq_some_iff.mp hrest
    cases hcons
    rw [List.length_cons, List.length_cons, ih hns]

section

variable [FloatOps] {tensors : Tensors} {env : Env} {e : Expr} {v : Value} {d : DType}

/-- A node that the evaluator rejects has no value. -/
theorem eval_ne_ok_of_isRejected (h : e.isRejected) : e.eval tensors env ≠ .ok v := by
  intro heval
  cases e with
  | call func args =>
    obtain ⟨values, hvalues, hv⟩ := eval_call_eq_ok_iff.mp heval
    rcases (Bool.or_eq_true _ _).mp h with hnil | hname
    · rw [List.isEmpty_iff.mp hnil, List.forall₂_nil_left_iff] at hvalues
      rw [hvalues] at hv
      cases hv
    · simp [Intrinsic.mem_names_of_eval? hv] at hname
  | var | const | unary | binary | letIn | ite | element | cast | reduce => cases h
  | _ => simp [eval] at heval

omit [FloatOps] in
/-- The type of a binary operation: that of a test, or what the types of the operands have in common. -/
theorem HasDType.binary_inv {op : BinaryOp} {lhs rhs : Expr} (h : (Expr.binary op lhs rhs).HasDType d) :
    ∃ a b u, lhs.inferType = .ok (.scalar a) ∧ rhs.inferType = .ok (.scalar b) ∧ unify op.symbol a b = .ok u ∧
      if op.isComparison || op.isLogical then d = .bool else u = .known d := by
  obtain ⟨a, b, u, ha, hb, hu⟩ := inferType_binary_inv h
  refine ⟨a, b, u, ha, hb, hu, ?_⟩
  simp only [HasDType, inferType, ha, hb, hu, Ty.scalarOrFault, Ty.ofDType, bind, Except.bind, pure, Except.pure] at h
  split_ifs at h ⊢ with hop
  · cases h
    rfl
  · cases h
    rfl

omit [FloatOps] in
/-- Arithmetic one operand of which has a known type is of that type. -/
theorem HasDType.operand_eq {op : BinaryOp} {lhs rhs : Expr} {c : DType} (hop : (op.isComparison || op.isLogical) = false)
    (h : (Expr.binary op lhs rhs).HasDType d) (hc : lhs.HasDType c ∨ rhs.HasDType c) : c = d := by
  obtain ⟨a, b, u, ha, hb, hu, htype⟩ := h.binary_inv
  rw [hop] at htype
  obtain rfl : u = .known d := htype
  rcases hc with hc | hc
  · obtain rfl : a = .known c := by simpa [HasDType, ha, Ty.ofDType] using hc
    cases b with
    | known b =>
      obtain rfl := unify_known_inv hu
      simpa [unify] using hu
    | hole n => simpa [unify] using hu
  · obtain rfl : b = .known c := by simpa [HasDType, hb, Ty.ofDType] using hc
    cases a with
    | known a =>
      obtain rfl := unify_known_inv hu
      simpa [unify] using hu
    | hole n => simpa [unify] using hu

omit [FloatOps] in
/-- The type of a unary operation: that of a test, or that of the operand. -/
theorem HasDType.unary_inv {op : UnaryOp} {arg : Expr} (h : (Expr.unary op arg).HasDType d) :
    if op = .not then d = .bool else arg.HasDType d := by
  obtain ⟨s, hs⟩ := inferType_unary_inv h
  simp only [HasDType, inferType, hs, Ty.scalarOrFault, bind, Except.bind] at h ⊢
  cases op with
  | not =>
    cases h
    rfl
  | neg | bitNot => exact h

/-- An operation in which one operand is a float has the type of floats, and so has its value. -/
theorem hasType_of_float {op : BinaryOp} {lhs rhs : Expr} {a b : Value} {c : DType} (hc : c.isFloat)
    (htype : (Expr.binary op lhs rhs).HasDType d) (hv : op.eval? a b = some v)
    (hside : lhs.HasDType c ∧ a.HasType c ∨ rhs.HasDType c ∧ b.HasType c) : v.HasType d := by
  cases hop : op.isComparison || op.isLogical with
  | true =>
    obtain ⟨_, _, _, -, -, -, hbool⟩ := htype.binary_inv
    rw [if_pos hop] at hbool
    obtain ⟨z, rfl⟩ := BinaryOp.exists_bool_of_eval? hop hv
    exact hbool
  | false =>
    obtain rfl : c = d := htype.operand_eq hop (hside.imp And.left And.left)
    have hfloat : (∃ x, a = .float x) ∨ ∃ y, b = .float y :=
      hside.imp (fun h => h.2.exists_float hc) fun h => h.2.exists_float hc
    obtain ⟨z, rfl⟩ := BinaryOp.exists_float_of_eval? hop hfloat hv
    exact hc

/-- **The type of a faithful expression predicts its value.** -/
theorem IsFaithful.hasInferredType_eval (h : e.IsFaithful) (hagrees : env.Agrees e.freeVars) (htype : e.HasDType d)
    (heval : e.eval tensors env = .ok v) : v.HasType d := by
  induction h generalizing env d v with
  | untyped h => exact absurd htype (h d)
  | rejected h => exact absurd heval (eval_ne_ok_of_isRejected h)
  | var w =>
    have hty : w.ty = .ofDType d := by simpa [HasDType] using htype
    exact hagrees w (by simp [freeVars]) v d (eval_var_eq_ok_iff.mp heval) hty
  | const hv =>
    obtain rfl := eval_const_eq_ok_iff.mp heval
    obtain rfl := hasDType_const.mp htype
    exact hv
  | not arg =>
    obtain ⟨a, -, hv⟩ := eval_unary_eq_ok_iff.mp heval
    obtain rfl : d = .bool := htype.unary_inv
    cases hv
    rfl
  | @unary op arg _ ih =>
    obtain ⟨a, ha, hv⟩ := eval_unary_eq_ok_iff.mp heval
    have harg := htype.unary_inv
    cases op with
    | not =>
      obtain rfl : d = .bool := harg
      cases hv
      rfl
    | neg | bitNot => exact UnaryOp.hasType_eval? (ih hagrees harg ha) hv
  | @test op hop lhs rhs =>
    obtain ⟨a, b, -, -, hv⟩ := eval_binary_eq_ok_iff.mp heval
    obtain ⟨_, _, _, -, -, -, hbool⟩ := htype.binary_inv
    rw [if_pos hop] at hbool
    obtain ⟨z, rfl⟩ := BinaryOp.exists_bool_of_eval? hop hv
    exact hbool
  | @binary op c lhs rhs hl hr _ _ ihl ihr =>
    obtain ⟨a, b, ha, hb, hv⟩ := eval_binary_eq_ok_iff.mp heval
    obtain rfl := htype.unique (hl.binary op hr)
    have ta := ihl (hagrees.mono fun w hw => by simp [freeVars, hw]) hl ha
    have tb := ihr (hagrees.mono fun w hw => by simp [freeVars, hw]) hr hb
    exact BinaryOp.hasType_eval? ta tb hv
  | @floatLeft op c lhs hc hl _ rhs ih =>
    obtain ⟨a, b, ha, -, hv⟩ := eval_binary_eq_ok_iff.mp heval
    have ta := ih (hagrees.mono fun w hw => by simp [freeVars, hw]) hl ha
    exact hasType_of_float hc htype hv (Or.inl ⟨hl, ta⟩)
  | @floatRight op c rhs hc hr lhs _ ih =>
    obtain ⟨a, b, -, hb, hv⟩ := eval_binary_eq_ok_iff.mp heval
    have tb := ih (hagrees.mono fun w hw => by simp [freeVars, hw]) hr hb
    exact hasType_of_float hc htype hv (Or.inr ⟨hr, tb⟩)
  | @letIn x value body hx _ _ ihvalue ihbody =>
    obtain ⟨a, ha, hv⟩ := eval_letIn_eq_ok_iff.mp heval
    have hvalue : env.Agrees value.freeVars := hagrees.mono fun w hw => by simp [freeVars, hw]
    have hbody : Env.Agrees ((x.name, a) :: env) body.freeVars := by
      refine Env.Agrees.cons (hagrees.mono fun w hw => by simp [freeVars, List.mem_filter.mp hw]) ?_
      intro w hw hname c hty
      obtain ⟨c', hc', hform⟩ := hx w hw hname c hty
      exact (ihvalue hvalue hc' ha).of_sameForm hform
    exact ihbody hbody htype hv
  | @ite cond c thenE elseE ht he _ _ iht ihe =>
    obtain ⟨x, -, hv⟩ := eval_ite_eq_ok_iff.mp heval
    obtain rfl := htype.unique (ht.ite he)
    split_ifs at hv
    · exact iht (hagrees.mono fun w hw => by simp [freeVars, hw]) ht hv
    · exact ihe (hagrees.mono fun w hw => by simp [freeVars, hw]) he hv
  | element base indices =>
    cases base with
    | tensorInput name dtype shape =>
      obtain ⟨a, ns, x, -, -, -, rfl⟩ := eval_element_eq_ok_iff.mp heval
      obtain rfl : dtype = .known d := by
        simpa [HasDType, inferType, Ty.elementType, Ty.ofDType, bind, Except.bind] using htype
      exact Value.hasType_cast _ _
    | _ => simp [eval] at heval
  | @floatCall func c first hc hfirst _ rest ih =>
    obtain ⟨values, hvalues, hv⟩ := eval_call_eq_ok_iff.mp heval
    rw [HasDType, inferType_call_eq (Intrinsic.mem_names_of_eval? hv)] at htype
    obtain rfl := hfirst.unique htype
    obtain ⟨a, values, ha, -, rfl⟩ := List.forall₂_cons_left_iff.mp hvalues
    obtain ⟨x, rfl⟩ := (ih (hagrees.mono fun w hw => by simp [freeVars, freeVarsAll, hw]) hfirst ha).exists_float hc
    obtain ⟨y, rfl⟩ := Intrinsic.exists_float_of_eval? hv
    exact hc
  | @intCall func args hfunc htypes _ ih =>
    obtain ⟨values, hvalues, hv⟩ := eval_call_eq_ok_iff.mp heval
    have hints := forall_mem_of_forall₂ hvalues fun arg harg a ha => by
      obtain ⟨c, hc, htarg⟩ := htypes arg harg
      have hfree : env.Agrees arg.freeVars := hagrees.mono fun w hw => by
        rw [freeVars, freeVarsAll_eq]
        exact List.mem_flatMap.mpr ⟨arg, harg, hw⟩
      exact (ih arg harg hfree htarg ha).exists_int hc
    obtain ⟨hne, n, rfl⟩ := Intrinsic.exists_int_of_eval? hfunc hints hv
    cases args with
    | nil => exact absurd (List.forall₂_nil_left_iff.mp hvalues) hne
    | cons first rest =>
      obtain ⟨c, hc, hfirst⟩ := htypes first List.mem_cons_self
      rw [HasDType, inferType_call_eq (Intrinsic.mem_names_of_eval? hv)] at htype
      obtain rfl := hfirst.unique htype
      exact hc
  | cast target arg =>
    obtain ⟨a, c, -, rfl, rfl⟩ := eval_cast_eq_ok_iff.mp heval
    obtain rfl := hasDType_cast.mp htype
    exact Value.hasType_cast a c
  | @reduce kind shape axes value hlength haxes hkeeps _ ih =>
    obtain ⟨extents, vs, acc, hshape, hvs, hacc, hv⟩ := eval_reduce_eq_ok_iff.mp heval
    have hvalue : value.HasDType d := htype
    have htyped : ∀ w ∈ vs, w.HasType d := forall_mem_of_forall₂ hvs fun point hpoint w hw => by
      have hpoints : axes.length ≤ point.length := by
        rwa [length_of_mem_points hpoint, length_of_constShape? hshape]
      have hfree : env.Agrees (value.freeVars.filter fun w => !(axes.map Var.name).contains w.name) :=
        hagrees.mono fun w hw => by simp only [freeVars, List.mem_append, hw, or_true]
      exact ih (Env.Agrees.bind hpoints hfree haxes) hvalue hw
    have hcount : kind.KeepsType d vs.length := hvs.length_eq ▸ hkeeps extents d hshape hvalue
    exact ReduceKind.hasType_of_keepsType hcount htyped hacc hv

end

/-- The lesser of `x` and the sum of the even numbers below six. -/
def boundedSum : Expr :=
  letIn (Var.int "y") (reduce .sum [int 3] [Var.int "k"] (var (Var.int "k") * int 2))
    (ite (lt (var (Var.int "x")) (var (Var.int "y"))) (var (Var.int "x")) (call "abs" [var (Var.int "y")]))

theorem isFaithful_boundedSum : boundedSum.IsFaithful := by
  have hint (name : String) : (var (Var.int name)).HasDType .int32 := rfl
  refine .letIn (fun w hw hname d hty => ?_) (.reduce (Nat.le_refl 1) ?_ ?_ ?_) (.ite _ (hint "x") ?_ (.var _) ?_)
  · simp only [freeVars, freeVarsAll, lt, List.mem_append, List.mem_singleton, List.not_mem_nil, or_false] at hw
    rcases hw with (rfl | rfl) | rfl | rfl <;> cases hty <;> exact ⟨.int32, rfl, rfl, rfl⟩
  · intro w hw hname d hty
    change w ∈ [_] at hw
    obtain rfl := List.mem_singleton.mp hw
    cases hty
    rfl
  · intro extents d hextents hd
    cases hextents
    cases hd
    exact Or.inr (Or.inl ⟨rfl, by decide⟩)
  · exact .binary .mul (hint "k") rfl (.var _) (.const rfl)
  · rfl
  · refine .intCall (Or.inl rfl) (fun arg harg => ⟨.int32, rfl, ?_⟩) fun arg harg => ?_
    · rw [List.mem_singleton.mp harg]
      exact hint "y"
    · rw [List.mem_singleton.mp harg]
      exact .var _

theorem hasType_eval_boundedSum :
    boundedSum.eval [] [("x", .int 10)] = .ok (.int 6) ∧ (Value.int 6).HasType .int32 := by
  have hvalue : boundedSum.eval [] [("x", .int 10)] = .ok (.int 6) := rfl
  refine ⟨hvalue, isFaithful_boundedSum.hasInferredType_eval ?_ rfl hvalue⟩
  intro w hw x d hx hty
  change w ∈ [_, _] at hw
  simp only [List.mem_cons, List.not_mem_nil, or_false, or_self] at hw
  subst hw
  cases hx
  cases hty
  rfl

/-- Whether the value of a closed expression is not of its type, although its literals are of theirs. -/
def IsMistyped (tensors : Tensors) (e : Expr) (d : DType) : Prop :=
  (∀ c w, const w c ∈ e.preorder → w.HasType c) ∧ e.freeVars = [] ∧ e.HasDType d ∧
    ∃ v, e.eval tensors [] = .ok v ∧ ¬ v.HasType d

/-- The first element of a tensor of open element type. -/
def openElement : Expr :=
  element (tensorInput "a" (.hole 0) (some [int 1])) [int 0]

/-- The tensor that `openElement` reads. -/
def openTensors : Tensors :=
  [("a", ⟨[1], #[0.5]⟩)]

/-- An axis that occurs as a float. -/
def floatAxis : Var :=
  ⟨"k", .ofDType .float32⟩

/-- One expression for each way in which the type of an expression that is not faithful misses its value. An element of
open type is read as a `float32` but takes the type of the other operand or branch; a function takes the type of its
first argument but makes a float of it; an occurrence has its own type but the value that its variable is bound to; the
average and the greatest of booleans are floats. -/
theorem isMistyped_outside_rules :
    IsMistyped openTensors (openElement + int 1) .int32 ∧
      IsMistyped openTensors (ite (bool true) openElement (int 1)) .int32 ∧
      IsMistyped [] (call "sqrt" [int 2]) .int32 ∧
      IsMistyped [] (call "abs" [bool true]) .bool ∧
      IsMistyped [] (call "max" [int 1, float 2.0]) .int32 ∧
      IsMistyped [] (letIn (Var.int "x") (float 0.5) (var (Var.int "x"))) .int32 ∧
      IsMistyped [] (reduce .sum [int 1] [floatAxis] (var floatAxis)) .float32 ∧
      IsMistyped [] (reduce .avg [int 1] [floatAxis] (bool true)) .bool ∧
      IsMistyped [] (reduce .max [int 2] [floatAxis] (bool true)) .bool := by
  refine ⟨⟨?_, rfl, rfl, .float (FloatOps.add 0.5 (Binary64.ofInt64 1)), rfl, nofun⟩,
    ⟨?_, rfl, rfl, .float 0.5, rfl, nofun⟩, ⟨?_, rfl, rfl, .float (FloatOps.sqrt (Binary64.ofInt64 2)), rfl, nofun⟩,
    ⟨?_, rfl, rfl, .float (FloatOps.abs 1.0), rfl, nofun⟩,
    ⟨?_, rfl, rfl, .float (FloatOps.max (Binary64.ofInt64 1) 2.0), rfl, nofun⟩,
    ⟨?_, rfl, rfl, .float 0.5, rfl, nofun⟩, ⟨?_, rfl, rfl, .int 0, rfl, nofun⟩,
    ⟨?_, rfl, rfl, .float (FloatOps.div 1.0 (Binary64.ofInt64 1)), rfl, nofun⟩,
    ⟨?_, rfl, rfl, .float (FloatOps.max 1.0 1.0), rfl, nofun⟩⟩
  all_goals
    intro c w hmem
    simp [openElement, preorder_eq, children, int, float, Expr.bool, HAdd.hAdd, Add.add] at hmem
    grind [Value.HasType, DType.isInteger, DType.isFloat]

end Expr

end TensorCompiler
