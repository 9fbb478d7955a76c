import TensorCompiler.Proofs.Expr.Interval
import TensorCompiler.Proofs.Lowering.Integral

/-! # Simplification of expressions by bounds

In a strict run whose variables and hardware indices lie within their bounds, the integers that expressions give
lie in the intervals of the expressions; no operation leaves the word there, so exact arithmetic on bounds is
enough. From this an integral expression that is simplified by bounds gives what it gave before.
-/

namespace TensorCompiler

variable {Address Memory : Type}

/-- Whether the hardware indices and the variables of a run lie within bounds. -/
structure Bounds.Holds (env : Bounds) (M : Machine Address Memory) (vars : Vars Address) : Prop where
  threadIdx : env.threadIdx.Contains M.threadIdx.toInt
  blockIdx : env.blockIdx.Contains M.blockIdx.toInt
  blockDim : env.blockDim.Contains M.blockDim.toInt
  vars : ∀ name I v n, env.vars.lookup name = some I → vars.lookup name = some (.scalar v) →
    v.discrete? = some n → I.Contains n.toInt

variable {M : Machine Address Memory} {memory : Memory} {vars : Vars Address} {env : Bounds} {δ : Datum Address}

/-- The bounds inside the scope of a variable hold if what the variable holds lies in its interval. -/
theorem Bounds.Holds.bind {name : String} {I : Interval} (h : env.Holds M vars)
    (hI : ∀ v n, δ = .scalar v → v.discrete? = some n → I.Contains n.toInt) :
    (env.bind name I).Holds M ((name, δ) :: vars) where
  threadIdx := h.threadIdx
  blockIdx := h.blockIdx
  blockDim := h.blockDim
  vars x J v n hx hv hn := by
    simp only [Bounds.bind, List.lookup_cons] at hx hv
    cases hname : x == name with
    | true =>
      simp only [hname, Option.some.injEq] at hx hv
      subst hx
      exact hI v n hv hn
    | false =>
      simp only [hname] at hx hv
      exact h.vars x J v n hx hv hn

/-! ## Intervals of expressions -/

/-- A hardware index lies within its bounds. -/
theorem Bounds.Holds.contains_ofPrimitive {func : String} {n : Int64} (h : env.Holds M vars)
    (hn : M.index? func = some n) : (env.ofPrimitive func).Contains n.toInt := by
  unfold Machine.index? at hn
  unfold ofPrimitive
  split_ifs at hn ⊢ <;> cases hn
  · exact h.threadIdx
  · exact h.blockIdx
  · exact h.blockDim

namespace Expr

theorem positive?_eq_some_iff {e : Expr} {c : Int} :
    e.positive? = some c ↔ ∃ n d, e = const (.int n) d ∧ 0 < n ∧ c = n.toInt := by
  unfold positive? int?
  split
  · rename_i n hn
    split at hn
    · cases hn
      split_ifs with hpos
      · simp [hpos, eq_comm]
      · simp [hpos]
    · cases hn
  · rename_i hnone
    split at hnone
    · cases hnone
    · rename_i hno
      constructor
      · intro h
        cases h
      · rintro ⟨n, d, rfl, -⟩
        exact absurd rfl (hno n d)

theorem toInt_div_of_pos {x y : Int64} (hy : 0 < y) : (x / y).toInt = x.toInt.tdiv y.toInt := by
  refine Int64.toInt_div_of_ne_right x y ?_
  rintro rfl
  exact absurd hy (by decide)

theorem interval_binary (env : Bounds) (op : BinaryOp) (lhs rhs : Expr) :
    interval env (binary op lhs rhs) = match op, rhs.positive? with
      | .add, _ => (interval env lhs).add (interval env rhs)
      | .sub, _ => (interval env lhs).sub (interval env rhs)
      | .mul, _ => (interval env lhs).mul (interval env rhs)
      | .div, some c => (interval env lhs).div c
      | .mod, some c => (interval env lhs).mod c
      | _, _ => .any := rfl

theorem exists_discrete {a : Value} {d : DType} (hd : d.isFloat = false) (ha : a.HasType d) :
    ∃ n, a.discrete? = some n := by
  cases a with
  | bool b => exact ⟨_, rfl⟩
  | int n => exact ⟨n, rfl⟩
  | float x =>
    rw [show d.isFloat = true from ha] at hd
    cases hd

/-! ## What bounds make of an operation -/

theorem foldResult_boundBinary (env : Bounds) (op : BinaryOp) (lhs rhs : Expr) :
    FoldResult (binary op lhs rhs) (boundBinary env op lhs rhs) := by
  unfold boundBinary
  dsimp only
  split
  · cases (lhs.interval env).compare? true (rhs.interval env) with
    | none => exact .keep
    | some r => exact .literal _ _
  · cases (lhs.interval env).compare? false (rhs.interval env) with
    | none => exact .keep
    | some r => exact .literal _ _
  · split_ifs
    · exact .part (by simp [children])
    · exact .keep
  · split_ifs
    · exact .literal _ _
    · exact .keep
  · exact .keep

theorem HasDType.boundBinary {op : BinaryOp} {lhs rhs : Expr} {d : DType} (hl : lhs.HasDType d) (hr : rhs.HasDType d) :
    (boundBinary env op lhs rhs).HasDType (op.typeOn d) := by
  have hkeep := hl.binary op hr
  unfold Expr.boundBinary
  dsimp only
  split
  · cases (lhs.interval env).compare? true (rhs.interval env) with
    | none => exact hkeep
    | some r => exact hasDType_bool r
  · cases (lhs.interval env).compare? false (rhs.interval env) with
    | none => exact hkeep
    | some r => exact hasDType_bool r
  · split_ifs
    · exact hl
    · exact hkeep
  · rename_i c hc
    obtain ⟨n, e, rfl, -⟩ := positive?_eq_some_iff.mp hc
    obtain rfl := hasDType_const.mp hr
    split_ifs
    · exact hasDType_literal _ _
    · exact hkeep
  · exact hkeep

theorem IsIntegral.boundBinary {op : BinaryOp} {lhs rhs : Expr} (h : (binary op lhs rhs).IsIntegral) (env : Bounds) :
    (boundBinary env op lhs rhs).IsIntegral ∧
      (Expr.boundBinary env op lhs rhs).inferType = (binary op lhs rhs).inferType := by
  obtain ⟨d, hl, hr⟩ := h.binary_inv
  have htype : (Expr.boundBinary env op lhs rhs).inferType = (binary op lhs rhs).inferType :=
    (hl.boundBinary hr).trans (hl.binary op hr).symm
  exact ⟨(foldResult_boundBinary env op lhs rhs).isIntegral htype h, htype⟩

section

variable [FloatOps]

theorem eval?_arithmetic {op : BinaryOp} (hcmp : op.isComparison = false) (hlog : op.isLogical = false) (a b : Value) :
    op.eval? a b = match a, b with
      | .int x, .int y => (op.applyInt? x y).map .int
      | .bool _, .bool _ => none
      | _, _ => (op.applyFloat? a.toFloat b.toFloat).map .float := by
  cases op <;> first | rfl | exact absurd hcmp (by decide) | exact absurd hlog (by decide)

/-- Scalars with an arithmetic result that is no float are integers. -/
theorem ints_of_eval? {op : BinaryOp} {a b v : Value} {n : Int64} (hcmp : op.isComparison = false)
    (hlog : op.isLogical = false) (hv : op.eval? a b = some v) (hn : v.discrete? = some n) :
    ∃ x y, a = .int x ∧ b = .int y ∧ op.applyInt? x y = some n := by
  rw [eval?_arithmetic hcmp hlog] at hv
  split at hv
  · obtain ⟨z, hz, rfl⟩ := Option.map_eq_some_iff.mp hv
    cases hn
    exact ⟨_, _, rfl, rfl, hz⟩
  · cases hv
  · obtain ⟨z, -, rfl⟩ := Option.map_eq_some_iff.mp hv
    cases hn

/-- A positive literal gives its value. -/
theorem toInt_of_positive? {e : Expr} {c : Int} {v : Value} (hc : e.positive? = some c)
    (hrun : e.run M true memory vars = some (.scalar v)) : ∃ n, v = .int n ∧ 0 < n ∧ n.toInt = c := by
  obtain ⟨n, d, rfl, hpos, rfl⟩ := positive?_eq_some_iff.mp hc
  obtain ⟨heq, -⟩ := run_const_eq_some_iff.mp hrun
  exact ⟨n, Datum.scalar.inj heq, hpos, rfl⟩

/-- What an expression gives that is no float lies in its interval. -/
theorem contains_interval {e : Expr} {v : Value} {n : Int64} (h : env.Holds M vars)
    (hrun : e.run M true memory vars = some (.scalar v)) (hn : v.discrete? = some n) :
    (e.interval env).Contains n.toInt := by
  induction e using Expr.induct generalizing v n with
  | node e ih =>
    cases e with
    | var w =>
      obtain ⟨hlookup, -⟩ := run_var_eq_some_iff.mp hrun
      rw [interval]
      cases hI : env.vars.lookup w.name with
      | none => exact Interval.contains_any _
      | some I => exact h.vars w.name I v n hI hlookup hn
    | const value d =>
      obtain ⟨heq, -⟩ := run_const_eq_some_iff.mp hrun
      obtain rfl := Datum.scalar.inj heq
      cases v with
      | int m =>
        cases hn
        exact Interval.contains_exact _
      | bool b => exact Interval.contains_any _
      | float x => cases hn
    | call func args =>
      cases args with
      | nil =>
        rw [interval]
        rcases run_call_eq_some_iff.mp hrun with ⟨-, -, m, hm, heq⟩ | ⟨-, values, w, hvalues, hw, -⟩
        · cases Datum.scalar.inj heq
          cases hn
          exact h.contains_ofPrimitive hm
        · cases List.forall₂_nil_left_iff.mp hvalues
          cases hw
      | cons first rest => exact Interval.contains_any _
    | binary op lhs rhs =>
      obtain ⟨a, b, w, ha, hb, hexact, hw, heq⟩ := run_binary_eq_some_iff.mp hrun
      obtain rfl := Datum.scalar.inj heq
      have hl {x : Int64} (hx : a = .int x) : (lhs.interval env).Contains x.toInt :=
        ih lhs (by simp [children]) (hx ▸ ha) rfl
      have hr {y : Int64} (hy : b = .int y) : (rhs.interval env).Contains y.toInt :=
        ih rhs (by simp [children]) (hy ▸ hb) rfl
      rw [interval_binary]
      split
      · obtain ⟨x, y, rfl, rfl, hsum⟩ := ints_of_eval? rfl rfl hw hn
        cases hsum
        rw [eq_of_beq (hexact rfl)]
        exact Interval.contains_add (hl rfl) (hr rfl)
      · obtain ⟨x, y, rfl, rfl, hdiff⟩ := ints_of_eval? rfl rfl hw hn
        cases hdiff
        rw [eq_of_beq (hexact rfl)]
        exact Interval.contains_sub (hl rfl) (hr rfl)
      · obtain ⟨x, y, rfl, rfl, hprod⟩ := ints_of_eval? rfl rfl hw hn
        cases hprod
        rw [eq_of_beq (hexact rfl)]
        exact Interval.contains_mul (hl rfl) (hr rfl)
      · rename_i c hc
        obtain ⟨x, y, rfl, rfl, hquot⟩ := ints_of_eval? rfl rfl hw hn
        obtain ⟨_, hy, hpos, rfl⟩ := toInt_of_positive? hc hb
        cases hy
        obtain ⟨-, heq⟩ := Option.ite_none_right_eq_some.mp hquot
        cases heq
        rw [toInt_div_of_pos hpos]
        exact Interval.contains_div (Int64.lt_iff_toInt_lt.mp hpos) (hl rfl)
      · rename_i c hc
        obtain ⟨x, y, rfl, rfl, hrem⟩ := ints_of_eval? rfl rfl hw hn
        obtain ⟨_, hy, hpos, rfl⟩ := toInt_of_positive? hc hb
        cases hy
        obtain ⟨-, heq⟩ := Option.ite_none_right_eq_some.mp hrem
        cases heq
        rw [Int64.toInt_mod]
        exact Interval.contains_mod (Int64.lt_iff_toInt_lt.mp hpos) (hl rfl)
      · exact Interval.contains_any _
    | _ => exact Interval.contains_any _

/-! ## Simplifying a node -/

/-- The operands of an integral operation that a strict run computes. -/
theorem IsIntegral.run_binary_inv {op : BinaryOp} {lhs rhs : Expr} (h : (binary op lhs rhs).IsIntegral)
    (hrun : (binary op lhs rhs).run M true memory vars = some δ) :
    ∃ d a b v, d.isFloat = false ∧ a.HasType d ∧ b.HasType d ∧ lhs.run M true memory vars = some (.scalar a) ∧
      rhs.run M true memory vars = some (.scalar b) ∧ op.eval? a b = some v ∧ δ = .scalar v := by
  obtain ⟨d, hl, hr⟩ := h.binary_inv
  have hlhs : lhs.IsIntegral := h.child (by simp [children])
  have hrhs : rhs.IsIntegral := h.child (by simp [children])
  obtain ⟨a, b, v, ha, hb, -, hv, rfl⟩ := run_binary_eq_some_iff.mp hrun
  obtain ⟨_, heq, ta⟩ := hlhs.hasType hl ha
  cases heq
  obtain ⟨_, heq, tb⟩ := hrhs.hasType hr hb
  cases heq
  exact ⟨d, a, b, v, hlhs.node.isFloat hl, ta, tb, ha, hb, hv, rfl⟩

/-- A comparison that the bounds decide gives what they say. -/
theorem eval?_of_interval_compare? {lhs rhs : Expr} (strict : Bool) {r : Bool} {a b v : Value} {d : DType}
    (h : env.Holds M vars) (hd : d.isFloat = false) (ta : a.HasType d) (tb : b.HasType d)
    (ha : lhs.run M true memory vars = some (.scalar a)) (hb : rhs.run M true memory vars = some (.scalar b))
    (hv : (if strict then BinaryOp.lt else BinaryOp.le).eval? a b = some v)
    (hr : (lhs.interval env).compare? strict (rhs.interval env) = some r) : v = .bool r := by
  obtain ⟨m, hm⟩ := exists_discrete hd ta
  obtain ⟨n, hn⟩ := exists_discrete hd tb
  have hcompare : a.compare? b = some (compare m n) := by simp only [Value.compare?, hm, hn]
  have hdecide := Interval.compare?_eq_some hr (contains_interval h ha hm) (contains_interval h hb hn)
  cases strict with
  | true =>
    simp only [if_true, BinaryOp.eval?, hcompare, Option.map_some, Option.some.injEq] at hv hdecide
    rw [← hv, hdecide, Value.bool.injEq, Bool.eq_iff_iff, beq_iff_eq, Std.compare_eq_lt, decide_eq_true_iff]
    exact Int64.lt_iff_toInt_lt
  | false =>
    simp only [Bool.false_eq_true, if_false, BinaryOp.eval?, hcompare, Option.map_some, Option.some.injEq] at hv hdecide
    rw [← hv, hdecide, Value.bool.injEq, Bool.eq_iff_iff, bne_iff_ne, ne_eq, Std.compare_eq_gt, Int64.not_lt,
      decide_eq_true_iff]
    exact Int64.le_iff_toInt_le

/-- A division of a number within a positive divisor leaves the number and has the quotient zero. -/
theorem eval?_of_isWithin {lhs rhs : Expr} {a b : Value} {d : DType} {c : Int} (h : env.Holds M vars)
    (ta : a.HasType d) (tb : b.HasType d) (ha : lhs.run M true memory vars = some (.scalar a))
    (hb : rhs.run M true memory vars = some (.scalar b)) (hc : rhs.positive? = some c)
    (hwithin : (lhs.interval env).isWithin c) :
    d.isInteger ∧ (∀ v, BinaryOp.mod.eval? a b = some v → v = a) ∧
      ∀ v, BinaryOp.div.eval? a b = some v → v = .int 0 := by
  obtain ⟨y, rfl, hpos, rfl⟩ := toInt_of_positive? hc hb
  have hint : d.isInteger := tb
  obtain ⟨x, rfl⟩ := ta.exists_int hint
  obtain ⟨hx, hxy⟩ := Interval.isWithin_bounds hwithin (contains_interval h ha rfl)
  refine ⟨hint, fun v hv => ?_, fun v hv => ?_⟩
  · obtain ⟨n, hn, rfl⟩ := Option.map_eq_some_iff.mp hv
    obtain ⟨-, heq⟩ := Option.ite_none_right_eq_some.mp hn
    cases heq
    rw [Value.int.injEq, ← Int64.toInt_inj, Int64.toInt_mod]
    exact Int.tmod_eq_of_lt hx hxy
  · obtain ⟨n, hn, rfl⟩ := Option.map_eq_some_iff.mp hv
    obtain ⟨-, heq⟩ := Option.ite_none_right_eq_some.mp hn
    cases heq
    rw [Value.int.injEq, ← Int64.toInt_inj, toInt_div_of_pos hpos]
    exact Int.tdiv_eq_zero_of_lt hx hxy

/-- What bounds make of an operation gives what the operation gives. -/
theorem IsIntegral.run_boundBinary {op : BinaryOp} {lhs rhs : Expr} (h : (binary op lhs rhs).IsIntegral)
    (hholds : env.Holds M vars) (hrun : (binary op lhs rhs).run M true memory vars = some δ) :
    (Expr.boundBinary env op lhs rhs).run M true memory vars = some δ := by
  obtain ⟨d, a, b, v, hd, ta, tb, ha, hb, hv, rfl⟩ := h.run_binary_inv hrun
  have hbool (r : Bool) : (bool r).run M true memory vars = some (.scalar (.bool r)) :=
    run_const_eq_some_iff.mpr ⟨rfl, fun _ => rfl⟩
  unfold Expr.boundBinary
  dsimp only
  split
  · cases hr : (lhs.interval env).compare? true (rhs.interval env) with
    | none => exact hrun
    | some r =>
      rw [eval?_of_interval_compare? true hholds hd ta tb ha hb hv hr]
      exact hbool r
  · cases hr : (lhs.interval env).compare? false (rhs.interval env) with
    | none => exact hrun
    | some r =>
      rw [eval?_of_interval_compare? false hholds hd ta tb ha hb hv hr]
      exact hbool r
  · rename_i c hc
    split_ifs with hwithin
    · obtain ⟨-, hmod, -⟩ := eval?_of_isWithin hholds ta tb ha hb hc hwithin
      rw [hmod v hv]
      exact ha
    · exact hrun
  · rename_i c hc
    split_ifs with hwithin
    · obtain ⟨hint, -, hdiv⟩ := eval?_of_isWithin hholds ta tb ha hb hc hwithin
      obtain ⟨n, e, rfl, -⟩ := positive?_eq_some_iff.mp hc
      have he : e.isInteger := (run_const_eq_some_iff.mp hb).2 rfl
      have hzero : (Value.int 0).HasType e := he
      rw [hdiv v hv]
      refine run_const_eq_some_iff.mpr ⟨?_, fun _ => Value.hasType_cast _ _⟩
      rw [literalType, hzero.cast_eq]
    · exact hrun
  · exact hrun

/-- A node that is simplified by bounds is integral, with the type of the node. -/
theorem IsIntegral.boundNode {e : Expr} (h : e.IsIntegral) (env : Bounds) :
    (boundNode env e).IsIntegral ∧ (Expr.boundNode env e).inferType = e.inferType := by
  cases e
  case binary op lhs rhs =>
    obtain ⟨hbound, htype⟩ := h.boundBinary env
    exact ⟨hbound.foldNode, hbound.inferType_foldNode.trans htype⟩
  all_goals exact ⟨h.foldNode, h.inferType_foldNode⟩

/-- A node that is simplified by bounds gives what the node gives. -/
theorem IsIntegral.run_boundNode {e : Expr} (U : FloatOps.SeparatesUnits) (h : e.IsIntegral) (hholds : env.Holds M vars)
    (hrun : e.run M true memory vars = some δ) : (Expr.boundNode env e).run M true memory vars = some δ := by
  cases e
  case binary op lhs rhs => exact (h.boundBinary env).1.run_foldNode U (h.run_boundBinary hholds hrun)
  all_goals exact h.run_foldNode U hrun

/-! ## Simplifying an expression -/

theorem simplifyAllBounds_eq (env : Bounds) (es : List Expr) :
    simplifyAllBounds env es = es.map (simplifyBounds env) := by
  induction es with
  | nil => rfl
  | cons e es ih => rw [simplifyAllBounds, ih, List.map_cons]

theorem simplifyBounds_eq {e : Expr} (env : Bounds) (he : ∀ v value body, e ≠ letIn v value body) :
    simplifyBounds env e = Expr.boundNode env (e.mapChildren (simplifyBounds env)) := by
  cases e with
  | letIn v value body => exact absurd rfl (he v value body)
  | tensorInput name dtype shape => cases shape <;> simp [simplifyBounds, mapChildren, simplifyAllBounds_eq]
  | _ => simp [simplifyBounds, mapChildren, simplifyAllBounds_eq]

/-- An expression that is simplified by bounds is integral, with the type of the expression. -/
theorem IsIntegral.simplifyBounds {e : Expr} (h : e.IsIntegral) (env : Bounds) :
    (simplifyBounds env e).IsIntegral ∧ (Expr.simplifyBounds env e).inferType = e.inferType := by
  induction e using Expr.induct generalizing env with
  | node e ih =>
    have hchildren (env : Bounds) : ∀ c ∈ e.children, (Expr.simplifyBounds env c).IsIntegral ∧
        (Expr.simplifyBounds env c).inferType = c.inferType :=
      fun c hc => ih c hc (h.child hc) env
    by_cases hlet : ∃ v value body, e = letIn v value body
    · obtain ⟨v, value, body, rfl⟩ := hlet
      rw [Expr.simplifyBounds]
      obtain ⟨-, ty, hty, hint⟩ := h.node
      have hvalue := hchildren env value (by simp [children])
      have hbody := hchildren (env.bind v.name ((value.simplifyBounds env).interval env)) body (by simp [children])
      refine ⟨isIntegral_of_children ⟨rfl, ty, hbody.2.trans hty, hint⟩ fun c hc => ?_, hbody.2⟩
      rcases List.mem_pair.mp hc with rfl | rfl
      · exact hvalue.1
      · exact hbody.1
    · rw [simplifyBounds_eq env fun v value body heq => hlet ⟨v, value, body, heq⟩]
      obtain ⟨hint, htype⟩ := h.mapChildren (hchildren env)
      exact ⟨(hint.boundNode env).1, (hint.boundNode env).2.trans htype⟩

/-- An expression that is simplified by bounds gives what the expression gives. -/
theorem IsIntegral.run_simplifyBounds {e : Expr} (U : FloatOps.SeparatesUnits) (h : e.IsIntegral)
    (hholds : env.Holds M vars) (hrun : e.run M true memory vars = some δ) :
    (Expr.simplifyBounds env e).run M true memory vars = some δ := by
  induction e using Expr.induct_proper generalizing env vars δ with
  | node e ih =>
    by_cases hlet : ∃ v value body, e = letIn v value body
    · obtain ⟨v, value, body, rfl⟩ := hlet
      obtain ⟨δ', hvalue, hbody⟩ := run_letIn_eq_some_iff.mp hrun
      have hmem {c : Expr} (hc : c ∈ (letIn v value body).children) :
          c ∈ (letIn v value body).children.flatMap preorder :=
        List.mem_flatMap.mpr ⟨c, hc, mem_preorder_self c⟩
      have hvalue' := ih value (hmem (by simp [children])) (h.child (by simp [children])) hholds hvalue
      rw [Expr.simplifyBounds]
      refine run_letIn_eq_some_iff.mpr ⟨δ', hvalue', ?_⟩
      refine ih body (hmem (by simp [children])) (h.child (by simp [children])) (hholds.bind ?_) hbody
      rintro w n rfl hn
      exact contains_interval hholds hvalue' hn
    · have hnode : ∀ v value body, e ≠ letIn v value body := fun v value body heq => hlet ⟨v, value, body, heq⟩
      obtain ⟨hint, htype⟩ := h.mapChildren fun c hc => (h.child hc).simplifyBounds env
      have hpart : ∀ s ∈ e.children.flatMap preorder, s.IsIntegral := by
        intro s hs t ht
        obtain ⟨c, hc, hs⟩ := List.mem_flatMap.mp hs
        exact h t (mem_preorder_trans (mem_preorder_of_child hc hs) ht)
      have helement (base : Expr) (indices : List Expr) : Expr.simplifyBounds env (element base indices) =
          element (Expr.simplifyBounds env base) (indices.map (Expr.simplifyBounds env)) := by
        rw [Expr.simplifyBounds, simplifyAllBounds_eq]
        rfl
      rw [simplifyBounds_eq env hnode]
      refine hint.run_boundNode U hholds ?_
      exact run_mapChildren id hnode htype helement (fun arg => by rw [Expr.simplifyBounds]; rfl)
        (fun s hs δ hs' => ih s hs (hpart s hs) hholds hs') hrun

end

end Expr

end TensorCompiler
