import TensorCompiler.Proofs.Expr.FoldEval
import TensorCompiler.Proofs.Expr.TypeSoundness
import TensorCompiler.Proofs.Scalar.Int32

/-! # The range of folded literals

Folding computes in words of 64 bits, whatever integer type the literal of the result has. So an `int32` literal may be a
number that `int32` does not have, but only where an operation on literals leaves the `int32` numbers: a sum, a difference,
a product, a left shift, the negation or the absolute value of the least number, its quotient by minus one, or a value of
another type or computed in floats that becomes an `int32` literal. Where no operation does, every `int32` literal of the
folded expression is an `int32` number.
-/

namespace TensorCompiler.Expr

/-- Whether every `int32` literal of an expression is an `int32` number. -/
def LiteralsFit (e : Expr) : Prop :=
  ∀ v, const v .int32 ∈ e.preorder → ∃ n, v = .int n ∧ IsInt32 n.toInt

variable {e lhs rhs arg cond thenE elseE : Expr} {v : Value} {d : DType}

theorem LiteralsFit.child {c : Expr} (h : e.LiteralsFit) (hc : c ∈ e.children) : c.LiteralsFit :=
  fun v hv => h v (mem_preorder_of_child hc hv)

/-- A node that is no literal has the literals of its parts. -/
theorem literalsFit_of_children (hnode : ∀ v, e ≠ const v .int32) (h : ∀ c ∈ e.children, c.LiteralsFit) :
    e.LiteralsFit := by
  intro v hv
  obtain ⟨c, hc, hmem⟩ := exists_child_of_mem_preorder hv (hnode v).symm
  exact h c hc v hmem

theorem literalsFit_const_iff :
    (const v d).LiteralsFit ↔ (d = .int32 → ∃ n, v = .int n ∧ IsInt32 n.toInt) := by
  constructor
  · rintro h rfl
    exact h v (mem_preorder_self _)
  · intro h w hw
    cases List.mem_singleton.mp hw
    exact h rfl

/-- An integer among the parts of a node is an `int32` number if its type is `int32`. -/
theorem LiteralsFit.isInt32 (h : e.LiteralsFit) {x : Int64} (hx : const (.int x) .int32 ∈ e.children) :
    IsInt32 x.toInt := by
  obtain ⟨_, hn, hrange⟩ := literalsFit_const_iff.mp (h.child hx) rfl
  cases hn
  exact hrange

theorem literalsFit_literal (h : d = .int32 → IsInt32 v.toInt64.toInt) : (literal v d).LiteralsFit := by
  refine literalsFit_const_iff.mpr ?_
  rintro rfl
  exact ⟨v.toInt64, v.cast_int32, h rfl⟩

theorem literalsFit_bool (b : Bool) : (bool b).LiteralsFit :=
  literalsFit_const_iff.mpr (by simp)

theorem LiteralsFit.asBool (h : e.LiteralsFit) : e.asBool.LiteralsFit := by
  unfold Expr.asBool
  split_ifs
  · exact h
  · exact literalsFit_of_children (by simp) (by simpa [children] using h)

theorem LiteralsFit.binary (op : BinaryOp) (hl : lhs.LiteralsFit) (hr : rhs.LiteralsFit) :
    (Expr.binary op lhs rhs).LiteralsFit :=
  literalsFit_of_children (by simp) (by simp [children, hl, hr])

section

variable [FloatOps]

/-- Whether a node is an operation on literals whose value is no `int32` number and becomes an `int32` literal. The
arithmetic on `int32` numbers is meant as that on integers. -/
inductive Overflows : Expr → Prop
  | arithmetic {op : BinaryOp} {x y : Int64} {n : Int} (hn : op.exact? x.toInt y.toInt = some n) (h : ¬ IsInt32 n) :
      Overflows (.binary op (const (.int x) .int32) (const (.int y) .int32))
  | shift {x y n : Int64} (hn : BinaryOp.shl.applyInt? x y = some n) (h : ¬ IsInt32 n.toInt) :
      Overflows (.binary .shl (const (.int x) .int32) (const (.int y) .int32))
  /-- An operation on a boolean and a number, which computes in floats. -/
  | mixed {op : BinaryOp} {a b v : Value} {c d : DType} (hd : c = .bool ∧ d = .int32 ∨ c = .int32 ∧ d = .bool)
      (hv : op.eval? a b = some v) (h : ¬ IsInt32 v.toInt64.toInt) : Overflows (.binary op (const a c) (const b d))
  | neg {x : Int64} (h : ¬ IsInt32 (-x.toInt)) : Overflows (.unary .neg (const (.int x) .int32))
  | abs {x : Int64} (h : ¬ IsInt32 |x.toInt|) : Overflows (.call "abs" [const (.int x) .int32])
  /-- A function whose value is a float takes the type of its first argument. -/
  | function {func : String} {x : Int64} {args : List Expr} {values : List Value} {r : Float}
      (hvalues : args.mapM value? = some values) (hr : Intrinsic.eval? func (.int x :: values) = some (.float r))
      (h : ¬ IsInt32 (Binary64.truncate r).toInt) : Overflows (.call func (const (.int x) .int32 :: args))
  /-- So does the greater or the lesser of two integers. -/
  | choice {func : String} {x y n : Int64} {d : DType} (hd : d ≠ .int32)
      (hn : Intrinsic.eval? func [.int x, .int y] = some (.int n)) (h : ¬ IsInt32 n.toInt) :
      Overflows (.call func [const (.int x) .int32, const (.int y) d])
  | cast {v : Value} {d : DType} (hd : d ≠ .int32) (h : ¬ IsInt32 v.toInt64.toInt) :
      Overflows (.cast (.ofDType .int32) (const v d))

/-! ## Values -/

theorem isInt32_of_applyInt? {op : BinaryOp} {x y n : Int64} (hx : IsInt32 x.toInt) (hy : IsInt32 y.toInt)
    (hn : op.applyInt? x y = some n)
    (hexact : ¬ Overflows (.binary op (const (.int x) .int32) (const (.int y) .int32))) : IsInt32 n.toInt := by
  have hof {m : Int} (hm : op.exact? x.toInt y.toInt = some m) : IsInt32 n.toInt := by
    rw [IsInt32.toInt_of_exact? hx hy hm hn]
    by_contra h
    exact hexact (.arithmetic hm h)
  cases op with
  | add | sub | mul | div => exact hof rfl
  | mod =>
    rw [BinaryOp.applyInt?] at hn
    split_ifs at hn
    cases hn
    exact hx.mod
  | bitAnd =>
    cases hn
    exact hx.and hy
  | bitOr =>
    cases hn
    exact hx.or hy
  | shl =>
    by_contra h
    exact hexact (.shift hn h)
  | shr =>
    obtain ⟨k, -, rfl⟩ := Option.map_eq_some_iff.mp hn
    exact hx.shiftRight
  | _ => cases hn

omit [FloatOps] in
/-- The types of literals whose operations become `int32` literals. -/
theorem types_of_resultType {op : BinaryOp} {c d : DType} (h : resultType op c d = .int32) :
    c = .int32 ∧ d = .int32 ∨ (c = .bool ∧ d = .int32 ∨ c = .int32 ∧ d = .bool) := by
  unfold resultType at h
  split_ifs at h
  cases c <;> cases d <;> simp_all [DType.promote, DType.isFloat, DType.bytes]

omit [FloatOps] in
theorem isInt32_bool (b : Bool) : IsInt32 (Value.bool b).toInt64.toInt := by
  cases b <;> decide

/-- The value of an operation on `int32` numbers is an integer or a truth value. -/
theorem isInt32_of_eval? {op : BinaryOp} {x y : Int64} (hx : IsInt32 x.toInt) (hy : IsInt32 y.toInt)
    (hv : op.eval? (.int x) (.int y) = some v)
    (hexact : ¬ Overflows (.binary op (const (.int x) .int32) (const (.int y) .int32))) : IsInt32 v.toInt64.toInt := by
  have hint (happly : (op.applyInt? x y).map Value.int = some v) : IsInt32 v.toInt64.toInt := by
    obtain ⟨n, hn, rfl⟩ := Option.map_eq_some_iff.mp happly
    exact isInt32_of_applyInt? hx hy hn hexact
  cases op with
  | and | or =>
    cases hv
    exact isInt32_bool _
  | lt | le | eq | ne =>
    rw [BinaryOp.eval?] at hv
    obtain ⟨order, -, rfl⟩ := Option.map_eq_some_iff.mp hv
    exact isInt32_bool _
  | _ => exact hint hv

/-- A function of an integer and other values is an integer if it is the absolute value, or one of two integers. -/
theorem cases_of_intrinsic {func : String} {x n : Int64} {values : List Value}
    (h : Intrinsic.eval? func (.int x :: values) = some (.int n)) :
    func = "abs" ∧ values = [] ∧ n = Intrinsic.absInt x ∨ ∃ y, values = [.int y] ∧ (n = x ∨ n = y) := by
  match values with
  | [] =>
    rw [Intrinsic.eval?] at h
    split_ifs at h with habs
    · cases h
      exact .inl ⟨habs, rfl, rfl⟩
    · obtain ⟨r, -, hr⟩ := Option.map_eq_some_iff.mp h
      cases hr
  | [.int y] =>
    refine .inr ⟨y, rfl, ?_⟩
    rw [Intrinsic.eval?] at h
    split_ifs at h <;> cases h <;> simp
  | [.bool b] | [.float r] =>
    simp only [Intrinsic.eval?] at h
    split_ifs at h <;> cases h
  | a :: b :: rest => simp [Intrinsic.eval?] at h

omit [FloatOps] in
/-- Expressions that show their values are literals of them. -/
theorem exists_const_of_mapM_value? {args : List Expr} {values : List Value} (h : args.mapM value? = some values) :
    List.Forall₂ (fun arg value => ∃ d, arg = const value d) args values := by
  induction args generalizing values with
  | nil =>
    cases h
    exact .nil
  | cons arg args ih =>
    rw [List.mapM_cons] at h
    obtain ⟨value, hvalue, hrest⟩ := Option.bind_eq_some_iff.mp h
    obtain ⟨values, hvalues, hcons⟩ := Option.bind_eq_some_iff.mp hrest
    cases hcons
    cases arg <;> cases hvalue
    exact .cons ⟨_, rfl⟩ (ih hvalues)

/-- What a function of an `int32` number and other literals becomes. -/
theorem isInt32_of_intrinsic {func : String} {x : Int64} {args : List Expr} {values : List Value}
    (hx : IsInt32 x.toInt) (hargs : ∀ arg ∈ args, arg.LiteralsFit) (hvalues : args.mapM value? = some values)
    (hv : Intrinsic.eval? func (.int x :: values) = some v)
    (hexact : ¬ Overflows (.call func (const (.int x) .int32 :: args))) : IsInt32 v.toInt64.toInt := by
  have hconsts := exists_const_of_mapM_value? hvalues
  cases v with
  | bool b => exact isInt32_bool b
  | float r =>
    by_contra h
    exact hexact (.function hvalues hv h)
  | int n =>
    change IsInt32 n.toInt
    rcases cases_of_intrinsic hv with ⟨rfl, rfl, rfl⟩ | ⟨y, rfl, hn⟩
    · cases hconsts
      rw [IsInt32.toInt_absInt hx]
      by_contra h
      exact hexact (.abs h)
    · obtain ⟨arg, rest, ⟨d, rfl⟩, hrest, rfl⟩ := List.forall₂_cons_right_iff.mp hconsts
      cases hrest
      -- only a literal of the type `int32` is known to be in range
      by_cases hd : d = .int32
      · obtain ⟨m, hm, hy⟩ := literalsFit_const_iff.mp (hargs _ List.mem_cons_self) hd
        cases hm
        rcases hn with rfl | rfl
        · exact hx
        · exact hy
      · by_contra h
        exact hexact (.choice hd hv h)

/-! ## Nodes -/

omit [FloatOps] in
theorem LiteralsFit.foldZero? {x zero other : Expr} (h : other.LiteralsFit) :
    ((foldZero? x zero).getD other).LiteralsFit := by
  cases hzero : Expr.foldZero? x zero with
  | none => exact h
  | some folded =>
    obtain ⟨d, -, -, -, rfl⟩ := foldZero?_eq_some_iff.mp hzero
    exact literalsFit_literal fun _ => IsInt32.zero

theorem LiteralsFit.foldMul (hl : lhs.LiteralsFit) (hr : rhs.LiteralsFit) : (foldMul lhs rhs).LiteralsFit := by
  have hkeep : (lhs * rhs).LiteralsFit := hl.binary .mul hr
  unfold Expr.foldMul
  split_ifs
  · exact hl
  · exact hr
  · exact hkeep.foldZero?
  · exact hkeep.foldZero?
  · exact hkeep

theorem LiteralsFit.foldMod (hl : lhs.LiteralsFit) (hr : rhs.LiteralsFit) : (foldMod lhs rhs).LiteralsFit := by
  have hkeep : (lhs % rhs).LiteralsFit := hl.binary .mod hr
  unfold Expr.foldMod
  split_ifs
  · split
    · exact literalsFit_literal fun _ => IsInt32.zero
    · exact hkeep
  · exact hkeep

omit [FloatOps] in
theorem LiteralsFit.foldLogical {op : BinaryOp} {absorbing : Bool} (hl : lhs.LiteralsFit) (hr : rhs.LiteralsFit) :
    (foldLogical op absorbing lhs rhs).LiteralsFit := by
  unfold Expr.foldLogical
  dsimp only
  split_ifs
  · exact literalsFit_bool _
  · exact hr.asBool
  · exact hl.asBool
  · exact hl.binary op hr

/-- The literal of an operation on literals, unless the operation overflows. -/
theorem LiteralsFit.foldLiterals? {op : BinaryOp} {folded : Expr} (hl : lhs.LiteralsFit) (hr : rhs.LiteralsFit)
    (h : foldLiterals? op lhs rhs = some folded) (hexact : ¬ Overflows (.binary op lhs rhs)) : folded.LiteralsFit := by
  obtain ⟨a, b, c, d, v, rfl, rfl, hv, rfl⟩ := foldLiterals?_eq_some_iff.mp h
  refine literalsFit_literal fun htype => ?_
  rcases types_of_resultType htype with ⟨rfl, rfl⟩ | hmixed
  · obtain ⟨x, rfl, hx⟩ := literalsFit_const_iff.mp hl rfl
    obtain ⟨y, rfl, hy⟩ := literalsFit_const_iff.mp hr rfl
    exact isInt32_of_eval? hx hy hv hexact
  · by_contra h
    exact hexact (.mixed hmixed hv h)

theorem LiteralsFit.foldBinary {op : BinaryOp} (hl : lhs.LiteralsFit) (hr : rhs.LiteralsFit)
    (hexact : ¬ Overflows (.binary op lhs rhs)) : (foldBinary op lhs rhs).LiteralsFit := by
  have hkeep : (Expr.binary op lhs rhs).LiteralsFit := hl.binary op hr
  unfold Expr.foldBinary
  cases h : Expr.foldLiterals? op lhs rhs with
  | some folded => exact hl.foldLiterals? hr h hexact
  | none =>
    -- what is left keeps an operand or the node, or gives zero or a truth value
    cases op
    case add =>
      dsimp only
      split_ifs
      · exact hl
      · exact hr
      · exact hkeep
    case sub | div =>
      dsimp only
      split_ifs
      · exact hl
      · exact hkeep
    case mul => exact hl.foldMul hr
    case mod => exact hl.foldMod hr
    case and | or => exact hl.foldLogical hr
    all_goals exact hkeep

theorem LiteralsFit.foldUnary {op : UnaryOp} (h : arg.LiteralsFit) (hexact : ¬ Overflows (.unary op arg)) :
    (foldUnary op arg).LiteralsFit := by
  have hkeep : (Expr.unary op arg).LiteralsFit := literalsFit_of_children (by simp) (by simpa [children] using h)
  unfold Expr.foldUnary
  split
  · rename_i value dtype
    split
    · rename_i b _
      split_ifs with hd
      · exact literalsFit_literal (by simp [hd])
      · exact literalsFit_bool b
    · rename_i v _ hv
      refine literalsFit_literal ?_
      rintro rfl
      obtain ⟨x, rfl, hx⟩ := literalsFit_const_iff.mp h rfl
      cases op with
      | neg =>
        cases hv
        change IsInt32 (-x).toInt
        rw [IsInt32.toInt_neg hx]
        by_contra hneg
        exact hexact (.neg hneg)
      | not =>
        cases hv
        exact isInt32_bool _
      | bitNot =>
        cases hv
        exact hx.not
    · exact hkeep
  · exact hkeep

omit [FloatOps] in
theorem LiteralsFit.foldIte (hc : cond.LiteralsFit) (ht : thenE.LiteralsFit) (he : elseE.LiteralsFit) :
    (foldIte cond thenE elseE).LiteralsFit := by
  unfold Expr.foldIte
  split
  · split_ifs
    · exact ht
    · exact he
  · exact literalsFit_of_children (by simp) (by simp [children, hc, ht, he])

theorem LiteralsFit.foldCast {target : Ty} (h : arg.LiteralsFit) (hexact : ¬ Overflows (.cast target arg)) :
    (foldCast target arg).LiteralsFit := by
  unfold Expr.foldCast
  split
  · rename_i d v c
    refine literalsFit_literal ?_
    rintro rfl
    by_cases hc : c = .int32
    · obtain ⟨n, rfl, hn⟩ := literalsFit_const_iff.mp h hc
      exact hn
    · by_contra hv
      exact hexact (.cast hc hv)
  · exact literalsFit_of_children (by simp) (by simpa [children] using h)

theorem LiteralsFit.foldCall {func : String} {args : List Expr} (h : ∀ arg ∈ args, arg.LiteralsFit)
    (hexact : ¬ Overflows (.call func args)) : (foldCall func args).LiteralsFit := by
  rcases foldCall_cases func args with hkeep | ⟨values, v, first, d, hvalues, hv, hfirst, htype, hfold⟩
  · rw [hkeep]
    exact literalsFit_of_children (by simp) h
  · rw [hfold]
    refine literalsFit_literal ?_
    rintro rfl
    obtain ⟨rest, rfl⟩ := List.head?_eq_some_iff.mp hfirst
    rw [List.mapM_cons] at hvalues
    obtain ⟨a, ha, hrest⟩ := Option.bind_eq_some_iff.mp hvalues
    obtain ⟨others, hothers, hcons⟩ := Option.bind_eq_some_iff.mp hrest
    cases hcons
    cases first <;> cases ha
    obtain rfl := hasDType_const.mp htype
    obtain ⟨x, rfl, hx⟩ := literalsFit_const_iff.mp (h _ List.mem_cons_self) rfl
    exact isInt32_of_intrinsic hx (fun arg harg => h arg (List.mem_cons_of_mem _ harg)) hothers hv hexact

/-- A node whose literals fit is folded to one whose literals fit, unless it overflows. -/
theorem LiteralsFit.foldNode (h : e.LiteralsFit) (hexact : ¬ e.Overflows) : e.foldNode.LiteralsFit := by
  cases e with
  | unary op arg => exact (h.child (by simp [children])).foldUnary hexact
  | binary op lhs rhs => exact (h.child (by simp [children])).foldBinary (h.child (by simp [children])) hexact
  | ite cond thenE elseE =>
    exact (h.child (by simp [children])).foldIte (h.child (by simp [children])) (h.child (by simp [children]))
  | cast target arg => exact (h.child (by simp [children])).foldCast hexact
  | call func args => exact .foldCall (fun arg harg => h.child harg) hexact
  | _ => exact h

omit [FloatOps] in
theorem not_literalsFit_literal (h : ¬ IsInt32 v.toInt64.toInt) : ¬ (literal v .int32).LiteralsFit := by
  intro hfit
  obtain ⟨n, hn, hrange⟩ := literalsFit_const_iff.mp hfit rfl
  rw [v.cast_int32] at hn
  cases hn
  exact h hrange

/-- Two literals whose operation has a value that is no `int32` number become a literal that does not fit. -/
theorem not_literalsFit_foldBinary {op : BinaryOp} {a b : Value} {c d : DType} (htype : c.promote d = .int32)
    (hv : op.eval? a b = some v) (h : ¬ IsInt32 v.toInt64.toInt) :
    ¬ (foldBinary op (const a c) (const b d)).LiteralsFit := by
  -- a truth value would become zero or one
  have hplain : (op.isComparison || op.isLogical) = false := by
    by_contra htruth
    obtain ⟨t, rfl⟩ := BinaryOp.exists_bool_of_eval? (Bool.not_eq_false _ ▸ htruth) hv
    exact h (isInt32_bool t)
  have hfolded : foldLiterals? op (const a c) (const b d) = some (literal v .int32) :=
    foldLiterals?_eq_some_iff.mpr ⟨a, b, c, d, v, rfl, rfl, hv, by simp [resultType, hplain, htype]⟩
  unfold Expr.foldBinary
  rw [hfolded]
  exact not_literalsFit_literal h

/-- Literals of which a function has a value that is no `int32` number become a literal that does not fit. -/
theorem not_literalsFit_foldCall {func : String} {x : Int64} (args : List Expr) {values : List Value}
    (hvalues : args.mapM value? = some values) (hv : Intrinsic.eval? func (.int x :: values) = some v)
    (h : ¬ IsInt32 v.toInt64.toInt) : ¬ (foldCall func (const (.int x) .int32 :: args)).LiteralsFit := by
  have hall : (const (.int x) .int32 :: args).mapM value? = some (.int x :: values) := by
    rw [List.mapM_cons, hvalues]
    rfl
  have hfolded : foldCall func (const (.int x) .int32 :: args) = literal v .int32 := by
    simp [Expr.foldCall, hall, hv, knownDType?_eq_some_iff.mpr (hasDType_const.mpr rfl)]
  rw [hfolded]
  exact not_literalsFit_literal h

/-- A node that overflows is folded to a literal that does not fit. -/
theorem Overflows.not_literalsFit_foldNode (ho : e.Overflows) (h : e.LiteralsFit) : ¬ e.foldNode.LiteralsFit := by
  cases ho with
  | @arithmetic op x y n hn hrange =>
    have hx : IsInt32 x.toInt := h.isInt32 (by simp [children])
    have hy : IsInt32 y.toInt := h.isInt32 (by simp [children])
    obtain ⟨z, hz⟩ := IsInt32.exists_applyInt? hx hn hrange
    have hv : op.eval? (.int x) (.int y) = some (.int z) := by
      cases op <;> cases hn <;> exact congrArg (Option.map Value.int) hz
    refine not_literalsFit_foldBinary rfl hv ?_
    change ¬ IsInt32 z.toInt
    rwa [IsInt32.toInt_of_exact? hx hy hn hz]
  | shift hn hrange => exact not_literalsFit_foldBinary rfl (congrArg (Option.map Value.int) hn) hrange
  | mixed hd hv hrange =>
    refine not_literalsFit_foldBinary ?_ hv hrange
    rcases hd with ⟨rfl, rfl⟩ | ⟨rfl, rfl⟩ <;> rfl
  | @neg x hrange =>
    refine not_literalsFit_literal (v := .int (-x)) ?_
    change ¬ IsInt32 (-x).toInt
    rwa [IsInt32.toInt_neg (h.isInt32 (by simp [children]))]
  | @abs x hrange =>
    have hv : Intrinsic.eval? "abs" [.int x] = some (.int (Intrinsic.absInt x)) := rfl
    refine not_literalsFit_foldCall [] rfl hv ?_
    change ¬ IsInt32 (Intrinsic.absInt x).toInt
    rwa [IsInt32.toInt_absInt (h.isInt32 (by simp [children]))]
  | function hvalues hr hrange => exact not_literalsFit_foldCall _ hvalues hr hrange
  | @choice func x y n d hd hn hrange => exact not_literalsFit_foldCall [const (.int y) d] rfl hn hrange
  | cast hd hrange => exact not_literalsFit_literal hrange

omit [FloatOps] in
/-- Rebuilt parts of a node leave its own literal as it is. -/
theorem LiteralsFit.mapChildren {f : Expr → Expr} (h : e.LiteralsFit) (hf : ∀ c ∈ e.children, (f c).LiteralsFit) :
    (e.mapChildren f).LiteralsFit := by
  cases e with
  | const v d => exact h
  | _ =>
    refine literalsFit_of_children (by simp [Expr.mapChildren]) ?_
    rw [children_mapChildren]
    exact List.forall_mem_map.mpr hf

/-- A node whose literals fit is folded to one whose literals fit exactly if it does not overflow. -/
theorem literalsFit_foldNode_iff (h : e.LiteralsFit) : e.foldNode.LiteralsFit ↔ ¬ e.Overflows :=
  ⟨fun hfit ho => ho.not_literalsFit_foldNode h hfit, h.foldNode⟩

theorem LiteralsFit.fold (h : e.LiteralsFit) (hexact : ∀ s ∈ e.preorder, ¬ (s.mapChildren fold).Overflows) :
    e.fold.LiteralsFit := by
  induction e using Expr.induct with
  | node e ih =>
    have hparts : ∀ c ∈ e.children, c.fold.LiteralsFit := fun c hc =>
      ih c hc (h.child hc) fun s hs => hexact s (mem_preorder_of_child hc hs)
    rw [fold_eq]
    exact (h.mapChildren hparts).foldNode (hexact e (mem_preorder_self e))

omit [FloatOps] in
theorem LiteralsFit.of_mem_preorder {s : Expr} (h : e.LiteralsFit) (hs : s ∈ e.preorder) : s.LiteralsFit :=
  fun v hv => h v (mem_preorder_trans hs hv)

/-- The `int32` literals of an expression and its parts are `int32` numbers after folding exactly if no operation that
is folded overflows. -/
theorem literalsFit_fold_iff (h : e.LiteralsFit) :
    (∀ s ∈ e.preorder, s.fold.LiteralsFit) ↔ ∀ s ∈ e.preorder, ¬ (s.mapChildren fold).Overflows := by
  constructor
  · intro hfit s hs
    have hparts : ∀ c ∈ s.children, c.fold.LiteralsFit := fun c hc =>
      hfit c (mem_preorder_trans hs (mem_preorder_of_child hc (mem_preorder_self c)))
    rw [← literalsFit_foldNode_iff ((h.of_mem_preorder hs).mapChildren hparts), ← fold_eq]
    exact hfit s hs
  · intro hexact s hs
    exact (h.of_mem_preorder hs).fold fun t ht => hexact t (mem_preorder_trans hs ht)

end

theorem literalsFit_int {n : Int64} (h : IsInt32 n.toInt) : (int n).LiteralsFit :=
  literalsFit_const_iff.mpr fun _ => ⟨n, rfl, h⟩

/-- A number under a mask. Neither the shift nor the conjunction leaves the `int32` numbers. -/
def maskedShift : Expr :=
  binary .bitAnd (int 2147483647) (binary .shl (int 3) (int 4))

theorem literalsFit_fold_maskedShift :
    maskedShift.LiteralsFit ∧ ∀ s ∈ maskedShift.preorder, s.fold.LiteralsFit := by
  have hfit : maskedShift.LiteralsFit :=
    (literalsFit_int (by decide)).binary _ ((literalsFit_int (by decide)).binary _ (literalsFit_int (by decide)))
  refine ⟨hfit, (literalsFit_fold_iff hfit).mpr ?_⟩
  intro s hs
  change s ∈ [_, _, _, _, _] at hs
  simp only [List.mem_cons, List.not_mem_nil, or_false] at hs
  rcases hs with rfl | rfl | rfl | rfl | rfl
  · change ¬ (binary .bitAnd (int 2147483647) (int 48)).Overflows
    rintro (hn | _ | hd)
    · cases hn
    · simp at hd
  · rintro ⟨⟩
  · change ¬ (binary .shl (int 3) (int 4)).Overflows
    rintro (hn | ⟨hn, hrange⟩ | hd)
    · cases hn
    · cases hn
      exact hrange (by decide)
    · simp at hd
  · rintro ⟨⟩
  · rintro ⟨⟩

/-- The sum of the greatest `int32` number and one is folded to a literal that is no `int32` number. -/
theorem not_literalsFit_fold_successor :
    (int 2147483647 + int 1).LiteralsFit ∧ ¬ (int 2147483647 + int 1).fold.LiteralsFit := by
  refine ⟨(literalsFit_int (by decide)).binary .add (literalsFit_int (by decide)), ?_⟩
  have hfold : (int 2147483647 + int 1).fold = literal (.int 2147483648) .int32 := rfl
  rw [hfold]
  exact not_literalsFit_literal (by decide)

end TensorCompiler.Expr
