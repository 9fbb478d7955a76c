import TensorCompiler.Proofs.Expr.FoldTyping
import TensorCompiler.Proofs.Number.Binary64

/-! # Folding a node keeps its value

Constant folding is used under more than one evaluation: the one of definitions and the one of kernels. What
it asks of either is little, and `Meaning` collects it: a literal has its own value and no other, and a cast
converts the value of its operand. From that and the types of the operands there is one lemma for each kind of
node: the folded node has every value that the node has.

No literal is a float here, so that each rule with a literal in it is about integers or booleans. A literal
counts as the number zero or one if its value does after a conversion to a float, so the conversion has to tell
these two integers from the others.
-/

namespace TensorCompiler

/-- The conversion of an integer to a float gives zero and one only for zero and one. -/
structure FloatOps.SeparatesUnits [FloatOps] : Prop where
  eq_zero (n : Int64) : FloatOps.eq (Binary64.ofInt64 n) 0.0 → n = 0
  eq_one (n : Int64) : FloatOps.eq (Binary64.ofInt64 n) 1.0 → n = 1

/-- The machine's conversion tells zero and one from the other integers. -/
theorem FloatOps.separatesUnits_binary64 : FloatOps.binary64.SeparatesUnits where
  eq_zero _ := Binary64.eq_zero_of_ofInt64_beq
  eq_one _ := Binary64.eq_one_of_ofInt64_beq

namespace Expr

/-- What constant folding asks of an evaluation, `Ev e v` saying that `e` has the value `v`. -/
structure Meaning (Ev : Expr → Value → Prop) : Prop where
  const {v : Value} {d : DType} : v.HasType d → d.isFloat = false → Ev (.const v d) v
  const_inv {v w : Value} {d : DType} : Ev (.const v d) w → w = v ∧ d.isFloat = false
  cast {e : Expr} {v : Value} {d : DType} : d.isFloat = false → Ev e v → Ev (.cast (.ofDType d) e) (v.cast d)

namespace Meaning

variable {Ev : Expr → Value → Prop} {e lhs rhs arg cond thenE elseE : Expr} {a b v c : Value} {d : DType}

theorem literal (M : Meaning Ev) (h : v.HasType d) (hd : d.isFloat = false) : Ev (literal v d) v := by
  rw [Expr.literal, h.cast_eq]
  exact M.const h hd

theorem zero (M : Meaning Ev) (h : d.isInteger) : Ev (Expr.literal (.int 0) d) (.int 0) :=
  M.literal ((Value.hasType_int 0 d).mpr h) (DType.isFloat_eq_false_of_isInteger h)

theorem bool (M : Meaning Ev) (b : Bool) : Ev (bool b) (.bool b) :=
  M.const rfl rfl

/-- The value that an expression shows is the value that it has. -/
theorem value?_eq (M : Meaning Ev) (h : Ev e a) (hv : e.value? = some v) : v = a := by
  cases e <;> simp only [value?, Option.some.injEq, reduceCtorEq] at hv
  subst hv
  exact (M.const_inv h).1.symm

/-- The truth value of an expression, cast where it is not of boolean type. -/
theorem asBool (M : Meaning Ev) (h : Ev e a) (ht : e.HasDType d) (ha : a.HasType d) :
    Ev e.asBool (.bool a.truthy) := by
  unfold Expr.asBool
  split_ifs with hknown
  · rw [ht.unique (knownDType?_eq_some_iff.mp hknown)] at ha
    obtain ⟨b, rfl⟩ := ha.exists_bool
    exact h
  · exact M.cast rfl h

/-- The zero that stands for a product with zero has the value zero. -/
theorem foldZero? (M : Meaning Ev) {x zero other : Expr} (keep : Ev other (.int 0)) :
    Ev ((foldZero? x zero).getD other) (.int 0) := by
  cases h : Expr.foldZero? x zero with
  | none => exact keep
  | some folded =>
    obtain ⟨c, -, hint, -, rfl⟩ := foldZero?_eq_some_iff.mp h
    exact M.zero hint

/-- A conjunction or a disjunction keeps its value: the `absorbing` truth value decides it, and the other one
leaves it to the other operand. -/
theorem foldLogical (M : Meaning Ev) {op : BinaryOp} {absorbing : Bool}
    (hl : lhs.HasDType d) (hr : rhs.HasDType d) (ha : Ev lhs a) (hb : Ev rhs b) (ta : a.HasType d) (tb : b.HasType d)
    (habsorb : a.truthy = absorbing ∨ b.truthy = absorbing → v = .bool absorbing)
    (hleft : a.truthy ≠ absorbing → v = .bool b.truthy) (hright : b.truthy ≠ absorbing → v = .bool a.truthy)
    (keep : Ev (binary op lhs rhs) v) : Ev (foldLogical op absorbing lhs rhs) v := by
  have htruth {e : Expr} {c : Value} {t : Bool} (he : Ev e c) (h : e.value?.map Value.truthy = some t) :
      c.truthy = t := by
    obtain ⟨w, hw, rfl⟩ := Option.map_eq_some_iff.mp h
    rw [M.value?_eq he hw]
  unfold Expr.foldLogical
  dsimp only
  split_ifs with h₁ h₂ h₃
  · rw [habsorb (h₁.imp (htruth ha) (htruth hb))]
    exact M.bool absorbing
  · obtain ⟨t, ht⟩ := Option.isSome_iff_exists.mp h₂
    have hne : a.truthy ≠ absorbing := fun h => h₁ (Or.inl (by rw [ht, ← h, htruth ha ht]))
    rw [hleft hne]
    exact M.asBool hb hr tb
  · obtain ⟨t, ht⟩ := Option.isSome_iff_exists.mp h₃
    have hne : b.truthy ≠ absorbing := fun h => h₁ (Or.inr (by rw [ht, ← h, htruth hb ht]))
    rw [hright hne]
    exact M.asBool ha hl ta
  · exact keep

/-- A folded choice has the value of the branch that is taken. -/
theorem foldIte (M : Meaning Ev) (hc : Ev cond c) (hv : if c.truthy then Ev thenE v else Ev elseE v)
    (keep : Ev (ite cond thenE elseE) v) : Ev (foldIte cond thenE elseE) v := by
  unfold Expr.foldIte
  split
  · rename_i value hvalue
    obtain rfl := M.value?_eq hc hvalue
    split_ifs at hv ⊢ <;> exact hv
  · exact keep

/-- A folded cast has the converted value. -/
theorem foldCast (M : Meaning Ev) (hd : d.isFloat = false) (ha : Ev arg a) : Ev (foldCast (.ofDType d) arg) (a.cast d) := by
  unfold Expr.foldCast
  split
  · rename_i htarget
    cases htarget
    rw [(M.const_inv ha).1]
    exact M.const (Value.hasType_cast _ _) hd
  · exact M.cast hd ha

/-- The values that several expressions show are the values that they have. -/
theorem mapM_value?_eq (M : Meaning Ev) {args : List Expr} {values shown : List Value}
    (h : List.Forall₂ Ev args values) (hshown : args.mapM value? = some shown) : shown = values := by
  induction h generalizing shown with
  | nil => simpa using hshown.symm
  | @cons e v es vs he hes ih =>
    rw [List.mapM_cons] at hshown
    obtain ⟨w, hw, hrest⟩ := Option.bind_eq_some_iff.mp hshown
    obtain ⟨ws, hws, hcons⟩ := Option.bind_eq_some_iff.mp hrest
    cases hcons
    rw [M.value?_eq he hw, ih hws]

variable [FloatOps]

/-- An expression that shows a number has an integer value whose conversion is that number. -/
theorem isNumber_inv (M : Meaning Ev) {x : Float} (h : Ev e a) (ht : e.HasDType d)
    (ha : a.HasType d) (hx : e.isNumber x) :
    d.isInteger ∧ ∃ n, a = .int n ∧ FloatOps.eq (Binary64.ofInt64 n) x := by
  cases e <;> simp only [isNumber, Bool.false_eq_true, Bool.and_eq_true, bne_iff_ne, ne_eq] at hx
  rename_i value dtype
  obtain rfl := hasDType_const.mp ht
  obtain ⟨rfl, hd⟩ := M.const_inv h
  obtain hbool | hint := DType.isFloat_eq_false_iff.mp hd
  · exact absurd hbool hx.1
  · obtain ⟨n, rfl⟩ := ha.exists_int hint
    exact ⟨hint, n, rfl, hx.2⟩

/-- An expression that shows the number zero has the value zero. -/
theorem isNumber_zero (M : Meaning Ev) (U : FloatOps.SeparatesUnits) (h : Ev e a)
    (ht : e.HasDType d) (ha : a.HasType d) (hx : e.isNumber 0.0) : d.isInteger ∧ a = .int 0 := by
  obtain ⟨hint, n, rfl, heq⟩ := M.isNumber_inv h ht ha hx
  rw [U.eq_zero n heq]
  exact ⟨hint, rfl⟩

/-- An expression that shows the number one has the value one. -/
theorem isNumber_one (M : Meaning Ev) (U : FloatOps.SeparatesUnits) (h : Ev e a)
    (ht : e.HasDType d) (ha : a.HasType d) (hx : e.isNumber 1.0) : d.isInteger ∧ a = .int 1 := by
  obtain ⟨hint, n, rfl, heq⟩ := M.isNumber_inv h ht ha hx
  rw [U.eq_one n heq]
  exact ⟨hint, rfl⟩

/-- A product keeps its value. -/
theorem foldMul (M : Meaning Ev) (U : FloatOps.SeparatesUnits)
    (hl : lhs.HasDType d) (hr : rhs.HasDType d) (ha : Ev lhs a) (hb : Ev rhs b) (ta : a.HasType d) (tb : b.HasType d)
    (hv : BinaryOp.mul.eval? a b = some v) (keep : Ev (lhs * rhs) v) : Ev (foldMul lhs rhs) v := by
  unfold Expr.foldMul
  split_ifs with h₁ h₂ h₃ h₄
  · obtain ⟨hint, rfl⟩ := M.isNumber_one U hb hr tb h₁
    obtain ⟨n, rfl⟩ := ta.exists_int hint
    have hprod : v = .int n := by simpa [BinaryOp.eval?, BinaryOp.applyInt?] using hv.symm
    exact hprod ▸ ha
  · obtain ⟨hint, rfl⟩ := M.isNumber_one U ha hl ta h₂
    obtain ⟨n, rfl⟩ := tb.exists_int hint
    have hprod : v = .int n := by simpa [BinaryOp.eval?, BinaryOp.applyInt?] using hv.symm
    exact hprod ▸ hb
  · obtain ⟨hint, rfl⟩ := M.isNumber_zero U hb hr tb h₃
    obtain ⟨n, rfl⟩ := ta.exists_int hint
    have hprod : v = .int 0 := by simpa [BinaryOp.eval?, BinaryOp.applyInt?] using hv.symm
    subst hprod
    exact M.foldZero? keep
  · obtain ⟨hint, rfl⟩ := M.isNumber_zero U ha hl ta h₄
    obtain ⟨n, rfl⟩ := tb.exists_int hint
    have hprod : v = .int 0 := by simpa [BinaryOp.eval?, BinaryOp.applyInt?] using hv.symm
    subst hprod
    exact M.foldZero? keep
  · exact keep

/-- A remainder keeps its value. -/
theorem foldMod (M : Meaning Ev) (U : FloatOps.SeparatesUnits)
    (hr : rhs.HasDType d) (hb : Ev rhs b) (ta : a.HasType d) (tb : b.HasType d)
    (hv : BinaryOp.mod.eval? a b = some v) (keep : Ev (lhs % rhs) v) : Ev (foldMod lhs rhs) v := by
  unfold Expr.foldMod
  split_ifs with h
  · obtain ⟨hint, rfl⟩ := M.isNumber_one U hb hr tb (Bool.and_eq_true _ _ ▸ h).1
    obtain ⟨n, rfl⟩ := ta.exists_int hint
    have hrem : v = .int 0 := by
      simpa [BinaryOp.eval?, BinaryOp.applyInt?, BinaryOp.dividesSafely] using hv.symm
    subst hrem
    split
    · rename_i c hc
      exact M.zero (integerType?_eq_some_iff.mp hc).2
    · exact keep
  · exact keep

/-- Folded literals have the value of the operation. -/
theorem foldLiterals? (M : Meaning Ev) {op : BinaryOp} {folded : Expr}
    (hl : lhs.HasDType d) (hr : rhs.HasDType d) (ha : Ev lhs a) (hb : Ev rhs b) (ta : a.HasType d) (tb : b.HasType d)
    (hv : op.eval? a b = some v) (h : foldLiterals? op lhs rhs = some folded) : Ev folded v := by
  obtain ⟨x, y, c, e, w, rfl, rfl, hw, rfl⟩ := foldLiterals?_eq_some_iff.mp h
  obtain ⟨rfl, hd⟩ := M.const_inv ha
  obtain ⟨rfl, -⟩ := M.const_inv hb
  obtain rfl := hasDType_const.mp hl
  obtain rfl := hasDType_const.mp hr
  rw [hv] at hw
  cases hw
  rw [resultType_self]
  exact M.literal (BinaryOp.hasType_eval? ta tb hv) (BinaryOp.isFloat_typeOn hd)

/-- A folded binary operation has the value of the operation. -/
theorem foldBinary (M : Meaning Ev) {op : BinaryOp} (U : FloatOps.SeparatesUnits)
    (hl : lhs.HasDType d) (hr : rhs.HasDType d) (ha : Ev lhs a) (hb : Ev rhs b) (ta : a.HasType d) (tb : b.HasType d)
    (hv : op.eval? a b = some v) (keep : Ev (binary op lhs rhs) v) : Ev (foldBinary op lhs rhs) v := by
  unfold Expr.foldBinary
  cases h : Expr.foldLiterals? op lhs rhs with
  | some folded => exact M.foldLiterals? hl hr ha hb ta tb hv h
  | none =>
    cases op
    case add =>
      dsimp only
      split_ifs with h₁ h₂
      · obtain ⟨hint, rfl⟩ := M.isNumber_zero U hb hr tb h₁
        obtain ⟨n, rfl⟩ := ta.exists_int hint
        have hsum : v = .int n := by simpa [BinaryOp.eval?, BinaryOp.applyInt?] using hv.symm
        exact hsum ▸ ha
      · obtain ⟨hint, rfl⟩ := M.isNumber_zero U ha hl ta h₂
        obtain ⟨n, rfl⟩ := tb.exists_int hint
        have hsum : v = .int n := by simpa [BinaryOp.eval?, BinaryOp.applyInt?] using hv.symm
        exact hsum ▸ hb
      · exact keep
    case sub =>
      dsimp only
      split_ifs with h₁
      · obtain ⟨hint, rfl⟩ := M.isNumber_zero U hb hr tb h₁
        obtain ⟨n, rfl⟩ := ta.exists_int hint
        have hdiff : v = .int n := by simpa [BinaryOp.eval?, BinaryOp.applyInt?] using hv.symm
        exact hdiff ▸ ha
      · exact keep
    case mul => exact M.foldMul U hl hr ha hb ta tb hv keep
    case div =>
      dsimp only
      split_ifs with h₁
      · obtain ⟨hint, rfl⟩ := M.isNumber_one U hb hr tb h₁
        obtain ⟨n, rfl⟩ := ta.exists_int hint
        have hquot : v = .int n := by
          simpa [BinaryOp.eval?, BinaryOp.applyInt?, BinaryOp.dividesSafely] using hv.symm
        exact hquot ▸ ha
      · exact keep
    case mod => exact M.foldMod U hr hb ta tb hv keep
    case and =>
      obtain rfl : v = .bool (a.truthy && b.truthy) := by simpa [BinaryOp.eval?] using hv.symm
      refine M.foldLogical hl hr ha hb ta tb ?_ ?_ ?_ keep
      · rintro (h | h) <;> simp [h]
      · intro h
        rw [Bool.of_not_eq_false h, Bool.true_and]
      · intro h
        rw [Bool.of_not_eq_false h, Bool.and_true]
    case or =>
      obtain rfl : v = .bool (a.truthy || b.truthy) := by simpa [BinaryOp.eval?] using hv.symm
      refine M.foldLogical hl hr ha hb ta tb ?_ ?_ ?_ keep
      · rintro (h | h) <;> simp [h]
      · intro h
        rw [Bool.of_not_eq_true h, Bool.false_or]
      · intro h
        rw [Bool.of_not_eq_true h, Bool.or_false]
    all_goals exact keep

/-- A folded unary operation has the value of the operation. -/
theorem foldUnary (M : Meaning Ev) {op : UnaryOp} (h : arg.HasDType d) (ha : Ev arg a) (ta : a.HasType d)
    (hv : op.eval? a = some v) (keep : Ev (unary op arg) v) : Ev (foldUnary op arg) v := by
  unfold Expr.foldUnary
  split
  · rename_i value dtype
    obtain ⟨rfl, hd⟩ := M.const_inv ha
    obtain rfl := hasDType_const.mp h
    have tv : v.HasType (op.typeOn dtype) := UnaryOp.hasType_eval? ta hv
    rw [hv]
    -- only the negation changes the type, and only it gives a boolean
    cases op with
    | not =>
      obtain ⟨t, rfl⟩ := tv.exists_bool
      dsimp only
      split_ifs with hbool
      · exact M.literal hbool hd
      · exact M.bool t
    | neg =>
      cases a <;> simp only [UnaryOp.eval?, Option.some.injEq, reduceCtorEq] at hv <;> subst hv
      all_goals exact M.literal tv hd
    | bitNot =>
      cases a <;> simp only [UnaryOp.eval?, Option.some.injEq, reduceCtorEq] at hv
      subst hv
      exact M.literal tv hd
  · exact keep

/-- A folded call has the value of the mathematical function. -/
theorem foldCall (M : Meaning Ev) {func : String} {args : List Expr} {values : List Value}
    (hd : d.isFloat = false) (h : (call func args).HasDType d) (hargs : List.Forall₂ Ev args values)
    (hv : ∀ w, Intrinsic.eval? func values = some w → w = v) (tv : v.HasType d)
    (keep : Ev (call func args) v) : Ev (foldCall func args) v := by
  have htype := HasDType.foldCall h
  rcases foldCall_cases func args with hkeep | ⟨shown, w, first, c, hshown, hw, hfirst, hfc, hfold⟩
  · rw [hkeep]
    exact keep
  · rw [M.mapM_value?_eq hargs hshown] at hw
    rw [hfold] at htype ⊢
    rw [hasDType_const.mp htype, hv w hw]
    exact M.literal tv hd

end Meaning

end Expr

end TensorCompiler
