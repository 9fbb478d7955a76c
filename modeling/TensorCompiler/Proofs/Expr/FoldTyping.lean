import TensorCompiler.Proofs.Expr.Typing

/-! # Folding a node keeps its type

One lemma for each kind of node that constant folding rewrites: if the operands have their types, the folded
node has the type of the node. None of them asks for an evaluation. What a node becomes is made of its parts: there is
one lemma of that for each kind of node as well.
-/

namespace TensorCompiler

theorem DType.promote_self (d : DType) : d.promote d = d := by
  simp [promote]

/-- A mathematical function is not a hardware index. -/
theorem Primitive.isHardwareIndex_eq_false {func : String} (h : func ∈ Intrinsic.names) :
    isHardwareIndex func = false := by
  simp only [Intrinsic.names, List.mem_cons, List.not_mem_nil, or_false] at h
  rcases h with rfl | rfl | rfl | rfl | rfl | rfl | rfl | rfl <;> decide

namespace Expr

variable {lhs rhs arg cond thenE elseE : Expr} {d : DType}

theorem resultType_self (op : BinaryOp) (d : DType) : resultType op d d = op.typeOn d := by
  rw [resultType, BinaryOp.typeOn, DType.promote_self]

theorem foldZero?_eq_some_iff {x zero folded : Expr} :
    foldZero? x zero = some folded ↔
      ∃ d, x.HasDType d ∧ d.isInteger ∧ zero.isIntegerLiteral ∧ folded = literal (.int 0) d := by
  unfold foldZero?
  split
  · rename_i d hd
    obtain ⟨htype, hint⟩ := integerType?_eq_some_iff.mp hd
    constructor
    · intro h
      split at h
      · rename_i hlit
        cases h
        exact ⟨d, htype, hint, hlit, rfl⟩
      · cases h
    · rintro ⟨e, he, -, hlit, rfl⟩
      rw [if_pos hlit, htype.unique he]
  · rename_i hnone
    constructor
    · intro h
      cases h
    · rintro ⟨e, he, hint, -, -⟩
      rw [integerType?_eq_some_iff.mpr ⟨he, hint⟩] at hnone
      cases hnone

theorem HasDType.foldZero? {x zero other : Expr} (hx : x.HasDType d) (ho : other.HasDType d) :
    ((foldZero? x zero).getD other).HasDType d := by
  cases h : Expr.foldZero? x zero with
  | none => exact ho
  | some folded =>
    obtain ⟨e, he, -, -, rfl⟩ := foldZero?_eq_some_iff.mp h
    rw [hx.unique he]
    exact hasDType_literal _ _

theorem hasDType_asBool (e : Expr) : e.asBool.HasDType .bool := by
  unfold asBool
  split_ifs with h
  · exact knownDType?_eq_some_iff.mp h
  · exact hasDType_cast.mpr rfl

theorem HasDType.foldLogical {op : BinaryOp} {absorbing : Bool} (hop : op.isLogical) (hl : lhs.HasDType d)
    (hr : rhs.HasDType d) : (foldLogical op absorbing lhs rhs).HasDType .bool := by
  have hkeep : (Expr.binary op lhs rhs).HasDType .bool := by
    simpa [BinaryOp.typeOn, hop] using hl.binary op hr
  unfold Expr.foldLogical
  dsimp only
  split_ifs
  · exact hasDType_bool _
  · exact hasDType_asBool _
  · exact hasDType_asBool _
  · exact hkeep

/-- A folded choice has the type of its branches. -/
theorem HasDType.foldIte (ht : thenE.HasDType d) (he : elseE.HasDType d) : (foldIte cond thenE elseE).HasDType d := by
  unfold Expr.foldIte
  split
  · split_ifs
    · exact ht
    · exact he
  · exact ht.ite he

/-- A folded cast to a known type has that type. -/
theorem hasDType_foldCast (c : DType) (arg : Expr) : (foldCast (.ofDType c) arg).HasDType c := by
  unfold foldCast
  split
  · rename_i hc
    cases hc
    exact hasDType_literal _ _
  · exact hasDType_cast.mpr rfl

/-- A call of a mathematical function has the type of its first argument. -/
theorem inferType_call_eq {func : String} {first : Expr} {rest : List Expr} (h : func ∈ Intrinsic.names) :
    (call func (first :: rest)).inferType = first.inferType := by
  have hname : Primitive.isIntrinsic func = true := List.contains_iff_mem.mpr h
  simp [inferType, inferFirst, Primitive.isHardwareIndex_eq_false h, hname]

/-- Whether a node is one of typed code: the operands of an operation, and the branches of a choice, are scalars of one
known type. -/
def IsTypedNode : Expr → Prop
  | unary _ arg => ∃ d, arg.HasDType d
  | binary _ lhs rhs => ∃ d, lhs.HasDType d ∧ rhs.HasDType d
  | ite _ thenE elseE => ∃ d, thenE.HasDType d ∧ elseE.HasDType d
  | _ => True

/-! ## What a node may become -/

/-- What may become of a node that is folded: itself, a part of it, the truth value of a part that is no literal, or a
literal. -/
inductive FoldResult (node : Expr) : Expr → Prop
  | keep : FoldResult node node
  | part {p : Expr} (h : p ∈ node.children) : FoldResult node p
  | truth {p : Expr} (h : p ∈ node.children) (hopen : p.value? = none) : FoldResult node (Expr.cast (.ofDType .bool) p)
  | literal (v : Value) (d : DType) : FoldResult node (const v d)

theorem foldResult_asBool {node p : Expr} (h : p ∈ node.children) (hopen : p.value? = none) :
    FoldResult node p.asBool := by
  unfold asBool
  split
  · exact .part h
  · exact .truth h hopen

theorem foldResult_foldZero? {node x zero : Expr} : FoldResult node ((foldZero? x zero).getD node) := by
  cases h : foldZero? x zero with
  | none => exact .keep
  | some folded =>
    obtain ⟨d, -, -, -, rfl⟩ := foldZero?_eq_some_iff.mp h
    exact .literal _ _

theorem foldResult_foldIte : FoldResult (ite cond thenE elseE) (foldIte cond thenE elseE) := by
  unfold foldIte
  split
  · split_ifs
    · exact .part (by simp [children])
    · exact .part (by simp [children])
  · exact .keep

theorem foldResult_foldCast {target : Ty} : FoldResult (Expr.cast target arg) (foldCast target arg) := by
  unfold foldCast
  split
  · exact .literal _ _
  · exact .keep

theorem foldResult_foldLogical {op : BinaryOp} {absorbing : Bool} (hopen : lhs.value? = none ∨ rhs.value? = none) :
    FoldResult (binary op lhs rhs) (foldLogical op absorbing lhs rhs) := by
  unfold foldLogical
  dsimp only
  split_ifs with habsorbed hl hr
  · exact .literal _ _
  · exact foldResult_asBool (by simp [children]) (hopen.resolve_left fun hnone => by simp [hnone] at hl)
  · exact foldResult_asBool (by simp [children]) (hopen.resolve_right fun hnone => by simp [hnone] at hr)
  · exact .keep

end Expr

section

variable [FloatOps]

/-- Only the mathematical functions have values. -/
theorem Intrinsic.mem_names_of_eval? {func : String} {args : List Value} {v : Value}
    (h : Intrinsic.eval? func args = some v) : func ∈ Intrinsic.names := by
  unfold Intrinsic.eval? Intrinsic.real? at h
  unfold Intrinsic.names
  grind

namespace Expr

variable {lhs rhs arg cond thenE elseE : Expr} {d : DType}

/-- Folded literals are a literal of the value of the operation. -/
theorem foldLiterals?_eq_some_iff {op : BinaryOp} {folded : Expr} :
    foldLiterals? op lhs rhs = some folded ↔
      ∃ a b c e v, lhs = const a c ∧ rhs = const b e ∧ op.eval? a b = some v ∧
        folded = literal v (resultType op c e) := by
  unfold foldLiterals?
  split
  · rename_i a c b e
    simp only [Option.map_eq_some_iff, const.injEq]
    constructor
    · rintro ⟨v, hv, rfl⟩
      exact ⟨a, b, c, e, v, ⟨rfl, rfl⟩, ⟨rfl, rfl⟩, hv, rfl⟩
    · rintro ⟨a', b', c', e', v, ⟨rfl, rfl⟩, ⟨rfl, rfl⟩, hv, rfl⟩
      exact ⟨v, hv, rfl⟩
  · rename_i hno
    constructor
    · intro h
      cases h
    · rintro ⟨a, b, c, e, v, rfl, rfl, -, -⟩
      exact absurd rfl (hno a c b e rfl)

theorem HasDType.foldMul (hl : lhs.HasDType d) (hr : rhs.HasDType d) : (foldMul lhs rhs).HasDType d := by
  have hkeep : (lhs * rhs).HasDType d := hl.binary .mul hr
  unfold Expr.foldMul
  split_ifs
  · exact hl
  · exact hr
  · exact hl.foldZero? hkeep
  · exact hr.foldZero? hkeep
  · exact hkeep

theorem HasDType.foldMod (hl : lhs.HasDType d) (hr : rhs.HasDType d) : (foldMod lhs rhs).HasDType d := by
  have hkeep : (lhs % rhs).HasDType d := hl.binary .mod hr
  unfold Expr.foldMod
  split_ifs
  · cases h : lhs.integerType? with
    | none => exact hkeep
    | some e =>
      obtain ⟨he, -⟩ := integerType?_eq_some_iff.mp h
      rw [hl.unique he]
      exact hasDType_literal _ _
  · exact hkeep

/-- A folded binary operation on operands of one type has the type of the operation. -/
theorem HasDType.foldBinary {op : BinaryOp} (hl : lhs.HasDType d) (hr : rhs.HasDType d) :
    (foldBinary op lhs rhs).HasDType (op.typeOn d) := by
  have hkeep : (Expr.binary op lhs rhs).HasDType (op.typeOn d) := hl.binary op hr
  unfold Expr.foldBinary
  cases h : foldLiterals? op lhs rhs with
  | some folded =>
    obtain ⟨a, b, c, e, v, rfl, rfl, -, rfl⟩ := foldLiterals?_eq_some_iff.mp h
    rw [hasDType_const.mp hl, hasDType_const.mp hr, resultType_self]
    exact hasDType_literal _ _
  | none =>
    cases op
    case add =>
      dsimp only
      split_ifs
      · exact hl
      · exact hr
      · exact hkeep
    case sub =>
      dsimp only
      split_ifs
      · exact hl
      · exact hkeep
    case mul => exact hl.foldMul hr
    case div =>
      dsimp only
      split_ifs
      · exact hl
      · exact hkeep
    case mod => exact hl.foldMod hr
    case and => exact hl.foldLogical rfl hr
    case or => exact hl.foldLogical rfl hr
    all_goals exact hkeep

/-- A folded unary operation has the type of the operation. -/
theorem HasDType.foldUnary {op : UnaryOp} (h : arg.HasDType d) : (foldUnary op arg).HasDType (op.typeOn d) := by
  have hkeep : (Expr.unary op arg).HasDType (op.typeOn d) := h.unary op
  unfold Expr.foldUnary
  split
  · rename_i value dtype
    obtain rfl := hasDType_const.mp h
    cases hv : op.eval? value with
    | none => exact hkeep
    | some v =>
      cases op <;> cases value <;> simp only [UnaryOp.eval?, Option.some.injEq, reduceCtorEq] at hv <;> subst hv
      case not.bool | not.int | not.float =>
        dsimp only
        split_ifs with hbool
        · exact hbool ▸ hasDType_literal _ _
        · exact Expr.hasDType_bool _
      all_goals exact hasDType_literal _ _
  · exact hkeep

/-- A call that is folded becomes the literal of its value, at the type of the first argument. -/
theorem foldCall_cases (func : String) (args : List Expr) :
    foldCall func args = call func args ∨
      ∃ values v first d, args.mapM value? = some values ∧ Intrinsic.eval? func values = some v ∧
        args.head? = some first ∧ first.HasDType d ∧ foldCall func args = literal v d := by
  unfold foldCall
  dsimp only
  cases hvalues : args.mapM value? with
  | none => exact Or.inl rfl
  | some values =>
    cases hv : Intrinsic.eval? func values with
    | none => exact Or.inl (by simp [hv])
    | some v =>
      cases hd : args.head?.bind knownDType? with
      | none => exact Or.inl (by simp)
      | some d =>
        obtain ⟨first, hfirst, hknown⟩ := Option.bind_eq_some_iff.mp hd
        exact Or.inr ⟨values, v, first, d, rfl, hv, hfirst, knownDType?_eq_some_iff.mp hknown, by simp [hv]⟩

/-- Folding a call keeps its type. -/
theorem HasDType.foldCall {func : String} {args : List Expr} (h : (call func args).HasDType d) :
    (foldCall func args).HasDType d := by
  rcases foldCall_cases func args with hkeep | ⟨values, v, first, e, -, hv, hfirst, htype, hfold⟩
  · rw [hkeep]
    exact h
  · obtain ⟨rest, rfl⟩ := List.head?_eq_some_iff.mp hfirst
    have hcall : (call func (first :: rest)).HasDType e := by
      rw [HasDType, inferType_call_eq (Intrinsic.mem_names_of_eval? hv)]
      exact htype
    rw [hfold, h.unique hcall]
    exact hasDType_literal _ _

/-- A folded node has the type of the node. -/
theorem inferType_foldNode {e : Expr} (h : e.IsTypedNode) : e.foldNode.inferType = e.inferType := by
  have hkeep {folded : Expr} {d : DType} (he : e.HasDType d) (hf : folded.HasDType d) :
      folded.inferType = e.inferType := hf.trans he.symm
  cases e with
  | unary op arg =>
    obtain ⟨d, hd⟩ := h
    exact hkeep (hd.unary op) hd.foldUnary
  | binary op lhs rhs =>
    obtain ⟨d, hl, hr⟩ := h
    exact hkeep (hl.binary op hr) (hl.foldBinary hr)
  | ite cond thenE elseE =>
    obtain ⟨d, ht, he⟩ := h
    exact hkeep (ht.ite he) (ht.foldIte he)
  | cast target arg =>
    change (foldCast target arg).inferType = _
    unfold foldCast
    split <;> rfl
  | call func args =>
    rcases foldCall_cases func args with hsame | ⟨values, v, first, d, -, hv, hfirst, hd, hfold⟩
    · exact congrArg inferType hsame
    · obtain ⟨rest, rfl⟩ := List.head?_eq_some_iff.mp hfirst
      have hcall : (call func (first :: rest)).HasDType d := by
        rw [HasDType, inferType_call_eq (Intrinsic.mem_names_of_eval? hv)]
        exact hd
      exact hkeep hcall hcall.foldCall
  | _ => rfl

theorem foldResult_foldMul : FoldResult (lhs * rhs) (foldMul lhs rhs) := by
  unfold foldMul
  split_ifs
  · exact .part (List.mem_cons_self ..)
  · exact .part (List.mem_cons_of_mem _ (List.mem_cons_self ..))
  · exact foldResult_foldZero?
  · exact foldResult_foldZero?
  · exact .keep

theorem foldResult_foldMod : FoldResult (lhs % rhs) (foldMod lhs rhs) := by
  unfold foldMod
  split_ifs
  · cases lhs.integerType? with
    | none => exact .keep
    | some c => exact .literal _ _
  · exact .keep

/-- Of two operands without a common literal one is no literal, if the operation is defined on all values. -/
theorem value?_eq_none_of_foldLiterals? {op : BinaryOp} (hop : op.isLogical) (h : foldLiterals? op lhs rhs = none) :
    lhs.value? = none ∨ rhs.value? = none := by
  cases hl : lhs.value? with
  | none => exact Or.inl rfl
  | some a =>
    cases hr : rhs.value? with
    | none => exact Or.inr rfl
    | some b =>
      cases lhs <;> cases hl
      cases rhs <;> cases hr
      cases op <;> cases hop <;> cases h

theorem foldResult_foldBinary {op : BinaryOp} : FoldResult (binary op lhs rhs) (foldBinary op lhs rhs) := by
  have hlhs : lhs ∈ (binary op lhs rhs).children := by simp [children]
  have hrhs : rhs ∈ (binary op lhs rhs).children := by simp [children]
  unfold foldBinary
  cases h : foldLiterals? op lhs rhs with
  | some folded =>
    obtain ⟨a, b, c, e, v, -, -, -, rfl⟩ := foldLiterals?_eq_some_iff.mp h
    exact .literal _ _
  | none =>
    cases op
    case add =>
      dsimp only
      split_ifs
      · exact .part hlhs
      · exact .part hrhs
      · exact .keep
    case sub | div =>
      dsimp only
      split_ifs
      · exact .part hlhs
      · exact .keep
    case mul => exact foldResult_foldMul
    case mod => exact foldResult_foldMod
    case and | or => exact foldResult_foldLogical (value?_eq_none_of_foldLiterals? rfl h)
    all_goals exact .keep

theorem foldResult_foldUnary {op : UnaryOp} : FoldResult (unary op arg) (foldUnary op arg) := by
  unfold foldUnary
  split
  · split
    · split_ifs
      · exact .literal _ _
      · exact .literal _ _
    · exact .literal _ _
    · exact .keep
  · exact .keep

theorem foldResult_foldCall {func : String} {args : List Expr} : FoldResult (call func args) (foldCall func args) := by
  rcases foldCall_cases func args with hkeep | ⟨values, v, first, d, -, -, -, -, hfold⟩
  · rw [hkeep]
    exact .keep
  · rw [hfold]
    exact .literal _ _

theorem foldResult_foldNode (e : Expr) : FoldResult e e.foldNode := by
  cases e with
  | unary op arg => exact foldResult_foldUnary
  | binary op lhs rhs => exact foldResult_foldBinary
  | ite cond thenE elseE => exact foldResult_foldIte
  | cast target arg => exact foldResult_foldCast
  | call func args => exact foldResult_foldCall
  | _ => exact .keep

end Expr

end

end TensorCompiler
