import TensorCompiler.Lowering.Flatten
import TensorCompiler.Proofs.Expr.Traversal
import TensorCompiler.Proofs.Lowering.Positions
import TensorCompiler.Proofs.Result
import TensorCompiler.Proofs.Stmt.Traversal

/-! # Flat buffers keep the addresses

Loads and stores of a tensor that became a buffer go to the position that the strides of the tensor give to the indices.
Values are those of exact integer arithmetic: sums, products and literals have their values, and each other node has any
value that a valuation gives it. The position of an element lies in the buffer if the number of elements that the buffer
must hold fits the literals, which have 64 bits.
-/

namespace TensorCompiler

namespace DType

theorem eq_of_isInteger {d : DType} (h : d.isInteger) : d = .int32 ∨ d = .int64 := by
  cases d <;> first | exact Or.inl rfl | exact Or.inr rfl | cases h

theorem isInteger_promote {c d : DType} (hc : c.isInteger) (hd : d.isInteger) : (c.promote d).isInteger := by
  rcases eq_of_isInteger hc with rfl | rfl <;> rcases eq_of_isInteger hd with rfl | rfl <;> rfl

end DType

/-! ## Exact values -/

namespace Expr

/-- The value in exact arithmetic, where `atoms` values the nodes that are no sums, products or integer literals. -/
def exactValue (atoms : Expr → Int) : Expr → Int
  | binary .add lhs rhs => lhs.exactValue atoms + rhs.exactValue atoms
  | binary .mul lhs rhs => lhs.exactValue atoms * rhs.exactValue atoms
  | const (.int n) _ => n.toInt
  | e => atoms e

/-- Whether an expression is the literal of an integer type with the given value. -/
def IsInteger (e : Expr) (n : Int64) : Prop :=
  ∃ dtype : DType, dtype.isInteger ∧ e = const (.int n) dtype

variable {atoms : Expr → Int} {a b e : Expr} {m n : Int64}

theorem exactValue_add (atoms : Expr → Int) (a b : Expr) :
    (a + b).exactValue atoms = a.exactValue atoms + b.exactValue atoms := by
  change (binary .add a b).exactValue atoms = _
  rw [exactValue]

theorem exactValue_mul (atoms : Expr → Int) (a b : Expr) :
    (a * b).exactValue atoms = a.exactValue atoms * b.exactValue atoms := by
  change (binary .mul a b).exactValue atoms = _
  rw [exactValue]

theorem isInteger_int (n : Int64) : (int n).IsInteger n := ⟨.int32, rfl, rfl⟩

theorem IsInteger.exactValue_eq (h : e.IsInteger n) (atoms : Expr → Int) : e.exactValue atoms = n.toInt := by
  obtain ⟨dtype, -, rfl⟩ := h
  rw [exactValue]

theorem IsInteger.int?_eq (h : e.IsInteger n) : e.int? = some n := by
  obtain ⟨dtype, -, rfl⟩ := h
  rfl

/-! ### Folding -/

theorem isInteger_literal (n : Int64) {d : DType} (hd : d.isInteger) : (literal (.int n) d).IsInteger n := by
  rcases DType.eq_of_isInteger hd with rfl | rfl <;> exact ⟨_, rfl, rfl⟩

section

variable [FloatOps]

theorem fold_binary (op : BinaryOp) (a b : Expr) : (binary op a b).fold = foldBinary op a.fold b.fold := by
  rw [fold, mapBottomUp_eq]
  rfl

theorem IsInteger.fold (h : e.IsInteger n) : e.fold.IsInteger n := by
  obtain ⟨dtype, hdtype, rfl⟩ := h
  exact ⟨dtype, hdtype, rfl⟩

/-- An operation on literals folds to the literal of its value. -/
theorem IsInteger.fold_binary {op : BinaryOp} {k : Int64} (ha : a.fold.IsInteger m) (hb : b.fold.IsInteger n)
    (hop : op.isComparison = false ∧ op.isLogical = false) (heval : op.eval? (.int m) (.int n) = some (.int k)) :
    (binary op a b).fold.IsInteger k := by
  obtain ⟨c, hc, ha⟩ := ha
  obtain ⟨d, hd, hb⟩ := hb
  have hfolded : foldLiterals? op (const (.int m) c) (const (.int n) d) = some (literal (.int k) (c.promote d)) := by
    rw [foldLiterals?, heval, resultType, hop.1, hop.2]
    rfl
  rw [Expr.fold_binary, ha, hb]
  unfold foldBinary
  rw [hfolded]
  exact isInteger_literal k (DType.isInteger_promote hc hd)

theorem IsInteger.fold_add (ha : a.fold.IsInteger m) (hb : b.fold.IsInteger n) : (a + b).fold.IsInteger (m + n) :=
  ha.fold_binary hb ⟨rfl, rfl⟩ rfl

theorem IsInteger.fold_sub (ha : a.fold.IsInteger m) (hb : b.fold.IsInteger n) : (a - b).fold.IsInteger (m - n) :=
  ha.fold_binary hb ⟨rfl, rfl⟩ rfl

theorem IsInteger.fold_mul (ha : a.fold.IsInteger m) (hb : b.fold.IsInteger n) : (a * b).fold.IsInteger (m * n) :=
  ha.fold_binary hb ⟨rfl, rfl⟩ rfl

/-- A product of literals folds to the literal of the product, as far as 64 bits hold it. -/
theorem isInteger_fold_prod {es : List Expr} {extents : List Int64} (h : List.Forall₂ IsInteger es extents) {k : Int}
    (hfirst : e.fold.IsInteger (.ofInt k)) :
    (es.foldl (· * ·) e).fold.IsInteger (.ofInt (k * (extents.map Int64.toInt).prod)) := by
  induction h generalizing e k with
  | nil => simpa using hfirst
  | @cons factor n es extents hfactor _ ih =>
    have hproduct : (e * factor).fold.IsInteger (.ofInt (k * n.toInt)) := by
      rw [Int64.ofInt_mul, Int64.ofInt_toInt]
      exact hfirst.fold_mul hfactor.fold
    rw [List.map_cons, List.prod_cons, ← mul_assoc]
    exact ih hproduct

/-- The span of literals folds to the literal of the span, as far as 64 bits hold it. -/
theorem isInteger_fold_span {es ss : List Expr} {extents strides : List Int64} (h : List.Forall₂ IsInteger es extents)
    (hs : List.Forall₂ IsInteger ss strides) {k : Int} (hfirst : e.fold.IsInteger (.ofInt (k + 1))) :
    ((es.zip ss).foldl (fun acc (dim, stride) => acc + (dim - int 1) * stride) e).fold.IsInteger
      (.ofInt (k + span (extents.map Int64.toInt) (strides.map Int64.toInt))) := by
  induction h generalizing e k ss strides with
  | nil => simpa using hfirst
  | @cons dim n es extents hdim _ ih =>
    cases hs with
    | nil => simpa [span] using hfirst
    | @cons stride s ss strides hstride hs =>
      have hterm : (e + (dim - int 1) * stride).fold.IsInteger (.ofInt (k + (n.toInt - 1) * s.toInt + 1)) := by
        have hvalue : Int64.ofInt (k + (n.toInt - 1) * s.toInt + 1) = .ofInt (k + 1) + (n - 1) * s := by
          rw [add_right_comm, Int64.ofInt_add, Int64.ofInt_mul, Int64.ofInt_sub, Int64.ofInt_toInt, Int64.ofInt_toInt]
          rfl
        rw [hvalue]
        exact hfirst.fold_add ((hdim.fold.fold_sub (isInteger_int 1).fold).fold_mul hstride.fold)
      rw [List.map_cons, List.map_cons, span_cons, ← add_assoc]
      exact ih hs hterm

end

end Expr

/-! ## Linear indices -/

section

variable {atoms : Expr → Int} {indices ss : List Expr} {strides : List Int64}

theorem exactValue_foldl_add (first : Expr) (rest : List Expr) :
    (rest.foldl (· + ·) first).exactValue atoms = first.exactValue atoms + (rest.map (Expr.exactValue atoms)).sum := by
  induction rest generalizing first with
  | nil => simp
  | cons term rest ih => rw [List.foldl_cons, ih, Expr.exactValue_add, List.map_cons, List.sum_cons, add_assoc]

/-- A linear index is the position of the indices in the buffer. -/
theorem exactValue_linearIndex (h : List.Forall₂ Expr.IsInteger ss strides) :
    (linearIndex indices ss).exactValue atoms =
      position (indices.map (Expr.exactValue atoms)) (strides.map Int64.toInt) := by
  have hterms : (indices.zipWith (fun index stride => if stride.int? = some 1 then index else index * stride) ss).map
      (Expr.exactValue atoms) = List.zipWith (· * ·) (indices.map (Expr.exactValue atoms)) (strides.map Int64.toInt) := by
    induction h generalizing indices with
    | nil => simp
    | @cons stride s ss strides hstride _ ih =>
      cases indices with
      | nil => rfl
      | cons index indices =>
        rw [List.zipWith_cons_cons, List.map_cons, ih, List.map_cons, List.map_cons, List.zipWith_cons_cons]
        congr 1
        rw [hstride.int?_eq]
        split_ifs with hone
        · cases hone
          exact (mul_one _).symm
        · rw [Expr.exactValue_mul, hstride.exactValue_eq]
  rw [position, ← hterms, linearIndex]
  generalize List.zipWith _ indices ss = terms
  cases terms with
  | nil =>
    exact (Expr.isInteger_int 0).exactValue_eq atoms
  | cons first rest => exact exactValue_foldl_add first rest

open TensorCompiler.Expr in
/-- The accesses in a linear index are those in the indices. -/
theorem exists_of_mem_linearIndex {base : Expr} {js : List Expr} (hss : ∀ s ∈ ss, ∃ n, s.IsInteger n)
    (h : element base js ∈ (linearIndex indices ss).preorder) : ∃ i ∈ indices, element base js ∈ i.preorder := by
  have hbinary {op : BinaryOp} {a b : Expr} (h : element base js ∈ (binary op a b).preorder) :
      element base js ∈ a.preorder ∨ element base js ∈ b.preorder := by
    obtain ⟨c, hc, hmem⟩ := exists_child_of_mem_preorder h (by simp)
    rcases List.mem_pair.mp hc with rfl | rfl
    · exact Or.inl hmem
    · exact Or.inr hmem
  have hsum {first : Expr} {rest : List Expr} (h : element base js ∈ (rest.foldl (· + ·) first).preorder) :
      ∃ term ∈ first :: rest, element base js ∈ term.preorder := by
    induction rest generalizing first with
    | nil => exact ⟨first, List.mem_cons_self, h⟩
    | cons term rest ih =>
      obtain ⟨t, ht, hmem⟩ := ih h
      rcases List.mem_cons.mp ht with rfl | ht
      · rcases hbinary hmem with hmem | hmem
        · exact ⟨first, List.mem_cons_self, hmem⟩
        · exact ⟨term, List.mem_cons_of_mem _ List.mem_cons_self, hmem⟩
      · exact ⟨t, List.mem_cons_of_mem _ (List.mem_cons_of_mem _ ht), hmem⟩
  have hterm {term : Expr} (ht : term ∈ indices.zipWith
      (fun index stride => if stride.int? = some 1 then index else index * stride) ss)
      (hmem : element base js ∈ term.preorder) : ∃ i ∈ indices, element base js ∈ i.preorder := by
    obtain ⟨k, hk, rfl⟩ := List.mem_iff_getElem.mp ht
    rw [List.length_zipWith, Nat.lt_min] at hk
    rw [List.getElem_zipWith] at hmem
    have hindex : indices[k] ∈ indices := List.getElem_mem hk.1
    split_ifs at hmem
    · exact ⟨_, hindex, hmem⟩
    · rcases hbinary hmem with hmem | hmem
      · exact ⟨_, hindex, hmem⟩
      · obtain ⟨n, dtype, -, hliteral⟩ := hss _ (List.getElem_mem hk.2)
        rw [hliteral] at hmem
        cases List.mem_singleton.mp hmem
  rw [linearIndex] at h
  cases hterms : indices.zipWith (fun index stride => if stride.int? = some 1 then index else index * stride) ss with
  | nil =>
    rw [hterms] at h
    cases List.mem_singleton.mp h
  | cons first rest =>
    rw [hterms] at h
    obtain ⟨term, ht, hmem⟩ := hsum h
    exact hterm (hterms ▸ ht) hmem

end

/-! ## Static tensors -/

namespace TensorType

/-- A tensor type whose extents are literals, of at least one each, with one literal that is not negative for each
dimension if strides are declared. -/
structure Static (type : TensorType) (extents : List Int64) : Prop where
  shape : ∃ es, type.shape = some es ∧ List.Forall₂ Expr.IsInteger es extents
  extents_pos : ∀ n ∈ extents, 1 ≤ n.toInt
  strides : ∀ ss, type.strides = some ss →
    ∃ strides, List.Forall₂ Expr.IsInteger ss strides ∧ strides.length = extents.length ∧ ∀ s ∈ strides, 0 ≤ s.toInt

/-- The number of elements that the buffer of a tensor must hold. -/
def bufferSize (type : TensorType) (extents strides : List Int64) : Int :=
  if type.strides.isSome then span (extents.map Int64.toInt) (strides.map Int64.toInt)
  else (extents.map Int64.toInt).prod

variable {type : TensorType} {extents strides : List Int64} {es ss : List Expr}

/-- Row-major strides of literals are the literals of the row-major strides, as far as 64 bits hold them. -/
theorem isInteger_rowMajorStrides (h : List.Forall₂ Expr.IsInteger es extents) :
    List.Forall₂ Expr.IsInteger (rowMajorStrides es) ((rowMajor (extents.map Int64.toInt)).map .ofInt) := by
  induction h with
  | nil => exact .nil
  | @cons e n es extents _ hrest ih =>
    cases hrest with
    | nil => exact .cons (Expr.isInteger_int 1) .nil
    | @cons extent m es extents hextent hrest =>
      rw [rowMajorStrides]
      generalize hstrides : rowMajorStrides (extent :: es) = strides at ih
      rw [List.map_cons, rowMajor] at ih ⊢
      rw [List.map_cons] at ih ⊢
      cases ih with
      | @cons stride _ strides _ hstride htail =>
        refine .cons ?_ (.cons hstride htail)
        rw [List.headD_cons, scaledStride, hstride.int?_eq, hextent.int?_eq, List.map_cons, List.prod_cons, mul_comm,
          Int64.ofInt_mul, Int64.ofInt_toInt]
        exact Expr.isInteger_int _

/-- The effective strides of a static type are literals, one for each dimension. -/
theorem Static.exists_strides (h : type.Static extents) :
    ∃ ss strides, type.effectiveStrides? = some ss ∧ List.Forall₂ Expr.IsInteger ss strides ∧
      strides.length = extents.length ∧
      if type.strides.isSome then ∀ s ∈ strides, 0 ≤ s.toInt
      else strides = (rowMajor (extents.map Int64.toInt)).map .ofInt := by
  obtain ⟨es, hes, hextents⟩ := h.shape
  cases hdeclared : type.strides with
  | some ss =>
    obtain ⟨strides, hss, hlength, hnonneg⟩ := h.strides ss hdeclared
    exact ⟨ss, strides, by rw [effectiveStrides?, hdeclared]; rfl, hss, hlength, hnonneg⟩
  | none =>
    refine ⟨_, _, ?_, isInteger_rowMajorStrides hextents, by simp, rfl⟩
    rw [effectiveStrides?, hdeclared, hes]
    rfl

section

variable [FloatOps]

/-- The extent of the buffer is the literal of its size, as far as 64 bits hold it. -/
theorem isInteger_flatExtent (type : TensorType) (hes : List.Forall₂ Expr.IsInteger es extents)
    (hss : List.Forall₂ Expr.IsInteger ss strides) :
    (type.flatExtent es ss).IsInteger (.ofInt (type.bufferSize extents strides)) := by
  unfold flatExtent bufferSize
  split_ifs with hdeclared
  · have hspan := Expr.isInteger_fold_span hes hss (k := 0) (Expr.isInteger_int 1).fold
    rwa [zero_add] at hspan
  · cases hes with
    | nil => exact (Expr.isInteger_int 1).fold
    | @cons first n rest extents hfirst hrest =>
      have hprod := Expr.isInteger_fold_prod hrest (k := n.toInt) (by rw [Int64.ofInt_toInt]; exact hfirst.fold)
      rwa [List.map_cons, List.prod_cons]

end

theorem toInt_ofInt_of_fits {n : Int} (hlow : 0 ≤ n) (hhigh : n < 2 ^ 63) : (Int64.ofInt n).toInt = n :=
  Int64.toInt_ofInt_of_le (by omega) hhigh

/-- Row-major strides are exact if the number of elements fits 64 bits. -/
theorem map_toInt_rowMajor {ns : List Int} (hpos : ∀ n ∈ ns, 1 ≤ n) (hfits : ns.prod < 2 ^ 63) :
    ((rowMajor ns).map Int64.ofInt).map Int64.toInt = rowMajor ns := by
  induction ns with
  | nil => rfl
  | cons n ns ih =>
    have hpos' : ∀ n ∈ ns, 1 ≤ n := fun n hn => hpos n (List.mem_cons_of_mem _ hn)
    have hprod := prod_pos hpos'
    have hle : ns.prod ≤ (n :: ns).prod := by
      rw [List.prod_cons]
      exact le_mul_of_one_le_left (by omega) (hpos n List.mem_cons_self)
    rw [rowMajor, List.map_cons, List.map_cons, ih hpos' (by omega), toInt_ofInt_of_fits (by omega) (by omega)]

/-- The position of each element lies in the buffer, if its size fits 64 bits. -/
theorem Static.position_lt_bufferSize (h : type.Static extents) (hlength : strides.length = extents.length)
    (hstrides : if type.strides.isSome then ∀ s ∈ strides, 0 ≤ s.toInt
      else strides = (rowMajor (extents.map Int64.toInt)).map .ofInt)
    (hfits : type.bufferSize extents strides < 2 ^ 63) {indices : List Int}
    (hwithin : Within indices (extents.map Int64.toInt)) :
    0 ≤ position indices (strides.map Int64.toInt) ∧
      position indices (strides.map Int64.toInt) < type.bufferSize extents strides := by
  have hpos : ∀ n ∈ extents.map Int64.toInt, 1 ≤ n := List.forall_mem_map.mpr h.extents_pos
  rw [bufferSize] at hfits ⊢
  split_ifs at hstrides hfits ⊢ with hdeclared
  · exact hwithin.position_lt_span (by simpa using hlength) (List.forall_mem_map.mpr hstrides)
  · rw [hstrides, map_toInt_rowMajor hpos hfits]
    exact hwithin.position_lt_prod hpos

theorem Static.bufferSize_pos (h : type.Static extents) (hlength : strides.length = extents.length)
    (hstrides : if type.strides.isSome then ∀ s ∈ strides, 0 ≤ s.toInt
      else strides = (rowMajor (extents.map Int64.toInt)).map .ofInt)
    (hfits : type.bufferSize extents strides < 2 ^ 63) : 0 < type.bufferSize extents strides := by
  have hfirst : Within (extents.map fun _ => 0) (extents.map Int64.toInt) := by
    rw [Within, List.forall₂_map_left_iff, List.forall₂_map_right_iff, List.forall₂_same]
    exact fun n hn => ⟨le_rfl, Int.lt_of_lt_of_le Int.one_pos (h.extents_pos n hn)⟩
  obtain ⟨hlow, hhigh⟩ := h.position_lt_bufferSize hlength hstrides hfits hfirst
  exact Int.lt_of_le_of_lt hlow hhigh

/-- The elements of a tensor in row-major order fill the buffer, if its size fits 64 bits. -/
theorem Static.bijOn_position (h : type.Static extents) (hnone : type.strides = none)
    (hstrides : if type.strides.isSome then ∀ s ∈ strides, 0 ≤ s.toInt
      else strides = (rowMajor (extents.map Int64.toInt)).map .ofInt)
    (hfits : type.bufferSize extents strides < 2 ^ 63) :
    Set.BijOn (position · (strides.map Int64.toInt)) {indices | Within indices (extents.map Int64.toInt)}
      (Set.Ico 0 (type.bufferSize extents strides)) := by
  have hpos : ∀ n ∈ extents.map Int64.toInt, 1 ≤ n := List.forall_mem_map.mpr h.extents_pos
  have hdeclared : ¬ type.strides.isSome = true := by simp [hnone]
  rw [if_neg hdeclared] at hstrides
  rw [bufferSize, if_neg hdeclared] at hfits ⊢
  rw [hstrides, map_toInt_rowMajor hpos hfits]
  exact bijOn_position_rowMajor hpos

end TensorType

/-! ## Buffers -/

theorem Ty.eq_tensor_of_tensor? {ty : Ty} {type : TensorType} (h : ty.tensor? = some type) : ty = .tensor type := by
  cases ty <;> simp [tensor?] at h
  rw [h]

section

variable [FloatOps] {v : Var} {type : TensorType} {flat : FlatBuffer} {vars : List Var} {name : String}

/-- A variable becomes a buffer if it is a tensor of several dimensions, or one with declared strides. -/
theorem Var.flatten?_eq_some_iff :
    v.flatten? = some flat ↔
      ∃ type es ss, v.ty = .tensor type ∧ type.shape = some es ∧ (1 < es.length ∨ type.strides.isSome) ∧
        type.effectiveStrides? = some ss ∧
        flat = ⟨⟨v.name, .tensor { type with shape := some [type.flatExtent es ss], strides := none }⟩, ss⟩ := by
  have hkept {es : List Expr} {type : TensorType} :
      ¬((decide (es.length ≤ 1) && type.strides.isNone) = true) ↔ 1 < es.length ∨ type.strides.isSome := by
    rw [Bool.and_eq_true, not_and_or, decide_eq_true_iff, Nat.not_le, Option.isNone_iff_eq_none,
      Option.isSome_iff_ne_none]
  constructor
  · intro h
    obtain ⟨type, htype, h⟩ := Option.bind_eq_some_iff.mp h
    obtain ⟨es, hes, h⟩ := Option.bind_eq_some_iff.mp h
    split_ifs at h with hsmall
    obtain ⟨ss, hss, h⟩ := Option.bind_eq_some_iff.mp h
    cases h
    exact ⟨type, es, ss, Ty.eq_tensor_of_tensor? htype, hes, hkept.mp hsmall, hss, rfl⟩
  · rintro ⟨type, es, ss, htype, hes, hlarge, hss, rfl⟩
    rw [flatten?, htype]
    change (type.shape >>= _) = _
    rw [hes]
    change (if _ then _ else _) = _
    rw [if_neg (hkept.mpr hlarge), hss]
    rfl

namespace FlatBuffers

/-- A buffer is that of a variable of its name. -/
theorem exists_of_lookup_ofVars (h : (ofVars vars).lookup name = some flat) :
    ∃ v ∈ vars, v.name = name ∧ v.flatten? = some flat := by
  obtain ⟨before, after, heq, -⟩ := List.lookup_eq_some_iff.mp h
  have hmem : (name, flat) ∈ ofVars vars := by simp [heq]
  rw [ofVars, List.mem_reverse, List.mem_filterMap] at hmem
  obtain ⟨v, hv, hentry⟩ := hmem
  obtain ⟨flat', hflat, hpair⟩ := Option.map_eq_some_iff.mp hentry
  cases hpair
  exact ⟨v, hv, rfl, hflat⟩

/-- The last variable of a name gives the buffer. -/
theorem lookup_ofVars {before after : List Var} (hafter : ∀ w ∈ after, w.name ≠ v.name) (hflat : v.flatten? = some flat) :
    (ofVars (before ++ v :: after)).lookup v.name = some flat := by
  have hnone : (ofVars after).lookup v.name = none := by
    refine Option.eq_none_iff_forall_ne_some.mpr fun flat' hlookup => ?_
    obtain ⟨w, hw, hname, -⟩ := exists_of_lookup_ofVars hlookup
    exact hafter w hw hname
  have hsplit : ofVars (before ++ v :: after) = ofVars after ++ (v.name, flat) :: ofVars before := by
    rw [ofVars, List.filterMap_append, List.filterMap_cons, hflat]
    simp [ofVars]
  rw [hsplit, List.lookup_append, hnone]
  exact List.lookup_cons_self

end FlatBuffers

end

/-! ## Accesses -/

namespace FlatBuffers

open TensorCompiler.Expr

variable {B : FlatBuffers} {e base : Expr} {indices js : List Expr} {s : Stmt}

theorem linearizeExpr_var (B : FlatBuffers) (v : Var) :
    B.linearizeExpr (.var v) = .var (((B.lookup v.name).map FlatBuffer.buffer).getD v) := rfl

theorem linearizeExpr_element (B : FlatBuffers) (base : Expr) (indices : List Expr) :
    B.linearizeExpr (.element base indices) =
      .element (B.linearizeExpr base) (B.indices (B.linearizeExpr base) (indices.map B.linearizeExpr)) := by
  rw [linearizeExpr, mapBottomUp_eq]
  rfl

theorem linearizeExpr_eq (B : FlatBuffers) (hvar : ∀ v, e ≠ .var v) (helement : ∀ b is, e ≠ .element b is) :
    B.linearizeExpr e = e.mapChildren B.linearizeExpr := by
  rw [linearizeExpr, mapBottomUp_eq]
  cases e with
  | var v => exact absurd rfl (hvar v)
  | element b is => exact absurd rfl (helement b is)
  | _ => rfl

/-- Only a variable becomes a variable. -/
theorem exists_of_linearizeExpr_eq_var {w : Var} (h : B.linearizeExpr e = .var w) :
    ∃ w₀, e = .var w₀ ∧ w = ((B.lookup w₀.name).map FlatBuffer.buffer).getD w₀ := by
  cases e with
  | var v =>
    rw [linearizeExpr_var] at h
    cases h
    exact ⟨v, rfl, rfl⟩
  | element b is =>
    rw [linearizeExpr_element] at h
    cases h
  | _ =>
    rw [linearizeExpr_eq B (by simp) (by simp)] at h
    cases h

/-- Whether the strides of buffers are literals. -/
def HasLiteralStrides (B : FlatBuffers) : Prop :=
  ∀ name flat, B.lookup name = some flat → ∀ s ∈ flat.strides, ∃ n, s.IsInteger n

theorem exists_of_mem_indices (hB : B.HasLiteralStrides) (hmem : ∃ i ∈ B.indices base indices, element e js ∈ i.preorder) :
    ∃ i ∈ indices, element e js ∈ i.preorder := by
  rw [FlatBuffers.indices] at hmem
  split at hmem
  · rename_i flat hflat
    obtain ⟨v, -, hlookup⟩ := Option.bind_eq_some_iff.mp hflat
    split_ifs at hmem
    · obtain ⟨i, hi, hmem⟩ := hmem
      rw [List.mem_singleton.mp hi] at hmem
      exact exists_of_mem_linearIndex (hB _ _ hlookup) hmem
    · exact hmem
  · exact hmem

/-- Each access in an expression with linear indices is made from an access of the expression. -/
theorem exists_of_mem_linearizeExpr (hB : B.HasLiteralStrides) (h : element base js ∈ (B.linearizeExpr e).preorder) :
    ∃ base₀ js₀, element base₀ js₀ ∈ e.preorder ∧ element base js = B.linearizeExpr (element base₀ js₀) := by
  induction e using Expr.induct with
  | node e ih =>
    have hchild {c : Expr} (hc : c ∈ e.children) (hmem : element base js ∈ (B.linearizeExpr c).preorder) :
        ∃ base₀ js₀, element base₀ js₀ ∈ e.preorder ∧ element base js = B.linearizeExpr (element base₀ js₀) := by
      obtain ⟨base₀, js₀, hmem₀, heq⟩ := ih c hc hmem
      exact ⟨base₀, js₀, mem_preorder_of_child hc hmem₀, heq⟩
    cases e with
    | var v => cases List.mem_singleton.mp h
    | element b is =>
      by_cases hself : element base js = B.linearizeExpr (element b is)
      · exact ⟨b, is, mem_preorder_self _, hself⟩
      · obtain ⟨c, hc, hmem⟩ := exists_child_of_mem_preorder h hself
        rw [linearizeExpr_element, children, List.mem_cons] at hc
        rcases hc with rfl | hc
        · exact hchild List.mem_cons_self hmem
        · obtain ⟨i', hi', hmem⟩ := exists_of_mem_indices hB ⟨c, hc, hmem⟩
          obtain ⟨i, hi, rfl⟩ := List.mem_map.mp hi'
          exact hchild (List.mem_cons_of_mem _ hi) hmem
    | _ =>
      rw [linearizeExpr_eq B (by simp) (by simp)] at h
      obtain ⟨c', hc', hmem⟩ := exists_child_of_mem_preorder h (by simp [mapChildren])
      rw [children_mapChildren] at hc'
      obtain ⟨c, hc, rfl⟩ := List.mem_map.mp hc'
      exact hchild hc hmem

/-! ### Statements -/

theorem children_linearizeStore (B : FlatBuffers) (s : Stmt) : (B.linearizeStore s).children = s.children := by
  cases s <;> rfl

theorem exprs_map_of_ne_store (B : FlatBuffers) (hs : ∀ buf indices value, s ≠ .store buf indices value) :
    (s.map B.linearizeStore B.linearizeExpr).exprs = s.exprs.map B.linearizeExpr := by
  cases s with
  | store buf indices value => exact absurd rfl (hs buf indices value)
  | ite cond thenS elseS => cases elseS <;> rfl
  | asm template outputs inputs volatile =>
    simp [Stmt.map, linearizeStore, Stmt.mapOwnExprs, Stmt.exprs]
    rfl
  | ret value => cases value <;> rfl
  | _ => rfl

/-- Each store in a body with linear indices is made from a store of the body. -/
theorem exists_of_mem_map_store {body : Stmt} {buf value : Expr}
    (h : .store buf indices value ∈ (body.map B.linearizeStore B.linearizeExpr).preorder) :
    ∃ buf₀ indices₀ value₀, .store buf₀ indices₀ value₀ ∈ body.preorder ∧ buf = B.linearizeExpr buf₀ ∧
      indices = B.indices buf (indices₀.map B.linearizeExpr) ∧ value = B.linearizeExpr value₀ := by
  obtain ⟨u, hu, heq⟩ := Stmt.exists_of_mem_preorder_map (children_linearizeStore B) h
  cases u with
  | store buf₀ indices₀ value₀ =>
    cases heq
    exact ⟨buf₀, indices₀, value₀, hu, rfl, rfl, rfl⟩
  | ite cond thenS elseS => cases elseS <;> cases heq
  | _ => cases heq

/-- Each access in a body with linear indices is made from an access of the body. -/
theorem exists_of_mem_map_exprNodes (hB : B.HasLiteralStrides) {body : Stmt}
    (h : element base js ∈ (body.map B.linearizeStore B.linearizeExpr).exprNodes) :
    ∃ base₀ js₀, element base₀ js₀ ∈ body.exprNodes ∧ element base js = B.linearizeExpr (element base₀ js₀) := by
  obtain ⟨t, ht, h⟩ := List.mem_flatMap.mp h
  obtain ⟨e', he', hmem⟩ := List.mem_flatMap.mp h
  obtain ⟨u, hu, rfl⟩ := Stmt.exists_of_mem_preorder_map (children_linearizeStore B) ht
  obtain ⟨e, he, hmem⟩ : ∃ e ∈ u.exprs, element base js ∈ (B.linearizeExpr e).preorder := by
    by_cases hstore : ∃ buf indices value, u = .store buf indices value
    · obtain ⟨buf, indices, value, rfl⟩ := hstore
      change e' ∈ B.linearizeExpr buf :: B.indices _ (indices.map B.linearizeExpr) ++ [B.linearizeExpr value] at he'
      rw [List.mem_append, List.mem_cons, List.mem_singleton] at he'
      rcases he' with (rfl | he') | rfl
      · exact ⟨buf, List.mem_cons_self, hmem⟩
      · obtain ⟨i', hi', hmem⟩ := exists_of_mem_indices hB ⟨e', he', hmem⟩
        obtain ⟨i, hi, rfl⟩ := List.mem_map.mp hi'
        exact ⟨i, List.mem_cons_of_mem _ (List.mem_append_left _ hi), hmem⟩
      · exact ⟨value, List.mem_cons_of_mem _ (List.mem_append_right _ (List.mem_singleton_self _)), hmem⟩
    · push Not at hstore
      rw [exprs_map_of_ne_store B hstore] at he'
      obtain ⟨e, he, rfl⟩ := List.mem_map.mp he'
      exact ⟨e, he, hmem⟩
  obtain ⟨base₀, js₀, hmem₀, heq⟩ := exists_of_mem_linearizeExpr hB hmem
  exact ⟨base₀, js₀, List.mem_flatMap.mpr ⟨u, hu, List.mem_flatMap.mpr ⟨e, he, hmem₀⟩⟩, heq⟩

/-! ### Values -/

/-- The valuation of the nodes of a body that gives each of them the value of the node made from it. Under it an element
of a tensor has the value that the buffer has at the position of the element. -/
def pullback (B : FlatBuffers) (atoms : Expr → Int) (e : Expr) : Int :=
  (B.linearizeExpr e).exactValue atoms

theorem exactValue_linearizeExpr (B : FlatBuffers) (atoms : Expr → Int) (e : Expr) :
    (B.linearizeExpr e).exactValue atoms = e.exactValue (B.pullback atoms) := by
  induction e using Expr.induct with
  | node e ih =>
    have hatom (h : e.exactValue (B.pullback atoms) = B.pullback atoms e) :
        (B.linearizeExpr e).exactValue atoms = e.exactValue (B.pullback atoms) := h.symm
    cases e with
    | binary op lhs rhs =>
      have hl := ih lhs List.mem_cons_self
      have hr := ih rhs (List.mem_cons_of_mem _ (List.mem_singleton_self _))
      have hbinary : B.linearizeExpr (binary op lhs rhs) = binary op (B.linearizeExpr lhs) (B.linearizeExpr rhs) :=
        linearizeExpr_eq B (by simp) (by simp)
      rw [hbinary]
      cases op with
      | add => rw [exactValue, exactValue, hl, hr]
      | mul => rw [exactValue, exactValue, hl, hr]
      | _ => exact hbinary ▸ hatom (by rw [exactValue]; all_goals simp)
    | const value dtype => cases value <;> rfl
    | _ => exact hatom (by rw [exactValue]; all_goals simp)

/-- Whether an access at `indices` is one at a single index, the position of `originals`. -/
def GoesTo (B : FlatBuffers) (originals indices : List Expr) (strides : List Int64) : Prop :=
  ∃ index, indices = [index] ∧ ∀ atoms, index.exactValue atoms =
    position (originals.map (Expr.exactValue (B.pullback atoms))) (strides.map Int64.toInt)

/-- An access with one index for each stride goes to the position of the indices. -/
theorem goesTo_indices {w : Var} {flat : FlatBuffer} {originals : List Expr} {strides : List Int64}
    (hlookup : B.lookup w.name = some flat) (hstrides : List.Forall₂ IsInteger flat.strides strides)
    (hlength : originals.length = flat.strides.length) :
    B.GoesTo originals (B.indices (.var w) (originals.map B.linearizeExpr)) strides := by
  have hfound : ((Expr.var w).var?.bind fun v => B.lookup v.name) = some flat := hlookup
  refine ⟨linearIndex (originals.map B.linearizeExpr) flat.strides, ?_, fun atoms => ?_⟩
  · rw [FlatBuffers.indices, hfound]
    exact if_pos (by simpa using hlength)
  · rw [exactValue_linearIndex hstrides, List.map_map]
    congr 1
    exact List.map_congr_left fun e _ => exactValue_linearizeExpr B atoms e

end FlatBuffers

/-! ## Functions -/

namespace Function

variable {f : Function} {v w : Var} {type : TensorType} {extents : List Int64}

/-- Whether a variable is what its name stands for in a function: the last parameter or local variable of that name. -/
def Declares (f : Function) (v : Var) : Prop :=
  ∃ before after, f.params ++ f.locals = before ++ v :: after ∧ ∀ w ∈ after, w.name ≠ v.name

/-- Whether all tensors among the parameters and local variables are static. -/
def HasStaticTensors (f : Function) : Prop :=
  ∀ v ∈ f.params ++ f.locals, ∀ type, v.ty = .tensor type → ∃ extents, type.Static extents

theorem Declares.mem (h : f.Declares v) : v ∈ f.params ++ f.locals := by
  obtain ⟨before, after, heq, -⟩ := h
  simp [heq]

section

variable [FloatOps]

/-- The buffers that the tensors of a function become. -/
def buffers (f : Function) : FlatBuffers :=
  .ofVars (f.params ++ f.locals)

/-- The variable, or its buffer if it becomes one. -/
def flatVar (v : Var) : Var :=
  (v.flatten?.map FlatBuffer.buffer).getD v

theorem Declares.lookup_buffers (h : f.Declares v) {flat : FlatBuffer} (hflat : v.flatten? = some flat) :
    f.buffers.lookup v.name = some flat := by
  obtain ⟨before, after, heq, hafter⟩ := h
  rw [buffers, heq]
  exact FlatBuffers.lookup_ofVars hafter hflat

theorem HasStaticTensors.hasLiteralStrides (h : f.HasStaticTensors) : f.buffers.HasLiteralStrides := by
  intro name flat hlookup s hs
  obtain ⟨v, hv, -, hflat⟩ := FlatBuffers.exists_of_lookup_ofVars hlookup
  obtain ⟨type, es, ss, htype, -, -, hss, rfl⟩ := Var.flatten?_eq_some_iff.mp hflat
  obtain ⟨extents, hstatic⟩ := h v hv type htype
  obtain ⟨ss', strides, hss', hliterals, -⟩ := hstatic.exists_strides
  cases hss.symm.trans hss'
  obtain ⟨n, -, hn⟩ := exists_mem_of_forall₂ hliterals hs
  exact ⟨n, hn⟩

/-- The function with a tensor that becomes a buffer: variables become buffers, and accesses become linear. -/
theorem flattenTensors_eq {flat : FlatBuffer} (h : f.buffers.lookup v.name = some flat) :
    f.flattenTensors = { f with
      params := f.params.map flatVar
      locals := f.locals.map flatVar
      body := f.body.map f.buffers.linearizeStore f.buffers.linearizeExpr } := by
  have hnonempty : f.buffers.isEmpty = false := by
    cases hbuffers : f.buffers with
    | nil =>
      rw [hbuffers] at h
      cases h
    | cons => rfl
  unfold flattenTensors
  rw [buffers] at hnonempty
  simp only [hnonempty]
  rfl

/-- A variable that becomes one of the name of a tensor has this name. -/
theorem name_of_linearizeExpr_eq_var {e : Expr} (h : f.buffers.linearizeExpr e = .var w) :
    ∃ w₀, e = .var w₀ ∧ w₀.name = w.name := by
  obtain ⟨w₀, rfl, hw⟩ := FlatBuffers.exists_of_linearizeExpr_eq_var h
  refine ⟨w₀, rfl, ?_⟩
  cases hlookup : f.buffers.lookup w₀.name with
  | none =>
    rw [hw, hlookup]
    rfl
  | some flat =>
    obtain ⟨u, -, hname, hflat⟩ := FlatBuffers.exists_of_lookup_ofVars hlookup
    obtain ⟨_, _, _, -, -, -, -, rfl⟩ := Var.flatten?_eq_some_iff.mp hflat
    rw [hw, hlookup]
    exact hname.symm

/-- Flattening preserves addressing. The accesses to a tensor that becomes a buffer are accesses at one index, the position
that its effective strides give to the indices. If the number of elements that the buffer must hold fits the literals, it
is the extent of the buffer, the position of each element is below it, and row-major order is a bijection. -/
theorem addresses_flattenTensors (hv : f.Declares v) (htype : v.ty = .tensor type) (hstatic : type.Static extents)
    (hflat : 1 < extents.length ∨ type.strides.isSome) (htensors : f.HasStaticTensors)
    (hloads : ∀ w indices, .element (.var w) indices ∈ f.body.exprNodes → w.name = v.name →
      indices.length = extents.length)
    (hstores : ∀ w indices value, .store (.var w) indices value ∈ f.body.preorder → w.name = v.name →
      indices.length = extents.length) :
    ∃ ss strides extent size, type.effectiveStrides? = some ss ∧ List.Forall₂ Expr.IsInteger ss strides ∧
      (⟨v.name, .tensor { type with shape := some [extent], strides := none }⟩ : Var) ∈
        f.flattenTensors.params ++ f.flattenTensors.locals ∧
      extent.IsInteger size ∧
      (∀ w indices, .element (.var w) indices ∈ f.flattenTensors.body.exprNodes → w.name = v.name →
        ∃ w₀ originals, .element (.var w₀) originals ∈ f.body.exprNodes ∧ w₀.name = v.name ∧
          .element (.var w) indices = f.buffers.linearizeExpr (.element (.var w₀) originals) ∧
          f.buffers.GoesTo originals indices strides) ∧
      (∀ w indices value, .store (.var w) indices value ∈ f.flattenTensors.body.preorder → w.name = v.name →
        ∃ w₀ originals value₀, .store (.var w₀) originals value₀ ∈ f.body.preorder ∧ w₀.name = v.name ∧
          value = f.buffers.linearizeExpr value₀ ∧ f.buffers.GoesTo originals indices strides) ∧
      (type.bufferSize extents strides < 2 ^ 63 →
        size.toInt = type.bufferSize extents strides ∧
        (∀ indices, Within indices (extents.map Int64.toInt) →
          0 ≤ position indices (strides.map Int64.toInt) ∧ position indices (strides.map Int64.toInt) < size.toInt) ∧
        (type.strides = none → Set.BijOn (position · (strides.map Int64.toInt))
          {indices | Within indices (extents.map Int64.toInt)} (Set.Ico 0 size.toInt))) := by
  obtain ⟨es, hes, hextents⟩ := hstatic.shape
  obtain ⟨ss, strides, hss, hliterals, hlength, hstrides⟩ := hstatic.exists_strides
  have hsize := type.isInteger_flatExtent hextents hliterals
  have hbuffer := Var.flatten?_eq_some_iff.mpr ⟨type, es, ss, htype, hes, hextents.length_eq.symm ▸ hflat, hss, rfl⟩
  have hlookup := hv.lookup_buffers hbuffer
  have hrank : ss.length = extents.length := hliterals.length_eq.trans hlength
  have hfunction := flattenTensors_eq hlookup
  refine ⟨ss, strides, _, _, hss, hliterals, ?_, hsize, ?_, ?_, ?_⟩
  · rw [hfunction, ← List.map_append]
    refine List.mem_map.mpr ⟨v, hv.mem, ?_⟩
    rw [flatVar, hbuffer]
    rfl
  · intro w indices hmem hname
    rw [hfunction] at hmem
    obtain ⟨base₀, originals, hmem₀, heq⟩ := FlatBuffers.exists_of_mem_map_exprNodes htensors.hasLiteralStrides hmem
    rw [FlatBuffers.linearizeExpr_element] at heq
    obtain ⟨hbase, hindices⟩ := Expr.element.injEq .. ▸ heq
    obtain ⟨w₀, rfl, hname₀⟩ := name_of_linearizeExpr_eq_var hbase.symm
    have hname₀ := hname₀.trans hname
    refine ⟨w₀, originals, hmem₀, hname₀, (FlatBuffers.linearizeExpr_element ..).symm ▸ heq, ?_⟩
    rw [hindices, ← hbase]
    exact FlatBuffers.goesTo_indices (hname ▸ hlookup) hliterals ((hloads w₀ originals hmem₀ hname₀).trans hrank.symm)
  · intro w indices value hmem hname
    rw [hfunction] at hmem
    obtain ⟨buf₀, originals, value₀, hmem₀, hbuf, hindices, hvalue⟩ := FlatBuffers.exists_of_mem_map_store hmem
    obtain ⟨w₀, rfl, hname₀⟩ := name_of_linearizeExpr_eq_var hbuf.symm
    have hname₀ := hname₀.trans hname
    refine ⟨w₀, originals, value₀, hmem₀, hname₀, hvalue, ?_⟩
    rw [hindices]
    exact FlatBuffers.goesTo_indices (hname ▸ hlookup) hliterals
      ((hstores w₀ originals value₀ hmem₀ hname₀).trans hrank.symm)
  · intro hfits
    have hpos := hstatic.bufferSize_pos hlength hstrides hfits
    rw [TensorType.toInt_ofInt_of_fits (Int.le_of_lt hpos) hfits]
    exact ⟨rfl, fun indices hwithin => hstatic.position_lt_bufferSize hlength hstrides hfits hwithin,
      fun hnone => hstatic.bijOn_position hnone hstrides hfits⟩

end

/-- A store into the square tensor `a` of the transposed element. -/
def storeTransposed (size : Int64) : Function :=
  let a : Var := ⟨"a", .tensor ⟨.known .global, .known .float32, some [.int size, .int size], none⟩⟩
  let i := Expr.var (.int "i")
  let j := Expr.var (.int "j")
  { name := "store_transposed"
    worker := .thread
    params := [a, .int "i", .int "j"]
    body := .store (.var a) [i, j] (.element (.var a) [j, i]) }

theorem static_square {size : Int64} (hsize : 1 ≤ size.toInt) :
    (⟨.known .global, .known .float32, some [.int size, .int size], none⟩ : TensorType).Static [size, size] where
  shape := ⟨_, rfl, .cons (Expr.isInteger_int size) (.cons (Expr.isInteger_int size) .nil)⟩
  extents_pos := by
    intro n hn
    rcases List.mem_pair.mp hn with rfl | rfl <;> exact hsize
  strides := by simp

/-- For a three by three tensor both accesses of the store are at one index, and the buffer has nine elements. -/
theorem addresses_storeTransposed_three :
    ∃ strides extent size,
      (⟨"a", .tensor ⟨.known .global, .known .float32, some [extent], none⟩⟩ : Var) ∈
        (storeTransposed 3).flattenTensors.params ++ (storeTransposed 3).flattenTensors.locals ∧
      extent.IsInteger size ∧
      (∀ w indices, .element (.var w) indices ∈ (storeTransposed 3).flattenTensors.body.exprNodes → w.name = "a" →
        ∃ index, indices = [index]) ∧
      (∀ w indices value, .store (.var w) indices value ∈ (storeTransposed 3).flattenTensors.body.preorder →
        w.name = "a" → ∃ index, indices = [index]) ∧
      Set.BijOn (position · strides) {indices | Within indices [3, 3]} (Set.Ico 0 size.toInt) ∧ size.toInt = 9 := by
  have hstatic : (⟨.known .global, .known .float32, some [.int 3, .int 3], none⟩ : TensorType).Static [3, 3] :=
    static_square (by decide)
  have htensors : (storeTransposed 3).HasStaticTensors := by
    intro v hv type htype
    have hv : v ∈ (storeTransposed 3).params := by simpa [storeTransposed] using hv
    rcases List.mem_cons.mp hv with rfl | hv
    · cases htype
      exact ⟨_, hstatic⟩
    · rcases List.mem_pair.mp hv with rfl | rfl <;> cases htype
  have hloads : ∀ w indices, .element (.var w) indices ∈ (storeTransposed 3).body.exprNodes → w.name = "a" →
      indices.length = 2 := by
    intro w indices hmem _
    change _ ∈ [_, _, _, Expr.element _ [.var (.int "j"), .var (.int "i")], _, _, _] at hmem
    obtain ⟨-, rfl⟩ : _ ∧ indices = [.var (.int "j"), .var (.int "i")] := by simpa using hmem
    rfl
  have hstores : ∀ w indices value, .store (.var w) indices value ∈ (storeTransposed 3).body.preorder → w.name = "a" →
      indices.length = 2 := by
    intro w indices value hmem _
    cases List.mem_singleton.mp hmem
    rfl
  obtain ⟨ss, strides, extent, size, -, -, hbuffer, hextent, hindex, hstore, hfits⟩ :=
    addresses_flattenTensors (f := storeTransposed 3) ⟨[], _, rfl, by decide⟩ rfl hstatic (Or.inl (by decide)) htensors
      hloads hstores
  obtain ⟨hsize, -, hbij⟩ := hfits (by change (9 : Int) < 2 ^ 63; decide)
  refine ⟨_, extent, size, hbuffer, hextent, ?_, ?_, hbij rfl, hsize⟩
  · intro w indices hmem hname
    obtain ⟨_, _, _, _, _, index, hone, -⟩ := hindex w indices hmem hname
    exact ⟨index, hone⟩
  · intro w indices value hmem hname
    obtain ⟨_, _, _, _, _, _, index, hone, -⟩ := hstore w indices value hmem hname
    exact ⟨index, hone⟩

/-- A tensor of 2⁶⁴ elements becomes a buffer of none, where its first element has no place. -/
theorem flattenTensors_storeTransposed_overflow :
    (⟨.known .global, .known .float32, some [.int 4294967296, .int 4294967296], none⟩ : TensorType).Static
        [4294967296, 4294967296] ∧
      (storeTransposed 4294967296).flattenTensors.params.head? =
        some ⟨"a", .tensor ⟨.known .global, .known .float32, some [.int 0], none⟩⟩ ∧
      Within [0, 0] [4294967296, 4294967296] ∧ ¬position [0, 0] [4294967296, 1] < (0 : Int64).toInt :=
  ⟨static_square (by decide), rfl, .cons (by decide) (.cons (by decide) .nil), by decide⟩

end Function

end TensorCompiler
