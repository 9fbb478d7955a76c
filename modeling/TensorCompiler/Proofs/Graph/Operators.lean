import TensorCompiler.Proofs.Graph.WellFormed

/-! # The definitions of the operators

Every operator that is appended to a graph has a definition of the form that passes keep. A definition with two
operands is typed only if these have one element type, except for the maximum, which has the type of its first operand.
-/

namespace TensorCompiler

/-- The functions on one element that stay within the kind. -/
def NumberKind.hasUnary : NumberKind → UnaryFn → Bool
  | real, _ => true
  | integer, fn => fn == .relu || fn == .neg || fn == .abs

/-- The functions on one element that occur. -/
def ElementKind.hasUnary : ElementKind → UnaryFn → Bool
  | numbers kind, fn => kind.hasUnary fn
  | mixed, _ => true

/-- A function on one element other than these two is the mathematical function of its name. -/
theorem ElementKind.hasFunction_name {k : ElementKind} {fn : UnaryFn} (hfn : k.hasUnary fn) (hrelu : fn ≠ .relu)
    (hneg : fn ≠ .neg) : k.hasFunction fn.name := by
  cases k with
  | mixed =>
    cases fn with
    | relu => exact absurd rfl hrelu
    | neg => exact absurd rfl hneg
    | exp | sigmoid | tanh | sqrt | abs => decide
  | numbers kind =>
    cases fn with
    | relu => exact absurd rfl hrelu
    | neg => exact absurd rfl hneg
    | abs => cases kind <;> decide
    | exp | sigmoid | tanh | sqrt =>
      cases kind with
      | real => decide
      | integer => cases hfn

/-! ## Axes -/

namespace Expr

variable {scope : List String} {name : String} {rank : Nat}

theorem mem_names_axisVars {i : Nat} (h : i < rank) : (Var.axis name i).name ∈ (axisVars name rank).map Var.name :=
  List.mem_map_of_mem (List.mem_map_of_mem (List.mem_range.mpr h))

/-- The axes in scope are coordinates. -/
theorem isCoordinate_of_mem_axisVars (hscope : ∀ x ∈ (axisVars name rank).map Var.name, x ∈ scope) :
    ∀ i ∈ (axisVars name rank).map Expr.var, IsCoordinate scope .int32 i := by
  intro i hi
  obtain ⟨v, hv, rfl⟩ := List.mem_map.mp hi
  obtain ⟨k, -, rfl⟩ := List.mem_map.mp hv
  exact .var (hscope _ (List.mem_map_of_mem hv)) rfl

theorem length_axes (name : String) (rank : Nat) : ((axisVars name rank).map Expr.var).length = rank := by
  rw [List.length_map, axisVars, List.length_map, List.length_range]

end Expr

/-! ## Broadcasting -/

theorem length_le_of_broadcastReversed? {a b s : List Int64} (h : broadcastReversed? a b = some s) :
    a.length ≤ s.length ∧ b.length ≤ s.length := by
  induction a generalizing b s with
  | nil =>
    cases h
    exact ⟨Nat.zero_le _, Nat.le_refl _⟩
  | cons x a ih =>
    cases b with
    | nil =>
      cases h
      exact ⟨Nat.le_refl _, Nat.zero_le _⟩
    | cons y b =>
      obtain ⟨extent, -, hrest⟩ := Option.bind_eq_some_iff.mp h
      obtain ⟨rest, hreversed, hs⟩ := Option.bind_eq_some_iff.mp hrest
      cases hs
      obtain ⟨ha, hb⟩ := ih hreversed
      exact ⟨Nat.succ_le_succ ha, Nat.succ_le_succ hb⟩

/-- The common shape has no fewer dimensions than the operands. -/
theorem length_le_of_broadcastShape? {a b shape : List Int64} (h : broadcastShape? a b = some shape) :
    a.length ≤ shape.length ∧ b.length ≤ shape.length := by
  obtain ⟨s, hs, rfl⟩ := Option.map_eq_some_iff.mp h
  simpa using length_le_of_broadcastReversed? hs

theorem broadcastShape_eq_ok_iff {op : String} {a b shape : List Int64} :
    broadcastShape op a b = .ok shape ↔ broadcastShape? a b = some shape := by
  rw [broadcastShape]
  cases broadcastShape? a b with
  | none => simp
  | some s => simp

theorem length_broadcastIndices {shape result : List Int64} {axes : List Expr} (hshape : shape.length ≤ result.length)
    (haxes : axes.length = result.length) : (broadcastIndices shape result axes).length = shape.length := by
  rw [broadcastIndices, List.length_zipWith, List.length_drop, List.length_zip, haxes]
  omega

/-- An index into a stretched operand is an axis or zero. -/
theorem isCoordinate_of_mem_broadcastIndices {scope : List String} {shape result : List Int64} {axes : List Expr}
    (haxes : ∀ i ∈ axes, Expr.IsCoordinate scope .int32 i) :
    ∀ i ∈ broadcastIndices shape result axes, Expr.IsCoordinate scope .int32 i := by
  intro i hi
  rw [broadcastIndices, ← List.map_uncurry_zip_eq_zipWith] at hi
  obtain ⟨⟨extent, stretched, axis⟩, hmem, rfl⟩ := List.mem_map.mp hi
  have hpair := List.mem_of_mem_drop (List.of_mem_zip hmem).2
  change Expr.IsCoordinate scope .int32 (if extent = 1 ∧ stretched ≠ 1 then Expr.int 0 else axis)
  split_ifs
  · exact .const _ _
  · exact haxes axis (List.of_mem_zip hpair).2

/-! ## Reads -/

section

variable {name : String} {x y : Expr}

theorem Expr.ReadsName.binary (op : BinaryOp) (h : x.ReadsName name ∨ y.ReadsName name) :
    (Expr.binary op x y).ReadsName name :=
  h.elim (.of_child List.mem_cons_self) (.of_child (List.mem_cons_of_mem _ List.mem_cons_self))

theorem UnaryFn.readsName_toExpr (fn : UnaryFn) (d : DType) (h : x.ReadsName name) :
    (fn.toExpr d x).ReadsName name := by
  cases fn <;> exact .of_child List.mem_cons_self h

theorem BinaryFn.readsName_toExpr (fn : BinaryFn) (h : x.ReadsName name ∨ y.ReadsName name) :
    (fn.toExpr x y).ReadsName name := by
  cases fn with
  | max => exact h.elim (.of_child List.mem_cons_self) (.of_child (List.mem_cons_of_mem _ List.mem_cons_self))
  | add | sub | mul | div => exact .binary _ h

/-- A reduction reads what its body reads. -/
theorem Expr.ReadsName.reduceOver {extents : List Int64} {axis : String} {kind : ReduceKind}
    {value : List Expr → Expr} (h : (value ((axisVars axis extents.length).map .var)).ReadsName name) :
    (Expr.reduceOver extents axis kind value).ReadsName name :=
  .of_child (List.mem_append_right _ (List.mem_singleton_self _)) h

end

/-! ## Definitions -/

namespace TensorCompute

variable {k : ElementKind} {T : TensorTable} {d da db : DType} {shape sa sb : List Int64} {x a b : TensorId}

/-- A definition over its own axes. -/
theorem defines_define {ids : List TensorId} {l : Level} (id : TensorId) {value : List Expr → Expr}
    (hd : k.hasDType d)
    (hreads : ∀ x ∈ ids, (value ((axisVars (axisName id.name) shape.length).map .var)).ReadsName x.name)
    (hvalue : Expr.IsElement k (T.Reads ids) d l ((axisVars (axisName id.name) shape.length).map Var.name)
      (value ((axisVars (axisName id.name) shape.length).map .var))) :
    (define id.name shape (axisName id.name) value).Defines k T ids l d shape := by
  refine ⟨hd, rfl, ?_, fun v hv => isResultAxis_of_mem_axisVars hv, fun v hv => ty_of_mem_axisVars hv,
    nodup_names_axisVars _ _, hvalue, hreads⟩
  rw [← Expr.length_axes (axisName id.name) shape.length, List.length_map]
  rfl

theorem defines_unary (fn : UnaryFn) (id : TensorId) (hx : T.type? x = some (d, shape)) (hd : k.hasDType d)
    (hfn : k.hasUnary fn) :
    (unary fn (.ofShape x.name d shape) d shape id.name).Defines k T [x] .elementwise d shape := by
  refine defines_define id hd (fun y hy => ?_) ?_
  · rw [List.mem_singleton.mp hy]
    exact fn.readsName_toExpr d (Expr.readsName_elementAt _ _ _ _)
  have hread : Expr.IsElement k (T.Reads [x]) d .elementwise ((axisVars (axisName id.name) shape.length).map Var.name)
      ((TensorInput.ofShape x.name d shape).elementAt ((axisVars (axisName id.name) shape.length).map .var)) :=
    .read ⟨x, List.mem_singleton_self x, rfl, hx⟩ (Expr.length_axes _ _)
      (Expr.isCoordinate_of_mem_axisVars fun _ h => h)
  cases fn with
  | relu => exact .callPair k.hasFunction_max hd hread (.const (Value.hasType_cast _ _))
  | neg => exact .neg hread
  | exp | sigmoid | tanh | sqrt | abs =>
    exact .call (ElementKind.hasFunction_name hfn (by decide) (by decide)) hread

theorem mem_pairInputs {id : TensorId} : id ∈ GraphM.pairInputs a b ↔ id = a ∨ id = b := by
  rw [GraphM.pairInputs]
  split_ifs with hab
  · simp [hab]
  · exact List.mem_pair

/-- Reads of two operands read each of them. -/
theorem readsName_pair {indices indices' : List Expr} (hx : x ∈ GraphM.pairInputs a b) :
    ((TensorInput.ofShape a.name da sa).elementAt indices).ReadsName x.name ∨
      ((TensorInput.ofShape b.name db sb).elementAt indices').ReadsName x.name := by
  rcases mem_pairInputs.mp hx with rfl | rfl
  · exact Or.inl (Expr.readsName_elementAt _ _ _ _)
  · exact Or.inr (Expr.readsName_elementAt _ _ _ _)

/-- A read of one of two operands. -/
theorem reads_pairInputs (ha : T.type? a = some (da, sa)) (hb : T.type? b = some (db, sb)) :
    T.Reads (GraphM.pairInputs a b) da a.name sa ∧ T.Reads (GraphM.pairInputs a b) db b.name sb :=
  ⟨⟨a, mem_pairInputs.mpr (Or.inl rfl), rfl, ha⟩, ⟨b, mem_pairInputs.mpr (Or.inr rfl), rfl, hb⟩⟩

/-- An operand of a binary operator at the element that belongs to the axes of the result. -/
def readAt (x : TensorId) (d : DType) (s shape : List Int64) (id : TensorId) : Expr :=
  (TensorInput.ofShape x.name d s).elementAt
    (broadcastIndices s shape ((axisVars (axisName id.name) shape.length).map .var))

theorem value_binary (fn : BinaryFn) (id : TensorId) :
    binary fn (.ofShape a.name da sa) (.ofShape b.name db sb) shape id.name =
      define id.name shape (axisName id.name) fun _ => fn.toExpr (readAt a da sa shape id) (readAt b db sb shape id) := by
  have hconst (x : TensorId) (d : DType) (s : List Int64) : (TensorInput.ofShape x.name d s).constShape? = some s :=
    Expr.constShape?_ofShape s
  simp only [binary, hconst, Option.getD_some]
  rfl

theorem isElement_readAt {ids : List TensorId} {s : List Int64} (id : TensorId) (hreads : T.Reads ids d x.name s)
    (hlength : s.length ≤ shape.length) :
    Expr.IsElement k (T.Reads ids) d .elementwise ((axisVars (axisName id.name) shape.length).map Var.name)
      (readAt x d s shape id) :=
  .read hreads (length_broadcastIndices hlength (Expr.length_axes _ _))
    (isCoordinate_of_mem_broadcastIndices (Expr.isCoordinate_of_mem_axisVars fun _ h => h))

/-- Arithmetic on elements is typed only if they have one type. -/
theorem isElement_binary {reads : DType → String → List Int64 → Prop} {l : Level} {scope : List String} {lhs rhs : Expr}
    {op : BinaryOp} {ty : Ty} (hcomparison : op.isComparison = false) (hlogical : op.isLogical = false)
    (hl : Expr.IsElement k reads da l scope lhs) (hr : Expr.IsElement k reads db l scope rhs)
    (htyped : (Expr.binary op lhs rhs).inferType = .ok ty) : Expr.IsElement k reads da l scope (.binary op lhs rhs) := by
  obtain rfl := hl.hasDType.operands_eq hr.hasDType htyped
  exact .binary hcomparison hlogical hl hr

theorem defines_binary (fn : BinaryFn) (id : TensorId) (ha : T.type? a = some (da, sa)) (hb : T.type? b = some (db, sb))
    (hda : k.hasDType da) (hdb : k.hasDType db) (hshape : broadcastShape? sa sb = some shape)
    (htyped : (binary fn (.ofShape a.name da sa) (.ofShape b.name db sb) shape id.name).value.HasDType d) :
    (binary fn (.ofShape a.name da sa) (.ofShape b.name db sb) shape id.name).Defines k T (GraphM.pairInputs a b)
      .elementwise da shape := by
  rw [value_binary] at htyped ⊢
  refine defines_define id hda (fun x hx => fn.readsName_toExpr (readsName_pair hx)) ?_
  obtain ⟨hlengthA, hlengthB⟩ := length_le_of_broadcastShape? hshape
  obtain ⟨hreadsA, hreadsB⟩ := reads_pairInputs ha hb
  have hlhs := isElement_readAt (k := k) id hreadsA hlengthA
  have hrhs := isElement_readAt (k := k) id hreadsB hlengthB
  cases fn with
  | max => exact .callPair k.hasFunction_max hdb hlhs hrhs
  | add => exact isElement_binary rfl rfl hlhs hrhs htyped
  | sub => exact isElement_binary rfl rfl hlhs hrhs htyped
  | mul => exact isElement_binary rfl rfl hlhs hrhs htyped
  | div => exact isElement_binary rfl rfl hlhs hrhs htyped

/-! ### Reductions -/

/-- A reduction over axes of its own inside a definition over its axes. -/
theorem isElement_reduceOver {reads : DType → String → List Int64 → Prop} {scope : List String} {extents : List Int64}
    (id : TensorId) (kind : ReduceKind) {value : List Expr → Expr} (hextents : ∀ n ∈ extents, k.hasExtent n)
    (hvalue : Expr.IsElement k reads d .body
      ((axisVars (reductionAxisName id.name) extents.length).map Var.name ++ scope)
      (value ((axisVars (reductionAxisName id.name) extents.length).map .var))) :
    Expr.IsElement k reads d .anchor scope (Expr.reduceOver extents (reductionAxisName id.name) kind value) := by
  refine .reduce kind hextents (fun v hv => isReductionAxis_of_mem_axisVars hv) (fun v hv => ty_of_mem_axisVars hv) ?_ hvalue
  rw [axisVars, List.length_map, List.length_range]

/-- The axes of a result and those of a reduction inside it, where both are in scope. -/
theorem isCoordinate_of_mem_axes (id : TensorId) (m n : Nat) :
    (∀ i ∈ (axisVars (axisName id.name) n).map Expr.var, Expr.IsCoordinate
      ((axisVars (reductionAxisName id.name) m).map Var.name ++ (axisVars (axisName id.name) n).map Var.name) .int32 i) ∧
      ∀ i ∈ (axisVars (reductionAxisName id.name) m).map Expr.var, Expr.IsCoordinate
        ((axisVars (reductionAxisName id.name) m).map Var.name ++ (axisVars (axisName id.name) n).map Var.name) .int32 i :=
  ⟨Expr.isCoordinate_of_mem_axisVars fun _ h => List.mem_append_right _ h,
    Expr.isCoordinate_of_mem_axisVars fun _ h => List.mem_append_left _ h⟩

theorem defines_matmul {rows inner columns : Int64} (id : TensorId) (ha : T.type? a = some (da, [rows, inner]))
    (hb : T.type? b = some (db, [inner, columns])) (hda : k.hasDType da) (hinner : k.hasExtent inner)
    (htyped : (matmul (.ofShape a.name da [rows, inner]) (.ofShape b.name db [inner, columns]) rows inner columns
      id.name).value.HasDType d) :
    (matmul (.ofShape a.name da [rows, inner]) (.ofShape b.name db [inner, columns]) rows inner columns
      id.name).Defines k T (GraphM.pairInputs a b) .anchor da [rows, columns] := by
  refine defines_define id hda (fun x hx => .reduceOver (.binary .mul (readsName_pair hx)))
    (isElement_reduceOver id .sum (by simpa using hinner) ?_)
  obtain ⟨hreadsA, hreadsB⟩ := reads_pairInputs ha hb
  obtain ⟨haxes, htaps⟩ := isCoordinate_of_mem_axes id 1 2
  refine isElement_binary rfl rfl (.read hreadsA rfl fun i hi => ?_) (.read hreadsB rfl fun i hi => ?_) htyped
  · rcases List.mem_append.mp hi with hi | hi
    · exact haxes i (List.mem_of_mem_take hi)
    · exact htaps i hi
  · rcases List.mem_append.mp hi with hi | hi
    · exact htaps i hi
    · exact haxes i (List.mem_of_mem_drop hi)

theorem defines_reduceAxis (kind : ReduceKind) {axis : Nat} (id : TensorId) (hx : T.type? x = some (d, shape))
    (hd : k.hasDType d) (haxis : axis < shape.length) (hextent : k.hasExtent (shape.getD axis 0)) :
    (reduceAxis kind (.ofShape x.name d shape) shape axis id.name).Defines k T [x] .anchor d (shape.eraseIdx axis) := by
  refine defines_define id hd (fun y hy => ?_) (isElement_reduceOver id kind (by simpa using hextent) ?_)
  · rw [List.mem_singleton.mp hy]
    exact .reduceOver (Expr.readsName_elementAt _ _ _ _)
  have hrank : (shape.eraseIdx axis).length = shape.length - 1 := List.length_eraseIdx_of_lt haxis
  obtain ⟨haxes, htaps⟩ := isCoordinate_of_mem_axes id 1 (shape.eraseIdx axis).length
  refine .read ⟨x, List.mem_singleton_self x, rfl, hx⟩ ?_ fun i hi => ?_
  · rw [List.length_append, List.length_append, List.length_take, List.length_drop, Expr.length_axes, Expr.length_axes,
      hrank]
    simp only [List.length_cons, List.length_nil]
    omega
  · rcases List.mem_append.mp hi with hi | hi
    · rcases List.mem_append.mp hi with hi | hi
      · exact haxes i (List.mem_of_mem_take hi)
      · exact htaps i hi
    · exact haxes i (List.mem_of_mem_drop hi)

/-- An element of a tensor with four dimensions. -/
theorem isElement_elementAt_four {reads : DType → String → List Int64 → Prop} {l : Level} {scope : List String}
    {name : String} {s : List Int64} {i₀ i₁ i₂ i₃ : Expr} (hreads : reads d name s) (hlength : s.length = 4)
    (h₀ : Expr.IsCoordinate scope .int32 i₀) (h₁ : Expr.IsCoordinate scope .int32 i₁)
    (h₂ : Expr.IsCoordinate scope .int32 i₂) (h₃ : Expr.IsCoordinate scope .int32 i₃) :
    Expr.IsElement k reads d l scope ((TensorInput.ofShape name d s).elementAt [i₀, i₁, i₂, i₃]) :=
  .read hreads hlength.symm (by simp [h₀, h₁, h₂, h₃])

theorem isCoordinate_tapCoordinate {scope : List String} {axis tap : Expr} (stride padding : Int64)
    (haxis : Expr.IsCoordinate scope .int32 axis) (htap : Expr.IsCoordinate scope .int32 tap) :
    Expr.IsCoordinate scope .int32 (tapCoordinate axis tap stride padding) :=
  .binary .sub (.binary .add (.binary .mul haxis (.const _ .int32)) htap) (.const _ .int32)

theorem isCoordinate_insideImage {scope : List String} {row column : Expr} (height width : Int64)
    (hrow : Expr.IsCoordinate scope .int32 row) (hcolumn : Expr.IsCoordinate scope .int32 column) :
    Expr.IsCoordinate scope .bool (insideImage row column height width) := by
  have hle {e : Expr} (he : Expr.IsCoordinate scope .int32 e) : Expr.IsCoordinate scope .bool ((Expr.int 0).le e) :=
    .binary .le (.const _ .int32) he
  have hlt {e : Expr} (he : Expr.IsCoordinate scope .int32 e) (n : Int64) :
      Expr.IsCoordinate scope .bool (e.lt (Expr.int n)) := .binary .lt he (.const _ .int32)
  have hand {a b : Expr} (ha : Expr.IsCoordinate scope .bool a) (hb : Expr.IsCoordinate scope .bool b) :
      Expr.IsCoordinate scope .bool (a.and b) := .binary .and ha hb
  exact hand (hand (hand (hle hrow) (hlt hrow height)) (hle hcolumn)) (hlt hcolumn width)

/-- The operands of a convolution have four dimensions each. -/
theorem length_of_convolutionSize? {image kernel : List Int64} {stride padding size : Int64 × Int64}
    (h : convolutionSize? image kernel stride padding = some size) : image.length = 4 ∧ kernel.length = 4 := by
  unfold convolutionSize? at h
  split at h
  · exact ⟨rfl, rfl⟩
  · cases h

theorem defines_conv2d {w : TensorId} {image kernel : List Int64} {stride padding : Int64 × Int64}
    {height width : Int64} (id : TensorId) (hx : T.type? x = some (d, image)) (hw : T.type? w = some (db, kernel))
    (hd : k.hasDType d) (himage : image.length = 4) (hkernel : kernel.length = 4)
    (hextents : ∀ n ∈ kernel.drop 1, k.hasExtent n)
    (htyped : (conv2d (.ofShape x.name d image) (.ofShape w.name db kernel) d image kernel stride padding height width
      id.name).value.HasDType da) :
    (conv2d (.ofShape x.name d image) (.ofShape w.name db kernel) d image kernel stride padding height width
      id.name).Defines k T [x, w] .anchor d [image.getD 0 0, kernel.getD 0 0, height, width] := by
  have hrank : (kernel.drop 1).length = 3 := by rw [List.length_drop, hkernel]
  simp only [conv2d] at htyped ⊢
  refine defines_define id hd (fun y hy => .reduceOver (.binary .mul ?_)) (isElement_reduceOver id .sum hextents ?_)
  · rcases List.mem_pair.mp hy with rfl | rfl
    · left
      split_ifs
      · exact Expr.readsName_elementAt _ _ _ _
      · exact .of_child (List.mem_cons_of_mem _ List.mem_cons_self) (Expr.readsName_elementAt _ _ _ _)
    · exact Or.inr (Expr.readsName_elementAt _ _ _ _)
  rw [hrank]
  -- the axes that occur, each in scope
  have haxis (i : Nat) (hi : i < 4) : Expr.IsCoordinate
      ((axisVars (reductionAxisName id.name) 3).map Var.name ++ (axisVars (axisName id.name) 4).map Var.name) .int32
      (.var (Var.axis (axisName id.name) i)) :=
    .var (List.mem_append_right _ (Expr.mem_names_axisVars hi)) rfl
  have htap (i : Nat) (hi : i < 3) : Expr.IsCoordinate
      ((axisVars (reductionAxisName id.name) 3).map Var.name ++ (axisVars (axisName id.name) 4).map Var.name) .int32
      (.var (Var.axis (reductionAxisName id.name) i)) :=
    .var (List.mem_append_left _ (Expr.mem_names_axisVars hi)) rfl
  have hrow := isCoordinate_tapCoordinate stride.1 padding.1 (haxis 2 (by decide)) (htap 1 (by decide))
  have hcolumn := isCoordinate_tapCoordinate stride.2 padding.2 (haxis 3 (by decide)) (htap 2 (by decide))
  have hreads : ∀ {y : TensorId} {d : DType} {s : List Int64}, y ∈ [x, w] → T.type? y = some (d, s) →
      T.Reads [x, w] d y.name s := fun hy htype => ⟨_, hy, rfl, htype⟩
  have hpixel := isElement_elementAt_four (k := k) (l := .body) (hreads (by simp) hx) himage (haxis 0 (by decide))
    (htap 0 (by decide)) hrow hcolumn
  have hweight := isElement_elementAt_four (k := k) (l := .body) (hreads (by simp) hw) hkernel (haxis 1 (by decide))
    (htap 0 (by decide)) (htap 1 (by decide)) (htap 2 (by decide))
  refine isElement_binary rfl rfl ?_ hweight htyped
  split_ifs
  · exact hpixel
  · exact .ite (isCoordinate_insideImage _ _ hrow hcolumn) hpixel (.const (Value.hasType_cast _ _))

end TensorCompute

end TensorCompiler
