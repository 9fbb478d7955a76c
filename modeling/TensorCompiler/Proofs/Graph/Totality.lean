import TensorCompiler.Proofs.Graph.Broadcasting
import TensorCompiler.Proofs.Graph.Build
import TensorCompiler.Proofs.Graph.Value

/-! # Graphs that evaluate

A definition is total if it gives an array of its shape wherever the tensors that it reads have arrays of their recorded
shapes. The operators on elements, the product of matrices and the reduction along an axis have total definitions over
floats: what they read lies inside, extents of zero and one included. A graph made of them evaluates to arrays of the
shapes that it records.
-/

namespace TensorCompiler

section

variable [FloatOps]

/-! ## Definitions -/

/-- Whether the known tensors have arrays of the shapes that are recorded of them. -/
def TensorTable.Supplies (T : TensorTable) (known : TensorId → Prop) (V : Tensors) : Prop :=
  ∀ id, known id → ∀ d shape, T.type? id = some (d, shape) → ∃ a, V.lookup id.name = some a ∧ a.HasShape shape

/-- Whether a definition gives an array of the shape wherever its inputs have arrays of theirs. -/
def TensorCompute.Total (T : TensorTable) (ids : List TensorId) (shape : List Int64) (c : TensorCompute) : Prop :=
  ∀ V, T.Supplies (· ∈ ids) V → ∃ a, c.evaluate V = .ok a ∧ a.HasShape shape

section

variable {V : Tensors} {env : Env}

/-- The axes of a result have the coordinates of the point that they are bound to. -/
theorem Expr.haveIndex_bind (V : Tensors) (env : Env) (name : String) {rank : Nat} {index : List Nat}
    (hrank : index.length = rank) :
    Expr.HaveIndex V (env.bind (axisVars name rank) ((index.map Int64.ofNat).map .int)) ((axisVars name rank).map .var)
      index := by
  have hlength : (axisVars name rank).length = ((index.map Int64.ofNat).map Value.int).length := by
    simp [axisVars, hrank]
  have hbound := Env.forall₂_lookup_bind (nodup_names_axisVars name rank) hlength env
  rw [List.forall₂_map_right_iff, List.forall₂_map_right_iff] at hbound
  rw [Expr.HaveIndex, List.forall₂_map_left_iff]
  exact hbound.imp fun v i hi => Expr.eval_var_eq_ok_iff.mpr hi

/-- They keep them where the axes of a reduction are bound. -/
theorem Expr.HaveIndex.bind_reductionAxes {id : TensorId} {rank : Nat} {index : List Nat}
    (h : Expr.HaveIndex V env ((axisVars (axisName id.name) rank).map .var) index) (m : Nat) (values : List Value) :
    Expr.HaveIndex V (env.bind (axisVars (reductionAxisName id.name) m) values)
      ((axisVars (axisName id.name) rank).map .var) index := by
  rw [Expr.HaveIndex, List.forall₂_map_left_iff] at h ⊢
  refine forall₂_imp_of_mem h fun v hv i hi => Expr.eval_var_eq_ok_iff.mpr ?_
  rw [Env.lookup_bind_of_not_mem, Expr.eval_var_eq_ok_iff.mp hi]
  intro hmem
  obtain ⟨w, hw, hname⟩ := List.mem_map.mp hmem
  exact (isResultAxis_of_mem_axisVars hv).not_isReductionAxis (hname ▸ isReductionAxis_of_mem_axisVars hw)

/-- A read of an input inside of its array. -/
theorem TensorTable.Supplies.givesFloat {T : TensorTable} {known : TensorId → Prop} {x : TensorId} {d : DType}
    {shape : List Int64} {indices : List Expr} {index : List Nat} (hV : T.Supplies known V) (hx : known x)
    (htype : T.type? x = some (d, shape)) (hd : d.isFloat) (hindices : Expr.HaveIndex V env indices index)
    (hinside : InShape (extentsOf shape) index) :
    ((TensorInput.ofShape x.name d shape).elementAt indices).GivesFloat V env := by
  obtain ⟨a, ha, hshape⟩ := hV x hx d shape htype
  exact .elementAt hd ha hshape hindices hinside

/-- A reduction of floats over axes of its own, inside of a definition. -/
theorem Expr.GivesFloat.reduceOver {kind : ReduceKind} {extents : List Int64} {id : TensorId} {rank : Nat}
    {index : List Nat} {value : List Expr → Expr}
    (haxes : Expr.HaveIndex V env ((axisVars (axisName id.name) rank).map .var) index)
    (hvalue : ∀ env tap, Expr.HaveIndex V env ((axisVars (axisName id.name) rank).map .var) index →
      InShape (extentsOf extents) tap →
      Expr.HaveIndex V env ((axisVars (reductionAxisName id.name) extents.length).map .var) tap →
      (value ((axisVars (reductionAxisName id.name) extents.length).map .var)).GivesFloat V env) :
    (Expr.reduceOver extents (reductionAxisName id.name) kind value).GivesFloat V env := by
  refine .reduce fun point hpoint => ?_
  rw [points_eq_grid] at hpoint
  obtain ⟨tap, htap, rfl⟩ := exists_inShape_of_mem_grid hpoint
  exact hvalue _ tap (haxes.bind_reductionAxes _ _) htap
    (Expr.haveIndex_bind V env _ (htap.length_eq.trans (List.length_map _)))

theorem UnaryFn.givesFloat_toExpr (fn : UnaryFn) {d : DType} {e : Expr} (hd : d.isFloat) (he : e.GivesFloat V env) :
    (fn.toExpr d e).GivesFloat V env := by
  cases fn with
  | relu => exact he.max (.zero hd)
  | neg => exact he.neg
  | exp | sigmoid | tanh | sqrt | abs => exact he.call fun a => ⟨_, rfl⟩

theorem BinaryFn.givesFloat_toExpr (fn : BinaryFn) {e e' : Expr} (he : e.GivesFloat V env) (he' : e'.GivesFloat V env) :
    (fn.toExpr e e').GivesFloat V env := by
  cases fn with
  | max => exact he.max he'
  | add | sub | mul | div => exact .binary (by decide) he he'

end

namespace TensorCompute

variable {T T' : TensorTable} {ids : List TensorId} {shape sa sb : List Int64} {c : TensorCompute} {x a b : TensorId}
  {d da db : DType}

/-- Only the types of the tensors that a definition reads count. -/
theorem Total.congr (h : c.Total T ids shape) (htypes : ∀ id ∈ ids, T'.type? id = T.type? id) : c.Total T' ids shape := by
  refine fun V hV => h V fun id hid d s htype => ?_
  exact hV id hid d s ((htypes id hid).trans htype)

theorem Total.withName (h : c.Total T ids shape) (name : String) : Total T ids shape { c with name := name } := by
  intro V hV
  obtain ⟨a, ha, hshape⟩ := h V hV
  have hvalue := evaluate_eq_ok_iff.mp ha
  exact ⟨a, evaluate_eq_ok_iff.mpr hvalue, hshape⟩

/-- A definition over its own axes is total if its value is a float at each index. -/
theorem total_define {id : TensorId} {value : List Expr → Expr} (hextents : ∀ n ∈ shape, 0 ≤ n)
    (hvalue : ∀ V env index, T.Supplies (· ∈ ids) V → InShape (extentsOf shape) index →
      Expr.HaveIndex V env ((axisVars (axisName id.name) shape.length).map .var) index →
      (value ((axisVars (axisName id.name) shape.length).map .var)).GivesFloat V env) :
    (define id.name shape (axisName id.name) value).Total T ids shape := by
  refine fun V hV => exists_evaluate (Expr.constShape?_ofShape shape) hextents fun point hpoint => ?_
  rw [points_eq_grid] at hpoint
  obtain ⟨index, hindex, rfl⟩ := exists_inShape_of_mem_grid hpoint
  exact hvalue V _ index hV hindex (Expr.haveIndex_bind V [] _ (hindex.length_eq.trans (List.length_map _)))

theorem total_unary (fn : UnaryFn) (id : TensorId) (hextents : ∀ n ∈ shape, 0 ≤ n) (hx : T.type? x = some (d, shape))
    (hd : d.isFloat) : (unary fn (.ofShape x.name d shape) d shape id.name).Total T [x] shape := by
  refine total_define hextents fun V env index hV hindex haxes => fn.givesFloat_toExpr hd ?_
  exact hV.givesFloat (List.mem_singleton_self x) hx hd haxes hindex

theorem total_binary (fn : BinaryFn) (id : TensorId) (hextents : ∀ n ∈ shape, 0 ≤ n) (ha : T.type? a = some (da, sa))
    (hb : T.type? b = some (db, sb)) (hda : da.isFloat) (hdb : db.isFloat) (hshape : broadcastShape? sa sb = some shape) :
    (binary fn (.ofShape a.name da sa) (.ofShape b.name db sb) shape id.name).Total T (GraphM.pairInputs a b) shape := by
  rw [value_binary]
  refine total_define hextents fun V env index hV hindex haxes => fn.givesFloat_toExpr ?_ ?_
  · obtain ⟨hvalues, hinside⟩ := haveIndex_broadcastIndices hshape List.mem_cons_self hindex haxes
    exact hV.givesFloat (mem_pairInputs.mpr (Or.inl rfl)) ha hda hvalues hinside
  · obtain ⟨hvalues, hinside⟩ :=
      haveIndex_broadcastIndices hshape (List.mem_cons_of_mem _ List.mem_cons_self) hindex haxes
    exact hV.givesFloat (mem_pairInputs.mpr (Or.inr rfl)) hb hdb hvalues hinside

/-- The product of matrices: at the point `[i, j]` and the tap `k` it reads at `[i, k]` and `[k, j]`. -/
theorem total_matmul {rows inner columns : Int64} (id : TensorId) (hextents : ∀ n ∈ [rows, columns], 0 ≤ n)
    (ha : T.type? a = some (da, [rows, inner])) (hb : T.type? b = some (db, [inner, columns])) (hda : da.isFloat)
    (hdb : db.isFloat) :
    (matmul (.ofShape a.name da [rows, inner]) (.ofShape b.name db [inner, columns]) rows inner columns
      id.name).Total T (GraphM.pairInputs a b) [rows, columns] := by
  refine total_define hextents fun V env index hV hindex haxes => .reduceOver haxes fun env tap haxes htap htaps => ?_
  refine .binary (by decide) ?_ ?_
  · exact hV.givesFloat (mem_pairInputs.mpr (Or.inl rfl)) ha hda ((haxes.take 1).append htaps)
      ((hindex.take 1).append htap)
  · exact hV.givesFloat (mem_pairInputs.mpr (Or.inr rfl)) hb hdb (htaps.append (haxes.drop 1))
      (htap.append (hindex.drop 1))

/-- A reduction along an axis puts the tap back where the result lacks the dimension. -/
theorem total_reduceAxis (kind : ReduceKind) {axis : Nat} (id : TensorId) (hextents : ∀ n ∈ shape, 0 ≤ n)
    (hx : T.type? x = some (d, shape)) (hd : d.isFloat) (haxis : axis < shape.length) :
    (reduceAxis kind (.ofShape x.name d shape) shape axis id.name).Total T [x] (shape.eraseIdx axis) := by
  have hkept : ∀ n ∈ shape.eraseIdx axis, 0 ≤ n := fun n hn => hextents n (List.mem_of_mem_eraseIdx hn)
  refine total_define hkept fun V env index hV hindex haxes => .reduceOver haxes fun env tap haxes htap htaps => ?_
  have hlength : (shape.take axis).length = axis := List.length_take_of_le (Nat.le_of_lt haxis)
  have hwhole : (shape.eraseIdx axis).take axis ++ [shape.getD axis 0] ++ (shape.eraseIdx axis).drop axis = shape := by
    rw [List.eraseIdx_eq_take_drop_succ, List.take_left' hlength, List.drop_left' hlength, List.append_assoc,
      List.singleton_append, ← List.getElem_eq_getD (h := haxis), ← List.drop_eq_getElem_cons haxis, List.take_append_drop]
  have hinside := ((hindex.take axis).append htap).append (hindex.drop axis)
  rw [hwhole] at hinside
  exact hV.givesFloat (List.mem_singleton_self x) hx hd (((haxes.take axis).append htaps).append (haxes.drop axis)) hinside

end TensorCompute

/-! ## Graphs -/

omit [FloatOps] in
/-- The extents of an array that has its elements are none of the numbers that wrap around below zero. -/
theorem NDArray.HasShape.nonneg {a : NDArray} (h : a.HasShape (a.shape.map Int64.ofNat)) :
    ∀ n ∈ a.shape.map Int64.ofNat, 0 ≤ n := by
  intro n hn
  obtain ⟨m, hm, rfl⟩ := List.mem_map.mp hn
  have hsame : a.shape.map id = a.shape.map (Int64.toNatClampNeg ∘ Int64.ofNat) := by
    rw [List.map_id, ← List.map_map]
    exact h.shape_eq
  have hback : m = (Int64.ofNat m).toInt.toNat := List.map_inj_left.mp hsame m hm
  rw [Int64.le_iff_toInt_le, Int64.toInt_zero]
  by_contra hneg
  have hzero : m = 0 := by omega
  subst hzero
  exact hneg (Int.le_refl 0)

/-- Whether a step adds what has values at all inputs: a float tensor without negative extents, an array that has its
elements, or an operator other than a convolution, whose windows may lie outside of the image. -/
def BuildStep.IsTotal : BuildStep → Prop
  | input _ dtype shape => dtype.isFloat ∧ ∀ n ∈ shape, 0 ≤ n
  | constant value dtype => dtype.isFloat ∧ value.HasShape (value.shape.map Int64.ofNat)
  | conv2d .. => False
  | _ => True

namespace Graph

variable {inputs : Tensors} {g g' : Graph}

/-- A graph under construction whose sources have arrays of their recorded shapes, and whose operators compute arrays of
theirs. -/
structure Total (inputs : Tensors) (g : Graph) : Prop where
  built : g.Built .real
  extents : ∀ id info, g.tensors.lookup id = some info → ∀ n ∈ info.shape, 0 ≤ n
  sources : ∀ id info, g.tensors.lookup id = some info → info.source ≠ .operator →
    ∃ a, info.source.value? inputs = some a ∧ a.HasShape info.shape
  nodes : ∀ op ∈ g.nodes, ∃ d shape, g.tensors.type? op.output = some (d, shape) ∧
    op.computation.Total g.tensors op.inputs shape

namespace Total

theorem empty : Total inputs {} where
  built := .empty
  extents id info h := by cases h
  sources id info h := by cases h
  nodes op hop := by cases hop

theorem isFloat (h : g.Total inputs) {id : TensorId} {d : DType} {shape : List Int64}
    (htype : g.tensors.type? id = some (d, shape)) : d.isFloat := by
  obtain ⟨source, hlookup⟩ := TensorTable.type?_eq_some_iff.mp htype
  exact h.built.kind id _ hlookup

theorem nonneg (h : g.Total inputs) {id : TensorId} {d : DType} {shape : List Int64}
    (htype : g.tensors.type? id = some (d, shape)) : ∀ n ∈ shape, 0 ≤ n := by
  obtain ⟨source, hlookup⟩ := TensorTable.type?_eq_some_iff.mp htype
  exact h.extents id _ hlookup

theorem nodes_insert (h : g.Total inputs) (info : TensorInfo) {op : Operator} (hop : op ∈ g.nodes) :
    ∃ d shape, TensorTable.type? (g.tensors.insert g.nextId info) op.output = some (d, shape) ∧
      op.computation.Total (g.tensors.insert g.nextId info) op.inputs shape := by
  obtain ⟨d, shape, hrecorded, htotal⟩ := h.nodes op hop
  obtain ⟨houtput, hinputs⟩ := h.built.linked.ne_nextId_of_mem_nodes hop
  exact ⟨d, shape, (type?_insert_of_ne info houtput).trans hrecorded,
    htotal.congr fun id hid => type?_insert_of_ne info (hinputs id hid)⟩

theorem skip (h : g.Total inputs) : Total inputs { g with nextId := g.nextId + 1 } where
  built := ⟨h.built.linked.skip, h.built.sorted, h.built.ordered, h.built.kind, h.built.produced⟩
  extents := h.extents
  sources := h.sources
  nodes := h.nodes

/-- Recording a tensor that has a value. -/
theorem addTensor (h : g.Total inputs) (info : TensorInfo) (hd : info.dtype.isFloat) (hsource : info.source ≠ .operator)
    (hextents : ∀ n ∈ info.shape, 0 ≤ n) (hvalue : ∃ a, info.source.value? inputs = some a ∧ a.HasShape info.shape)
    (ids : List TensorId) :
    Total inputs { g with tensors := g.tensors.insert g.nextId info, nextId := g.nextId + 1, inputs := ids } where
  built := h.built.addTensor info hd hsource ids
  extents := forall_lookup_insert hextents h.extents
  sources := forall_lookup_insert (fun _ => hvalue) h.sources
  nodes _ hop := h.nodes_insert info hop

/-- Appending an operator with a total definition. -/
theorem addNode (h : g.Total inputs) {kind : OpKind} {ids : List TensorId} {c : TensorCompute} {op : Operator} {d : DType}
    {shape : List Int64} (hc : c.Defines .real g.tensors ids kind.fusionClass.level d shape)
    (hextents : ∀ n ∈ shape, 0 ≤ n) (htotal : c.Total g.tensors ids shape)
    (hop : Graph.operator { g with nextId := g.nextId + 1 } kind ids g.nextId c = .ok (op, g')) :
    Total inputs { g' with nodes := g'.nodes ++ [op] } := by
  have hbuilt := h.built.addNode hc hop
  obtain ⟨hinputs, houtput, rfl, hcomputes⟩ := h.built.linked.operator_nextId hc hop
  obtain ⟨_, _, _, _, -, -, -, htask, rfl, -⟩ := operator_eq_ok_iff.mp hop
  obtain ⟨_, -, rfl⟩ := Task.ofCompute_eq_ok_iff.mp htask
  refine ⟨hbuilt, forall_lookup_insert hextents h.extents,
    forall_lookup_insert (fun hne => absurd rfl hne) h.sources, fun old hold => ?_⟩
  rcases List.mem_append.mp hold with hold | hold
  · exact h.nodes_insert _ hold
  · rw [List.mem_singleton.mp hold]
    refine ⟨d, shape, hcomputes.recorded, (htotal.withName _).congr fun id hid => ?_⟩
    obtain ⟨d', shape', htype⟩ := hinputs id hid
    exact type?_insert_of_ne _ (h.built.linked.ne_nextId htype)

theorem after_addOperator (h : g.Total inputs) (kind : OpKind) (ids : List TensorId) (define : String → TensorCompute)
    (hdefine : ∀ d, (define (TensorId.name g.nextId)).value.HasDType d → ∃ d shape,
      (define (TensorId.name g.nextId)).Defines .real g.tensors ids kind.fusionClass.level d shape ∧
        (∀ n ∈ shape, 0 ≤ n) ∧ (define (TensorId.name g.nextId)).Total g.tensors ids shape) :
    Total inputs ((GraphM.addOperator kind ids define).stateAfter g) := by
  rcases GraphM.stateAfter_addOperator kind ids define g with hafter | hafter
  · rw [hafter]
    exact h
  · rw [hafter]
    cases hop : Graph.operator { g with nextId := g.nextId + 1 } kind ids g.nextId (define (TensorId.name g.nextId)) with
    | error e => exact h.skip
    | ok result =>
      obtain ⟨-, d, hd⟩ := Graph.value_of_operator hop
      obtain ⟨d, shape, hc, hextents, htotal⟩ := hdefine d hd
      exact h.addNode hc hextents htotal hop

theorem after_tensor_bind {β : Type} (h : g.Total inputs) {id : TensorId} {f : TensorInfo → GraphM β}
    (hf : ∀ info, g.tensors.type? id = some (info.dtype, info.shape) → Total inputs ((f info).stateAfter g)) :
    Total inputs ((GraphM.tensor id >>= f).stateAfter g) :=
  GraphM.after_tensor_bind h fun info hinfo => hf info (TensorTable.type?_of_lookup (Graph.tensor_eq_ok_iff.mp hinfo))

/-! ### Operators -/

theorem after_unary (h : g.Total inputs) (fn : UnaryFn) (x : TensorId) :
    Total inputs ((GraphM.unary fn x).stateAfter g) := by
  refine h.after_tensor_bind fun info hx => h.after_addOperator _ _ _ fun d hd => ?_
  exact ⟨_, _, TensorCompute.defines_unary (k := .real) fn _ hx (h.isFloat hx) rfl, h.nonneg hx,
    TensorCompute.total_unary fn _ (h.nonneg hx) hx (h.isFloat hx)⟩

theorem after_binary (h : g.Total inputs) (fn : BinaryFn) (a b : TensorId) :
    Total inputs ((GraphM.binary fn a b).stateAfter g) := by
  refine h.after_tensor_bind fun lhs ha => h.after_tensor_bind fun rhs hb => ?_
  refine GraphM.after_ofExcept_bind h fun shape hshape => h.after_addOperator _ _ _ fun d hd => ?_
  rw [broadcastShape_eq_ok_iff] at hshape
  have hextents : ∀ n ∈ shape, 0 ≤ n := forall_mem_broadcastShape? hshape (h.nonneg ha) (h.nonneg hb)
  exact ⟨_, _, TensorCompute.defines_binary (k := .real) fn _ ha hb (h.isFloat ha) (h.isFloat hb) hshape hd, hextents,
    TensorCompute.total_binary fn _ hextents ha hb (h.isFloat ha) (h.isFloat hb) hshape⟩

theorem after_matmul (h : g.Total inputs) (a b : TensorId) : Total inputs ((GraphM.matmul a b).stateAfter g) := by
  refine h.after_tensor_bind fun lhs ha => h.after_tensor_bind fun rhs hb => ?_
  refine GraphM.after_ofExcept_bind h fun _ _ => GraphM.after_ofExcept_bind h fun _ _ => ?_
  split
  · rename_i rows inner inner' columns hleft hright
    split_ifs with hinner
    · exact h
    · rw [not_not] at hinner
      subst hinner
      have hinputA : GraphM.asInput a lhs = .ofShape a.name lhs.dtype [rows, inner] := by rw [GraphM.asInput, hleft]
      have hinputB : GraphM.asInput b rhs = .ofShape b.name rhs.dtype [inner, columns] := by
        rw [GraphM.asInput, hright]
      rw [hleft] at ha
      rw [hright] at hb
      have hextents : ∀ n ∈ [rows, columns], 0 ≤ n := by
        rw [List.forall_mem_cons, List.forall_mem_singleton]
        exact ⟨h.nonneg ha rows (by simp), h.nonneg hb columns (by simp)⟩
      refine h.after_addOperator _ _ _ fun d hd => ?_
      rw [hinputA, hinputB] at hd ⊢
      exact ⟨_, _, TensorCompute.defines_matmul (k := .real) _ ha hb (h.isFloat ha) rfl hd, hextents,
        TensorCompute.total_matmul _ hextents ha hb (h.isFloat ha) (h.isFloat hb)⟩
  · exact h

theorem after_reduceAxis (h : g.Total inputs) (kind : ReduceKind) (x : TensorId) (axis : Nat) :
    Total inputs ((GraphM.reduceAxis kind x axis).stateAfter g) := by
  refine h.after_tensor_bind fun info hx => ?_
  split_ifs with haxis
  · exact h
  · rw [Nat.not_le] at haxis
    refine h.after_addOperator _ _ _ fun d hd => ?_
    exact ⟨_, _, TensorCompute.defines_reduceAxis (k := .real) kind _ hx (h.isFloat hx) haxis rfl,
      fun n hn => h.nonneg hx n (List.mem_of_mem_eraseIdx hn),
      TensorCompute.total_reduceAxis kind _ (h.nonneg hx) hx (h.isFloat hx) haxis⟩

/-- A step that adds what has values keeps a graph total. -/
theorem apply (h : g.Total inputs) {step : BuildStep} (hstep : step.IsTotal)
    (hinput : ∀ name dtype shape, step = .input name dtype shape → ∃ a, inputs.lookup name = some a ∧ a.HasShape shape) :
    Total inputs (step.apply g) := by
  cases step with
  | input name dtype shape =>
    exact h.addTensor ⟨dtype, shape, .input name⟩ hstep.1 (by simp) hstep.2 (hinput name dtype shape rfl)
      (g.inputs ++ [g.nextId])
  | constant value dtype =>
    exact h.addTensor ⟨dtype, value.shape.map Int64.ofNat, .constant value⟩ hstep.1 (by simp) hstep.2.nonneg
      ⟨value, rfl, hstep.2⟩ g.inputs
  | unary fn x => exact h.after_unary fn x
  | binary fn a b => exact h.after_binary fn a b
  | matmul a b => exact h.after_matmul a b
  | conv2d x w stride padding => exact hstep.elim
  | reduceAxis kind x axis => exact h.after_reduceAxis kind x axis
  | output id =>
    change Total inputs (if g.isOutput id then g else { g with outputs := g.outputs ++ [id] })
    split_ifs
    · exact h
    · exact ⟨⟨h.built.linked.withOutputs _, h.built.sorted, h.built.ordered, h.built.kind, h.built.produced⟩,
        h.extents, h.sources, h.nodes⟩

/-! ### Evaluation -/

/-- The sources of a total graph have values. -/
theorem exists_sources (h : g.Total inputs) :
    ∃ S, g.sources inputs = .ok S ∧ g.tensors.Supplies g.IsSource S := by
  have hstep : ∀ entry ∈ g.tensors, ∀ S, True → ∃ S', addSource inputs S entry = .ok S' ∧ True := by
    rintro ⟨id, info⟩ hmem S -
    by_cases hsource : info.source = .operator
    · exact ⟨S, addSource_eq_ok_iff.mpr (Or.inl ⟨hsource, rfl⟩), trivial⟩
    · obtain ⟨a, ha, -⟩ := h.sources id info ((TensorTable.Sorted.lookup_eq_some_iff h.built.sorted).mpr hmem) hsource
      exact ⟨_, addSource_of_value? ha S, trivial⟩
  obtain ⟨S, hS, -⟩ := exists_foldlM hstep trivial
  refine ⟨S, hS, ?_⟩
  rintro id ⟨info, hinfo, hsource⟩ d shape htype
  obtain ⟨a, ha, hshape⟩ := h.sources id info hinfo hsource
  have hmem := (TensorTable.Sorted.lookup_eq_some_iff h.built.sorted).mp hinfo
  obtain ⟨b, hb, hlookup⟩ := (value?_of_foldlM_addSource h.built.sorted hS).1 _ hmem hsource
  cases ha.symm.trans hb
  cases (TensorTable.type?_of_lookup hinfo).symm.trans htype
  exact ⟨a, hlookup, hshape⟩

/-- Operators in order with total definitions have values. -/
theorem exists_foldlM_evalNode {T : TensorTable} {known : TensorId → Prop} {nodes : List Operator} {S : Tensors}
    (hordered : Ordered known nodes)
    (hnodes : ∀ op ∈ nodes, ∃ d shape, T.type? op.output = some (d, shape) ∧ op.computation.Total T op.inputs shape)
    (hS : T.Supplies known S) :
    ∃ V, nodes.foldlM evalNode S = .ok V ∧ T.Supplies (fun id => known id ∨ id ∈ outputsOf nodes) V := by
  induction nodes generalizing known S with
  | nil => exact ⟨S, rfl, by simpa [outputsOf] using hS⟩
  | cons op ops ih =>
    obtain ⟨hreads, -, hrest⟩ := hordered
    obtain ⟨d, shape, hrecorded, htotal⟩ := hnodes op List.mem_cons_self
    obtain ⟨a, ha, hshape⟩ := htotal S fun id hid => hS id (hreads id hid)
    have hnext : T.Supplies (fun id => known id ∨ id = op.output) ((op.output.name, a) :: S) := by
      intro id hid d' shape' htype
      rw [lookup_cons_name]
      split_ifs with hsame
      · subst hsame
        cases hrecorded.symm.trans htype
        exact ⟨a, rfl, hshape⟩
      · exact hS id (hid.resolve_right hsame) d' shape' htype
    obtain ⟨V, hV, hsupplies⟩ := ih hrest (fun op hop => hnodes op (List.mem_cons_of_mem _ hop)) hnext
    refine ⟨V, ?_, ?_⟩
    · rw [List.foldlM_cons, evalNode_eq_ok_iff.mpr ⟨a, ha, rfl⟩]
      exact hV
    · simpa [outputsOf, or_assoc] using hsupplies

/-- A total graph evaluates to arrays of the recorded shapes. -/
theorem exists_evaluate (h : g.Total inputs) (houtputs : ∀ id ∈ g.outputs, ∃ info, g.tensors.lookup id = some info) :
    ∃ outs, g.evaluate inputs = .ok outs ∧
      List.Forall₂ (fun id a => ∃ info, g.tensors.lookup id = some info ∧ a.HasShape info.shape) g.outputs outs := by
  obtain ⟨S, hS, hsources⟩ := h.exists_sources
  obtain ⟨V, hV, hvalues⟩ := exists_foldlM_evalNode h.built.ordered h.nodes hsources
  obtain ⟨outs, houts⟩ := exists_forall₂ (R := fun id a =>
    outputValue V id = .ok a ∧ ∃ info, g.tensors.lookup id = some info ∧ a.HasShape info.shape) fun id hid => by
      obtain ⟨info, hinfo⟩ := houtputs id hid
      have htype := TensorTable.type?_of_lookup hinfo
      obtain ⟨a, ha, hshape⟩ := hvalues id (h.built.isSource_or_mem htype) _ _ htype
      exact ⟨a, outputValue_eq_ok_iff.mpr ha, info, hinfo, hshape⟩
  refine ⟨outs, ?_, houts.imp fun _ _ hout => hout.2⟩
  rw [evaluate, hS, bind_ok, hV, bind_ok]
  exact mapM_eq_ok_iff.mpr (houts.imp fun _ _ hout => hout.1)

end Total

end Graph

end

namespace Graph

end Graph

end TensorCompiler
