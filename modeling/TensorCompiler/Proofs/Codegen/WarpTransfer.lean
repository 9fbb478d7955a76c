import TensorCompiler.Codegen.WarpTransfer
import TensorCompiler.Proofs.Codegen.RegisterTile
import TensorCompiler.Proofs.Kernel.Launch
import TensorCompiler.Proofs.Task.Match

/-! # The warp transfer loads the tile

The function that copies a tile from shared memory into registers stores every register of a lane once, with the element
of the tile that the layout gives it. What matching says of the task is needed for one thing only: the tile in shared
memory has the element type that the code is made for, so that its elements are read at that type.
-/

namespace TensorCompiler.WarpTransfer

/-! ## The element type of the tile -/

section

open MatchM

variable {task : Task} {b b' : Binding} {P Q : Binding → Prop}

/-- What a step establishes that does not depend on its start, the next step establishes too. -/
theorem establishes_seq_right {m m' : MatchM Unit} (h : m.Establishes b P) (h' : ∀ c, m'.Establishes c Q) :
    (m >>= fun _ => m').Establishes b Q :=
  (h.seq fun c _ _ => h' c).imp fun _ hc => hc.2

/-- What a step establishes, later steps keep. -/
theorem establishes_seq_left {m m' : MatchM Unit} (h : m.Establishes b P) (h' : ∀ c, m'.Establishes c fun _ => True) :
    (m >>= fun _ => m').Establishes b P :=
  (h.seq fun c _ _ => h' c).imp fun _ hc => hc.1

theorem establishes_matchVar_true (v w : Var) : (matchVar v w).Establishes b fun _ => True := by
  intro b' hrun
  unfold matchVar at hrun
  rw [StateT.run_bind, StateT.run_get, pure_bind] at hrun
  split at hrun
  · exact establishes_check (fun _ _ => trivial) b' hrun
  · exact establishes_check (fun _ _ => trivial) b' hrun

/-- Steps for two expressions, if there are two. -/
theorem establishes_matchExprs_pair {p p' : Expr} {A A' : Expr → Prop} (ts : List Expr)
    (h : ∀ b t, (matchExpr p t).Establishes b fun _ => A t) (h' : ∀ b t, (matchExpr p' t).Establishes b fun _ => A' t) :
    (matchExprs [p, p'] ts).Establishes b fun _ => ∃ t t', ts = [t, t'] ∧ A t ∧ A' t' := by
  refine establishes_matchExprs fun hlength => ?_
  match ts, hlength with
  | [t, t'], _ =>
    rw [matchEach, matchEach, matchEach_nil]
    refine ((h b t).seq fun c _ _ => establishes_seq_left (h' c t') fun _ => establishes_pure fun _ => trivial).imp ?_
    exact fun _ hpair => ⟨t, t', rfl, hpair⟩

theorem establishes_holes (hole hole' : Hole) (b : Binding) (ts : List Expr) :
    (matchExprs [.any hole, .any hole'] ts).Establishes b fun _ => True := by
  have hany (hole : Hole) (b : Binding) (t : Expr) : (matchExpr (.any hole) t).Establishes b fun _ => True := by
    rw [matchExpr]
    exact (establishes_bindExpr hole t).imp fun _ _ => trivial
  exact (establishes_matchExprs_pair ts (hany hole) (hany hole')).imp fun _ _ => trivial

/-- Matching the definition says that it reads an element of an input, and leaves no parameter behind. -/
theorem establishes_copy (b : Binding) (c : TensorCompute) :
    (matchExpr copy.toExpr c.toExpr).Establishes b fun found => ∃ name dtype shape v w,
      c.value = .element (.tensorInput name dtype shape) [.var v, .var w] ∧
        StandsFor (found.node? source.name) (.tensorInput name dtype shape) ∧
          StandsFor (found.node? copy.name) c.toExpr := by
  have hvar (v : Var) (b : Binding) (t : Expr) : (matchExpr (.var v) t).Establishes b fun _ => ∃ w, t = .var w := by
    cases t with
    | var w =>
      rw [matchExpr]
      exact (establishes_matchVar_true v w).imp fun _ _ => ⟨w, rfl⟩
    | _ => exact establishes_of_eq_throw (by simp only [matchExpr])
  have hsource (b : Binding) (t : Expr) : (matchExpr source.toExpr t).Establishes b fun found =>
      ∃ name dtype shape, t = .tensorInput name dtype shape ∧ StandsFor (found.node? source.name) t := by
    rw [TensorInput.toExpr]
    cases t with
    | tensorInput name dtype shape =>
      rw [matchExpr, source, matchShape]
      exact establishes_seq_right (establishes_matchDType _ _) fun c =>
        establishes_seq_right (establishes_pure (P := fun _ => True) fun _ => trivial) fun d =>
          (establishes_bindNode _ _).imp fun _ hnode => ⟨name, dtype, shape, rfl, hnode⟩
    | _ => exact establishes_of_eq_throw (by simp only [matchExpr])
  have hvalue (b : Binding) (t : Expr) : (matchExpr copy.value t).Establishes b fun found => ∃ name dtype shape v w,
      t = .element (.tensorInput name dtype shape) [.var v, .var w] ∧
        StandsFor (found.node? source.name) (.tensorInput name dtype shape) := by
    rw [copy, TensorInput.elementAt]
    cases t with
    | element base indices =>
      rw [matchExpr]
      refine ((hsource b base).seq fun c _ _ => establishes_matchExprs_pair indices (hvar _) (hvar _)).imp ?_
      rintro found ⟨⟨name, dtype, shape, rfl, hnode⟩, _, _, rfl, ⟨v, rfl⟩, ⟨w, rfl⟩⟩
      exact ⟨name, dtype, shape, v, w, rfl, hnode⟩
    | _ => exact establishes_of_eq_throw (by simp only [matchExpr])
  rw [TensorCompute.toExpr, TensorCompute.toExpr, matchExpr]
  refine establishes_seq_right (establishes_holes 0 1 b c.shape) fun _ =>
    establishes_seq_right (establishes_matchAxes copy.axes c.axes) fun d =>
      ((hvalue d c.value).seq fun _ _ _ => establishes_bindNode _ _).imp ?_
  rintro found ⟨⟨name, dtype, shape, v, w, heq, hsource⟩, hcopy⟩
  exact ⟨name, dtype, shape, v, w, heq, hsource, hcopy⟩

theorem establishes_strideHoles (type : TensorType) (b : Binding) : (match type.effectiveStrides? with
    | none => throw .form
    | some actual => matchExprs strideHoles actual : MatchM Unit).Establishes b fun _ => True := by
  split
  · exact establishes_throw _
  · exact establishes_holes 2 3 b _

/-- The templates of the pattern are met by tensors of a known element type. -/
theorem establishes_template {scope : Slot MemoryScope} {dtype : ScalarType} {strides : Option (List Expr)}
    (hstrides : strides = none ∨ strides = some strideHoles) (b : Binding) (type : Ty) :
    (matchTy (.tensor ⟨scope, dtype, none, strides⟩) type).Establishes b fun c =>
      ∃ tensor d, type = .tensor tensor ∧ tensor.dtype = .known d ∧ c.dtype? dtype = some d := by
  cases type with
  | tensor tensor =>
    have hdtype (c : Binding) : (matchDType dtype tensor.dtype).Establishes c fun c =>
        ∃ t d, Ty.tensor tensor = .tensor t ∧ t.dtype = .known d ∧ c.dtype? dtype = some d := by
      refine (establishes_matchDType _ _).imp fun c hc => ?_
      obtain ⟨d, hd, htensor⟩ := hc
      exact ⟨tensor, d, rfl, htensor, hd⟩
    have hshape (c : Binding) : (pure () : MatchM Unit).Establishes c fun _ => True := establishes_pure fun _ => trivial
    rw [matchTy]
    rcases hstrides with rfl | rfl
    · rw [matchTensorType, matchShape]
      exact establishes_seq_right (establishes_matchScope _ _) fun c => establishes_seq_left (hdtype c) fun d =>
        establishes_seq_right (hshape d) hshape
    · rw [matchTensorType, matchShape]
      exact establishes_seq_right (establishes_matchScope _ _) fun c => establishes_seq_left (hdtype c) fun d =>
        establishes_seq_right (hshape d) (establishes_strideHoles tensor)
  | _ => exact establishes_of_eq_throw (by simp only [matchTy])

/-- Whether a parameter of a task is the node that a placeholder stands for. -/
def IsParam (task : Task) (index : Nat) (node : Expr) : Prop :=
  ∃ given bound, task.params[index]? = some given ∧ given.same bound ∧ (bound = node ∨ bound.same node)

/-- What a match with the pattern says of a task. It copies an input, which is one of its parameters; the copy is another
one; both are tensors of the element types that the binding gives them, and no other parameter is a tensor. -/
structure Copies (task : Task) (b : Binding) (i j : Nat) : Prop where
  params : b.params = [i, j]
  source : ∃ name dtype shape v w, task.computation.value = .element (.tensorInput name dtype shape) [.var v, .var w] ∧
    IsParam task i (.tensorInput name dtype shape)
  copy : IsParam task j task.computation.toExpr
  shared : ∃ tensor d, task.paramTypes[i]? = some (.tensor tensor) ∧ tensor.dtype = .known d ∧
    b.dtype? sharedType = some d
  registers : ∃ tensor d, task.paramTypes[j]? = some (.tensor tensor) ∧ tensor.dtype = .known d ∧
    b.dtype? registerType = some d
  tensors : ∀ index type, task.paramTypes[index]? = some type → type.isTensorLike → index = i ∨ index = j

theorem exists_copies_of_matchTask (h : matchTask pattern task = .ok b) : ∃ i j, Copies task b i j := by
  unfold matchTask at h
  split_ifs at h
  dsimp only at h
  generalize hrun : (StateT.run _ {} : Except Mismatch (Unit × Binding)) = result at h
  cases result with
  | error e => cases h
  | ok r =>
    obtain ⟨⟨⟩, found⟩ := r
    have h : (if !pattern.allowExtraTensors && task.hasOtherTensors found.params then .error .extraParam else .ok found) =
        (.ok b : Except Mismatch Binding) := h
    split_ifs at h with hextra
    cases h
    obtain ⟨matched, hmatch, hrun⟩ := exists_of_run_bind hrun
    obtain ⟨first, hfirst, hrun⟩ := exists_of_run_bind hrun
    obtain ⟨second, hsecond, hrun⟩ := exists_of_run_bind hrun
    cases hrun
    obtain ⟨-, hnone, hcopy⟩ := establishes_copy {} task.computation matched hmatch
    obtain ⟨_, node, i, given, type, extended, hname, hnode, hgiven, hsame, htype, htemplate, rfl⟩ := matchParam_inv hfirst
    cases hname
    obtain ⟨_, node', j, given', type', extended', hname', hnode', hgiven', hsame', htype', htemplate', rfl⟩ :=
      matchParam_inv hsecond
    cases hname'
    obtain ⟨hfirst, hparams, hshared⟩ := establishes_template (.inr rfl) matched type extended htemplate
    obtain ⟨hsecond, hparams', hregisters⟩ := establishes_template (.inl rfl) _ _ extended' htemplate'
    have hlast := hsecond.trans (extended'.extends_params (extended'.params ++ [j]))
    have hall : extended'.params ++ [j] = [i, j] := by
      rw [hparams', hparams, hnone]
      rfl
    -- the nodes that the parameters are compared with
    obtain ⟨name, dtype, shape, v, w, hvalue, ⟨bound, hbound, heq⟩, hcompute⟩ := hcopy matched (.refl _)
    obtain rfl := Option.some.inj (hnode.symm.trans hbound)
    have hextended := hfirst.trans (extended.extends_params (extended.params ++ [i]))
    obtain ⟨bound', hbound', heq'⟩ := hcompute
    obtain rfl := Option.some.inj (hnode'.symm.trans (hextended.nodes _ _ hbound'))
    obtain ⟨tensor, d, rfl, hd, hdtype⟩ := hshared extended (.refl _)
    obtain ⟨tensor', d', rfl, hd', hdtype'⟩ := hregisters extended' (.refl _)
    refine ⟨i, j, hall, ⟨name, dtype, shape, v, w, hvalue, given, node, hgiven, hsame, heq⟩,
      ⟨given', node', hgiven', hsame', heq'⟩, ⟨tensor, d, htype, hd, ?_⟩, ⟨tensor', d', htype', hd', ?_⟩, ?_⟩
    · exact ((extended.extends_params _).trans hlast).dtypes _ _ hdtype
    · exact hdtype'
    · intro index type hindex htensor
      have hothers : task.hasOtherTensors [i, j] = false := by
        rw [← hall]
        simpa [pattern] using hextra
      by_contra hmem
      have hpair : (type, index) ∈ task.paramTypes.zipIdx := List.mk_mem_zipIdx_iff_getElem?.mpr hindex
      exact List.any_eq_false.mp hothers (type, index) hpair (by simpa [htensor] using hmem)

end

/-! ## The transfer of a binding -/

/-- What a binding that gives a transfer says. -/
theorem Transfer.ofBinding_eq_ok {b : Binding} {t : Transfer} (h : Transfer.ofBinding b = .ok t) :
    shapeHoles.mapM b.int? = some t.shape ∧ b.tile? registers = some t.tile ∧ t.tile.isValid ∧
      t.tile.globalShape = t.shape ∧ b.dtype? sharedType = some t.shared ∧ b.dtype? registerType = some t.register := by
  unfold Transfer.ofBinding at h
  dsimp only at h
  split at h
  · cases h
  · cases h
  · rename_i shape tile hshape htile
    split_ifs at h with hvalid hcovers
    split at h
    · rename_i shared register hshared hregister
      cases h
      exact ⟨hshape, htile, by simpa using hvalid, by simpa using hcovers, hshared, hregister⟩
    · cases h

/-- The tile in shared memory has the type of the parameter that is copied. -/
theorem Copies.sharedTileType_eq {task : Task} {b : Binding} {i j : Nat} (h : Copies task b i j) {type : Ty}
    (htype : task.paramTypes[i]? = some type) (t : Transfer) : sharedTileType task b t = type := by
  have hindex : b.param? 0 = some i := by
    rw [Binding.param?, h.params]
    rfl
  rw [sharedTileType, hindex, Option.bind_some, htype, Option.getD_some]

section

variable [FloatOps] {blockDim : UInt32} {thread : Thread} {t : Transfer} {shared registers : Var}
  {s : State Place Buffers} {number : Nat}

/-- Where the variables of the function are when a lane loads its registers. -/
structure Ready (blockDim : UInt32) (thread : Thread) (shared registers : Var) (number : Nat) (s : State Place Buffers) :
    Prop where
  tile : s.vars.lookup shared.name = some (.address (shared.name, []))
  registers : s.vars.lookup registers.name = some (.address (registers.name, []))
  lane : Expr.RunsToNat (thread.machine blockDim) s.memory s.vars (.var lane) number

end

/-- Two rows of registers over a grid of 32 lanes. -/
def rowsTile : RegisterTile := ⟨[2, 1], .cyclic [4, 8]⟩

/-- The transfer of a tile of eight by eight elements. -/
def rowsTask : Task :=
  let input := Expr.tensorInput "in" (.known .float32) (some [.int 8, .int 8])
  let axes := [Var.int "i0", Var.int "i1"]
  let output : TensorCompute := ⟨"out", [.int 8, .int 8], axes, .element input (axes.map .var)⟩
  { name := "s2r"
    computation := output
    params := [input, output.toExpr]
    paramTypes :=
      [.tensor (.ofShape .shared .float32 [8, 8]),
        .tensor (.ofShape (.register (.known rowsTile)) .float32 rowsTile.localShape)]
    worker := .warp }

/-- What the pattern stands for in `rowsTask`. -/
def rowsBinding : Binding :=
  { exprs := [(3, .int 1), (2, .int 8), (1, .int 8), (0, .int 8)]
    dtypes := [(6, .float32), (5, .float32), (4, .float32)]
    tiles := [(7, rowsTile)]
    nodes := [("out", rowsTask.computation.toExpr), ("in", .tensorInput "in" (.known .float32) (some [.int 8, .int 8]))]
    vars := [("j", .int "i1"), ("i", .int "i0")]
    params := [0, 1] }

theorem matchTask_rows : matchTask pattern rowsTask = .ok rowsBinding := by
  cbv
  rw [matchEach_nil]
  cbv
  rw [matchEach_nil]
  cbv
  rw [matchEach_nil]
  cbv

theorem exists_implement_rows : ∃ m, implementer.implement rowsTask rowsBinding = .ok m := by
  have htransfer : Transfer.ofBinding rowsBinding = .ok ⟨[8, 8], rowsTile, .float32, .float32⟩ := by
    unfold Transfer.ofBinding
    cbv
  refine ⟨_, bind_eq_ok_iff.mpr ⟨_, bind_eq_ok_iff.mpr ⟨_, htransfer, rfl⟩, rfl⟩⟩

end TensorCompiler.WarpTransfer
