import TensorCompiler.Graph.Pass
import TensorCompiler.Proofs.Graph.Fusion

/-! # What optimizing a graph leaves computed

Every pass of the pipeline leaves a graph whose operators compute what the graph records. Folding takes nodes out and
records a value under the type that the tensor has; simplification makes nodes read another tensor of the same type;
fusion and the normal form are dealt with in modules of their own. None of this needs the order of the nodes.
-/

namespace TensorCompiler

/-! ## Rewired definitions -/

namespace Expr

/-- The tensor input `new` in the place of one named `old`. -/
def rewireNode (old : String) (new : TensorInput) : Expr → Expr
  | .tensorInput name dtype shape => if name = old then new.toExpr else .tensorInput name dtype shape
  | other => other

theorem value_rewire (c : TensorCompute) (old : String) (new : TensorInput) :
    (c.rewire old new).value = c.value.mapBottomUp (rewireNode old new) := rfl

theorem rewireNode_eq {e : Expr} (he : ∀ name dtype shape, e ≠ tensorInput name dtype shape) (old : String)
    (new : TensorInput) : rewireNode old new e = e := by
  cases e with
  | tensorInput name dtype shape => exact absurd rfl (he name dtype shape)
  | _ => rfl

variable {k : ElementKind} {reads reads' : DType → String → List Int64 → Prop} {d : DType} {l : Level}
  {scope : List String} {e : Expr} {old new : String} {d₀ : DType} {shape₀ : List Int64}

/-- Coordinates read no tensor. -/
theorem IsCoordinate.mapBottomUp_rewireNode (h : IsCoordinate scope d e) (old : String) (new : TensorInput) :
    e.mapBottomUp (rewireNode old new) = e := by
  induction h with
  | var => exact mapBottomUp_eq _ _
  | const => exact mapBottomUp_eq _ _
  | @binary op _ lhs rhs _ _ ihl ihr =>
    rw [mapBottomUp_eq]
    change Expr.binary op (lhs.mapBottomUp _) (rhs.mapBottomUp _) = _
    rw [ihl, ihr]

theorem rewire_ofShape (extents : List Int64) (old : String) (new : TensorInput) :
    (ofShape extents).map (mapBottomUp (rewireNode old new)) = ofShape extents :=
  mapBottomUp_ofShape (fun _ _ => rfl) extents

theorem rewire_elementAt (name : String) (d : DType) (shape : List Int64) {indices : List Expr}
    (hindices : ∀ i ∈ indices, IsCoordinate scope .int32 i) (new : TensorInput) :
    ((TensorInput.ofShape name d shape).elementAt indices).mapBottomUp (rewireNode old new) =
      if name = old then new.elementAt indices else (TensorInput.ofShape name d shape).elementAt indices := by
  have hkept : indices.map (mapBottomUp (rewireNode old new)) = indices := by
    conv_rhs => rw [← List.map_id indices]
    apply List.map_congr_left
    intro i hi
    exact (hindices i hi).mapBottomUp_rewireNode _ _
  have hbase : (tensorInput name (.known d) (some (ofShape shape))).mapBottomUp (rewireNode old new) =
      rewireNode old new (tensorInput name (.known d) (some (ofShape shape))) := by
    rw [mapBottomUp_eq]
    change rewireNode old _ (tensorInput name (.known d) (some ((ofShape shape).map _))) = _
    rw [rewire_ofShape]
  rw [TensorInput.elementAt, mapBottomUp_eq, rewireNode_eq (by simp [mapChildren])]
  change element ((tensorInput name (.known d) (some (ofShape shape))).mapBottomUp _) (indices.map _) = _
  rw [hbase, hkept, rewireNode]
  split_ifs <;> rfl

/-- A value keeps its form when reads of one tensor become reads of another one of the same type. -/
theorem IsElement.rewire (h : IsElement k reads d l scope e)
    (hother : ∀ d name shape, reads d name shape → name ≠ old → reads' d name shape)
    (hold : ∀ d shape, reads d old shape → d = d₀ ∧ shape = shape₀ ∧ reads' d₀ new shape₀) :
    IsElement k reads' d l scope (e.mapBottomUp (rewireNode old (.ofShape new d₀ shape₀))) := by
  induction h with
  | @read d l scope name shape indices hreads hlength hindices =>
    rw [rewire_elementAt name d shape hindices]
    by_cases hname : name = old
    · subst hname
      obtain ⟨rfl, rfl, hnew⟩ := hold d shape hreads
      rw [if_pos rfl]
      exact .read hnew hlength hindices
    · rw [if_neg hname]
      exact .read (hother d name shape hreads hname) hlength hindices
  | const hv =>
    rw [mapBottomUp_eq]
    exact .const hv
  | neg _ ih =>
    rw [mapBottomUp_eq]
    exact .neg ih
  | binary hc hl _ _ ihl ihr =>
    rw [mapBottomUp_eq]
    exact .binary hc hl ihl ihr
  | call hfunc _ ih =>
    rw [mapBottomUp_eq]
    exact .call hfunc ih
  | callPair hfunc hd' _ _ ihl ihr =>
    rw [mapBottomUp_eq]
    exact .callPair hfunc hd' ihl ihr
  | ite hcond _ _ iht ihe =>
    rw [mapBottomUp_eq]
    refine .ite ?_ iht ihe
    rw [hcond.mapBottomUp_rewireNode]
    exact hcond
  | @reduce _ _ kind extents axes value hextents haxes htypes hlength _ ih =>
    rw [mapBottomUp_eq]
    change IsElement k reads' _ _ _ (Expr.reduce kind ((ofShape extents).map _) axes (value.mapBottomUp _))
    rw [rewire_ofShape]
    exact .reduce kind hextents haxes htypes hlength ih

/-- A tensor other than the replaced one is read as before. -/
theorem IsElement.readsName_rewire (h : IsElement k reads d l scope e) {name : String} (hread : e.ReadsName name)
    (hne : name ≠ old) (new : TensorInput) : (e.mapBottomUp (rewireNode old new)).ReadsName name := by
  refine h.readsName_mapBottomUp (fun e hleaf _ => rewireNode_eq hleaf old new) (fun d shape indices scope _ _ hindices => ?_)
    hread
  rw [rewire_elementAt name d shape hindices, if_neg hne]
  exact readsName_elementAt name d shape indices

/-- Where the replaced tensor was read, the new one is. -/
theorem IsElement.readsName_rewire_old (h : IsElement k reads d l scope e) (hread : e.ReadsName old) (new : String)
    (d₀ : DType) (shape₀ : List Int64) :
    (e.mapBottomUp (rewireNode old (.ofShape new d₀ shape₀))).ReadsName new := by
  refine h.readsName_mapBottomUp (fun e hleaf _ => rewireNode_eq hleaf old _) (fun d shape indices scope _ _ hindices => ?_)
    hread
  rw [rewire_elementAt old d shape hindices, if_pos rfl]
  exact readsName_elementAt new d₀ shape₀ indices

end Expr

namespace Graph

variable {k : ElementKind} {g g' : Graph} {id : TensorId}

/-! ## Edits -/

theorem outputsOf_set {nodes : List Operator} {i : Nat} {op op' : Operator} (hop : nodes[i]? = some op)
    (houtput : op'.output = op.output) : outputsOf (nodes.set i op') = outputsOf nodes := by
  rw [outputsOf, List.map_set, houtput]
  refine List.ext_getElem? fun j => ?_
  rw [List.getElem?_set]
  split_ifs with hij hlt
  · rw [← hij, outputsOf, List.getElem?_map, hop, Option.map_some]
  · rw [← hij]
    exact (List.getElem?_eq_none (Nat.not_lt.mp hlt)).symm
  · rfl

theorem mem_of_mem_removeProducer {op : Operator} (h : op ∈ (g.removeProducer id).nodes) : op ∈ g.nodes := by
  rw [removeProducer] at h
  split at h
  · exact List.mem_of_mem_eraseIdx h
  · exact h

theorem tensors_removeProducer (g : Graph) (id : TensorId) : (g.removeProducer id).tensors = g.tensors := by
  rw [removeProducer]
  split <;> rfl

/-- A tensor becomes a constant under the type that it has. -/
theorem setConstant_eq_ok_iff {value : NDArray} :
    g.setConstant id value = .ok g' ↔ ∃ info, g.tensors.lookup id = some info ∧
      g' = { g.removeProducer id with
        tensors := g.tensors.insert id { info with source := .constant value } } := by
  rw [setConstant, recordConstant, bind_eq_ok_iff, ← tensors_removeProducer g id]
  refine exists_congr fun info => and_congr tensor_eq_ok_iff ?_
  change Except.ok _ = Except.ok g' ↔ _
  rw [Except.ok.injEq, eq_comm]

/-- Turning a tensor into a constant leaves its type. -/
theorem Computed.setConstant (h : g.Computed k) {value : NDArray} (hset : g.setConstant id value = .ok g') :
    g'.Computed k := by
  obtain ⟨info, hinfo, rfl⟩ := setConstant_eq_ok_iff.mp hset
  intro op hop
  obtain ⟨d, shape, hcomputes⟩ := h op (mem_of_mem_removeProducer hop)
  have hconstant : g.tensors.type? id = some (info.dtype, info.shape) := TensorTable.type?_of_lookup hinfo
  let constant : TensorInfo := { info with source := .constant value }
  have htypes : ∀ x, TensorTable.type? (g.tensors.insert id constant) x = g.tensors.type? x :=
    TensorTable.type?_insert hconstant
  exact ⟨d, shape, hcomputes.congr (fun x _ => htypes x) (htypes _)⟩

/-- The inputs of an operator that reads `new` in the place of `old`. -/
def rewiredInputs (op : Operator) (old new : TensorId) : List TensorId :=
  firstOccurrences (op.inputs.map fun id => if id = old then new else id)

/-- A definition that reads another tensor of the same type in the place of one of its inputs. -/
theorem defines_rewire {op : Operator} {d d' : DType} {shape shape' : List Int64} {old new : TensorId}
    (h : op.Computes k g.tensors d shape) (hold : g.tensors.type? old = some (d', shape'))
    (hnew : g.tensors.type? new = some (d', shape')) :
    (op.computation.rewire old.name (.ofShape new.name d' shape')).Defines k g.tensors (rewiredInputs op old new)
      op.fusionClass.level d shape := by
  have hc := h.defines
  refine ⟨hc.kind, hc.shape_eq, hc.rank, hc.axes, hc.types, hc.nodup, ?_, fun id hid => ?_⟩
  · rw [Expr.value_rewire]
    refine hc.value.rewire ?_ ?_
    · rintro d name shape ⟨id, hid, rfl, htype⟩ hne
      refine ⟨id, mem_firstOccurrences.mpr (List.mem_map.mpr ⟨id, hid, if_neg ?_⟩), rfl, htype⟩
      rintro rfl
      exact hne rfl
    · rintro d shape ⟨id, hid, hname, htype⟩
      obtain rfl := TensorId.name_injective hname
      cases hold.symm.trans htype
      exact ⟨rfl, rfl, new, mem_firstOccurrences.mpr (List.mem_map.mpr ⟨_, hid, if_pos rfl⟩), rfl, hnew⟩
  · rw [Expr.value_rewire]
    obtain ⟨x, hx, rfl⟩ := List.mem_map.mp (mem_firstOccurrences.mp hid)
    split_ifs with hsame
    · subst hsame
      exact hc.value.readsName_rewire_old (hc.reads x hx) new.name d' shape'
    · exact hc.value.readsName_rewire (hc.reads x hx) (fun hname => hsame (TensorId.name_injective hname)) _

/-- Making a node read another tensor of the same type puts an operator in its place that computes the same tensor. -/
theorem exists_replaceInput (h : g.Computed k) {index : Nat} {op : Operator} {old new : TensorId} {d : DType}
    {shape : List Int64} (hop : g.nodes[index]? = some op) (hold : g.tensors.type? old = some (d, shape))
    (hnew : g.tensors.type? new = some (d, shape)) :
    ∃ rebuilt d' shape', g.tensors.type? op.output = some (d', shape') ∧ rebuilt.output = op.output ∧
      rebuilt.inputs = rewiredInputs op old new ∧
      rebuilt.computation = { op.computation.rewire old.name (.ofShape new.name d shape) with name := op.output.name } ∧
      rebuilt.Computes k g.tensors d' shape' ∧
      g.replaceInput index old new = .ok { g with
        tensors := g.tensors.insert op.output ⟨d', shape', .operator⟩
        nodes := g.nodes.set index rebuilt } := by
  obtain ⟨d', shape', hcomputes⟩ := h op (List.mem_of_getElem? hop)
  have hdefines := defines_rewire hcomputes hold hnew
  obtain ⟨rebuilt, g', hrebuilt⟩ : ∃ rebuilt g', g.operator op.kind (rewiredInputs op old new) op.output
      (op.computation.rewire old.name (.ofShape new.name d shape)) = .ok (rebuilt, g') := by
    refine exists_operator hdefines (fun id hid => ?_) op.output
    obtain ⟨x, hx, rfl⟩ := List.mem_map.mp (mem_firstOccurrences.mp hid)
    split_ifs
    · exact ⟨d, shape, hnew⟩
    · exact hcomputes.exists_type_of_mem_inputs hx
  obtain ⟨-, hinputs, houtput, hcomputation, rfl, hrebuilt'⟩ :=
    computes_of_operator hdefines (fun id _ hid => hid ▸ hcomputes.recorded) hrebuilt
  have htypes (x : TensorId) :
      TensorTable.type? (g.tensors.insert op.output ⟨d', shape', .operator⟩) x = g.tensors.type? x :=
    TensorTable.type?_insert hcomputes.recorded x
  refine ⟨rebuilt, d', shape', hcomputes.recorded, houtput, hinputs, hcomputation,
    hrebuilt'.congr (fun x _ => (htypes x).symm) (htypes _).symm, ?_⟩
  obtain ⟨before, hbefore⟩ := TensorTable.type?_eq_some_iff.mp hold
  obtain ⟨after, hafter⟩ := TensorTable.type?_eq_some_iff.mp hnew
  have hsame : TensorInfo.sameType ⟨d, shape, before⟩ ⟨d, shape, after⟩ = true := by simp [TensorInfo.sameType]
  have harg : g.tensorInput new = .ok (.ofShape new.name d shape) := tensorInput_eq_ok_iff.mpr ⟨d, shape, hnew, rfl⟩
  rw [Graph.replaceInput, hop]
  simp only [tensor_eq_ok_iff.mpr hbefore, tensor_eq_ok_iff.mpr hafter, bind_ok, hsame, if_true, harg]
  change (g.operator op.kind (rewiredInputs op old new) op.output _ >>= _) = _
  rw [hrebuilt]
  rfl

/-- Making a node read another tensor changes nothing if there is no such node; otherwise the two have one type. -/
theorem replaceInput_cases {index : Nat} {old new : TensorId} (hreplace : g.replaceInput index old new = .ok g') :
    g' = g ∨ ∃ op d shape, g.nodes[index]? = some op ∧ g.tensors.type? old = some (d, shape) ∧
      g.tensors.type? new = some (d, shape) := by
  rw [Graph.replaceInput] at hreplace
  split at hreplace
  · cases hreplace
    exact Or.inl rfl
  · rename_i op hop
    obtain ⟨before, hbefore, hrest⟩ := bind_eq_ok_iff.mp hreplace
    obtain ⟨after, hafter, hrest⟩ := bind_eq_ok_iff.mp hrest
    split at hrest
    · rename_i hsame
      simp only [TensorInfo.sameType, Bool.and_eq_true, beq_iff_eq] at hsame
      have hold := TensorTable.type?_of_lookup (tensor_eq_ok_iff.mp hbefore)
      rw [hsame.1, hsame.2] at hold
      exact Or.inr ⟨op, _, _, hop, hold, TensorTable.type?_of_lookup (tensor_eq_ok_iff.mp hafter)⟩
    · cases hrest

/-- Making a node read another tensor of the same type leaves what it computes. -/
theorem Computed.replaceInput (h : g.Computed k) {index : Nat} {old new : TensorId}
    (hreplace : g.replaceInput index old new = .ok g') : g'.Computed k := by
  rcases replaceInput_cases hreplace with rfl | ⟨op, _, _, hop, hold, hnew⟩
  · exact h
  obtain ⟨rebuilt, d, shape, hrecorded, -, -, -, hrebuilt, hreplace'⟩ := exists_replaceInput h hop hold hnew
  cases hreplace'.symm.trans hreplace
  intro other hother
  have htypes (x : TensorId) :
      TensorTable.type? (g.tensors.insert op.output ⟨d, shape, .operator⟩) x = g.tensors.type? x :=
    TensorTable.type?_insert hrecorded x
  obtain ⟨d', shape', hcomputes⟩ : ∃ d' shape', other.Computes k g.tensors d' shape' := by
    rcases List.mem_or_eq_of_mem_set hother with hother | rfl
    · exact h other hother
    · exact ⟨d, shape, hrebuilt⟩
  exact ⟨d', shape', hcomputes.congr (fun x _ => htypes x) (htypes _)⟩

/-! ## Runs -/

section

variable [FloatOps] {passes : List GraphPass}

theorem runSteps_cons_eq_ok_iff {pass : GraphPass} {steps : List (GraphPass × Graph)} :
    PassRun.runSteps g (pass :: passes) = .ok (steps, g') ↔
      ∃ after rest, pass.run g = .ok after ∧ PassRun.runSteps after passes = .ok (rest, g') ∧
        steps = (pass, after) :: rest := by
  rw [PassRun.runSteps, bind_eq_ok_iff]
  constructor
  · rintro ⟨after, hafter, hrest⟩
    obtain ⟨⟨rest, last⟩, hsteps, hresult⟩ := bind_eq_ok_iff.mp hrest
    cases hresult
    exact ⟨after, rest, hafter, hsteps, rfl⟩
  · rintro ⟨after, rest, hafter, hsteps, rfl⟩
    exact ⟨after, hafter, bind_eq_ok_iff.mpr ⟨(rest, g'), hsteps, rfl⟩⟩

theorem run_eq_ok_iff {run : PassRun} :
    PassRun.run passes g = .ok run ↔ g.normalize = .ok run.start ∧
      ∃ last, PassRun.runSteps run.start passes = .ok (run.steps, last) ∧ last.normalize = .ok run.result := by
  rw [PassRun.run, bind_eq_ok_iff]
  constructor
  · rintro ⟨start, hstart, hrest⟩
    obtain ⟨⟨steps, last⟩, hsteps, hrest⟩ := bind_eq_ok_iff.mp hrest
    obtain ⟨result, hnormal, hresult⟩ := bind_eq_ok_iff.mp hrest
    cases hresult
    exact ⟨hstart, last, hsteps, hnormal⟩
  · rintro ⟨hstart, last, hsteps, hnormal⟩
    exact ⟨run.start, hstart, bind_eq_ok_iff.mpr ⟨(run.steps, last), hsteps,
      bind_eq_ok_iff.mpr ⟨run.result, hnormal, rfl⟩⟩⟩

theorem optimize_eq_ok_iff :
    g.optimize = .ok g' ↔ ∃ run, PassRun.run GraphPass.pipeline g = .ok run ∧ run.result = g' := by
  rw [Graph.optimize, bind_eq_ok_iff]
  refine exists_congr fun run => and_congr_right fun _ => ?_
  change Except.ok _ = Except.ok g' ↔ _
  rw [Except.ok.injEq]

end

/-! ## What edits keep, passes keep -/

/-- Rewiring a node keeps what each replacement of an input keeps. -/
theorem rewireNode_keeps {P : Graph → Prop} {map : Replacements} {index : Nat}
    (hreplace : ∀ {g g' index old}, P g → g.replaceInput index old (resolve map old) = .ok g' → P g') (h : P g)
    (hrewire : g.rewireNode map index = .ok g') : P g' := by
  rw [Graph.rewireNode] at hrewire
  split at hrewire
  · cases hrewire
    exact h
  · refine foldlM_keeps (fun old _ g g' hg hstep => ?_) h hrewire
    simp only at hstep
    split_ifs at hstep
    · cases hstep
      exact hg
    · exact hreplace hg hstep

/-- Whether the edits that take a node out, and the normal form, keep a property of graphs. -/
structure KeptByRemovals (P : Graph → Prop) : Prop where
  setConstant : ∀ {g g' id value}, P g → g.setConstant id value = .ok g' → P g'
  fuse : ∀ {g g' pair producer consumer}, P g → g.Mergeable pair producer consumer → g.fuse pair = .ok g' → P g'
  normalize : ∀ {g g'}, P g → g.normalize = .ok g' → P g'

namespace KeptByRemovals

variable {P : Graph → Prop} (hP : KeptByRemovals P)

include hP

theorem fuseSteps {rule : FusionRule} (hrule : rule.Sound) {fuel : Nat} {changed changed' : Bool} (h : P g)
    (hfuse : g.fuseSteps rule fuel changed = .ok (changed', g')) : P g' := by
  induction fuel generalizing g changed with
  | zero =>
    cases hfuse
    exact h
  | succ fuel ih =>
    rw [Graph.fuseSteps] at hfuse
    split at hfuse
    · cases hfuse
      exact h
    · rename_i pair hpair
      obtain ⟨producer, consumer, hmergeable, -⟩ := exists_mergeable hrule hpair
      obtain ⟨next, hnext, hrest⟩ := bind_eq_ok_iff.mp hfuse
      exact ih (hP.fuse h hmergeable hnext) hrest

theorem fuseAll {rule : FusionRule} (hrule : rule.Sound) (h : P g) (hfuse : g.fuseAll rule = .ok g') : P g' := by
  obtain ⟨⟨changed, fused⟩, hsteps, hrest⟩ := bind_eq_ok_iff.mp hfuse
  have hfused := hP.fuseSteps hrule h hsteps
  cases changed with
  | false =>
    cases hrest
    exact hfused
  | true => exact hP.normalize hfused hrest

variable [FloatOps]

theorem foldSteps {fuel : Nat} {setAside : List TensorId} {changed changed' : Bool} (h : P g)
    (hfold : g.foldSteps fuel setAside changed = .ok (changed', g')) : P g' := by
  induction fuel generalizing g setAside changed with
  | zero =>
    cases hfold
    exact h
  | succ fuel ih =>
    rw [Graph.foldSteps] at hfold
    obtain ⟨found, -, hrest⟩ := bind_eq_ok_iff.mp hfold
    cases found with
    | none =>
      cases hrest
      exact h
    | some op =>
      simp only at hrest
      split at hrest
      · exact ih h hrest
      · obtain ⟨next, hnext, hrest⟩ := bind_eq_ok_iff.mp hrest
        exact ih (hP.setConstant h hnext) hrest

theorem foldConstants (h : P g) (hfold : g.foldConstants = .ok g') : P g' := by
  obtain ⟨⟨changed, folded⟩, hsteps, hrest⟩ := bind_eq_ok_iff.mp hfold
  have hfolded := hP.foldSteps h hsteps
  cases changed with
  | false =>
    cases hrest
    exact hfolded
  | true => exact hP.normalize hfolded hrest

theorem simplifyAlgebra (h : P g)
    (hreplace : ∀ map, g.replacements = .ok map →
      ∀ {g g' index old}, P g → g.replaceInput index old (resolve map old) = .ok g' → P g')
    (hsimplify : g.simplifyAlgebra = .ok g') : P g' := by
  obtain ⟨map, hmap, hrest⟩ := bind_eq_ok_iff.mp hsimplify
  split_ifs at hrest
  · cases hrest
    exact h
  · obtain ⟨rewired, hrewired, hnormal⟩ := bind_eq_ok_iff.mp hrest
    have hkept : P rewired :=
      foldlM_keeps (fun index _ g g' hg hstep => rewireNode_keeps (hreplace map hmap) hg hstep) h hrewired
    exact hP.normalize hkept hnormal

/-- A pass keeps what such edits keep, if the simplification does not spoil it by making nodes read replacements. -/
theorem runPass {pass : GraphPass} (h : P g)
    (hreplace : ∀ map, g.replacements = .ok map →
      ∀ {g g' index old}, P g → g.replaceInput index old (resolve map old) = .ok g' → P g')
    (hrun : pass.run g = .ok g') : P g' := by
  cases pass with
  | constFold => exact hP.foldConstants h hrun
  | patternTransform => exact hP.simplifyAlgebra h hreplace hrun
  | fuseUnary => exact hP.fuseAll FusionRule.unary_sound h hrun
  | fuseEpilogue => exact hP.fuseAll FusionRule.epilogue_sound h hrun
  | fusePrologue => exact hP.fuseAll FusionRule.prologue_sound h hrun

end KeptByRemovals

/-- Whether every edit that a pass makes keeps a property of graphs. -/
structure KeptByEdits (P : Graph → Prop) : Prop where
  setConstant : ∀ {g g' id value}, P g → g.setConstant id value = .ok g' → P g'
  replaceInput : ∀ {g g' index old new}, P g → g.replaceInput index old new = .ok g' → P g'
  fuse : ∀ {g g' pair producer consumer}, P g → g.Mergeable pair producer consumer → g.fuse pair = .ok g' → P g'
  normalize : ∀ {g g'}, P g → g.normalize = .ok g' → P g'

namespace KeptByEdits

variable {P : Graph → Prop} (hP : KeptByEdits P)

include hP

theorem removals : KeptByRemovals P :=
  ⟨hP.setConstant, hP.fuse, hP.normalize⟩

variable [FloatOps]

/-- A pass keeps what every edit keeps. -/
theorem runPass {pass : GraphPass} (h : P g) (hrun : pass.run g = .ok g') : P g' :=
  hP.removals.runPass h (fun _ _ => hP.replaceInput) hrun

theorem runSteps {passes : List GraphPass} {steps : List (GraphPass × Graph)} (h : P g)
    (hrun : PassRun.runSteps g passes = .ok (steps, g')) : P g' := by
  induction passes generalizing g steps with
  | nil =>
    cases hrun
    exact h
  | cons pass passes ih =>
    obtain ⟨after, rest, hafter, hsteps, -⟩ := runSteps_cons_eq_ok_iff.mp hrun
    exact ih (hP.runPass h hafter) hsteps

/-- Optimizing a graph keeps what every edit keeps. -/
theorem optimize (h : P g) (hoptimize : g.optimize = .ok g') : P g' := by
  obtain ⟨run, hrun, rfl⟩ := optimize_eq_ok_iff.mp hoptimize
  obtain ⟨hstart, last, hsteps, hnormal⟩ := run_eq_ok_iff.mp hrun
  have hlast := hP.runSteps (hP.normalize h hstart) hsteps
  exact hP.normalize hlast hnormal

end KeptByEdits

end Graph

end TensorCompiler
