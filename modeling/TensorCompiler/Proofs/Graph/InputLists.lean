import TensorCompiler.Proofs.Graph.Edges
import TensorCompiler.Proofs.Graph.Pipeline

/-! # The lists of inputs

An operator lists each tensor that it reads once, but for a convolution of a tensor with itself, which lists it twice.
An edit that rewires or merges operators lists what they read anew and once.

The tensors that an operator reads have smaller numbers than the one that it computes. Steps number tensors upward, and
a pass puts what lies further back in the place of what an operator reads, so this holds however a graph is optimized.
-/

namespace TensorCompiler

theorem nodup_firstOccurrences {α : Type} [BEq α] [LawfulBEq α] (items : List α) : (firstOccurrences items).Nodup := by
  have hseen (seen : List α) (h : seen.Nodup) :
      (items.foldl (fun seen item => if seen.contains item then seen else seen ++ [item]) seen).Nodup := by
    induction items generalizing seen with
    | nil => exact h
    | cons item items ih =>
      refine ih _ ?_
      dsimp only
      split_ifs with hmem
      · exact h
      · rw [List.contains_iff_mem] at hmem
        exact h.append (List.nodup_singleton item) (by simpa using hmem)
  exact hseen [] List.nodup_nil

/-- Whether an operator lists no input twice, or convolves a tensor with itself. -/
def Operator.ListsOnce (op : Operator) : Prop :=
  op.inputs.Nodup ∨ ∃ stride padding x, op.kind = .conv2d stride padding ∧ op.inputs = [x, x]

theorem GraphM.nodup_pairInputs (a b : TensorId) : (pairInputs a b).Nodup := by
  unfold pairInputs
  split_ifs with h
  · exact List.nodup_singleton a
  · simpa using h

/-- Whether every operator of a graph does so. -/
def Graph.ListsOnce (g : Graph) : Prop :=
  ∀ op ∈ g.nodes, op.ListsOnce

/-! ## Steps -/

/-- Appending an operator of a kind that may read these inputs. -/
theorem GraphM.listsOnce_addOperator {g : Graph} {kind : OpKind} {inputs : List TensorId}
    {define : String → TensorCompute} (h : g.ListsOnce)
    (hnew : ∀ op : Operator, op.kind = kind → op.inputs = inputs → op.ListsOnce) :
    ((addOperator kind inputs define).stateAfter g).ListsOnce := by
  rcases stateAfter_addOperator kind inputs define g with hafter | hafter
  · rw [hafter]
    exact h
  · rw [hafter]
    cases hop : Graph.operator { g with nextId := g.nextId + 1 } kind inputs g.nextId
        (define (TensorId.name g.nextId)) with
    | error e => exact h
    | ok result =>
      obtain ⟨op, grown⟩ := result
      obtain ⟨_, _, _, _, -, -, -, -, rfl, rfl⟩ := Graph.operator_eq_ok_iff.mp hop
      intro op hmem
      rcases List.mem_append.mp hmem with hold | hlast
      · exact h op hold
      · rw [List.mem_singleton.mp hlast]
        exact hnew _ rfl rfl

/-- A step appends an operator that lists its inputs once, or a convolution of a tensor with itself. -/
theorem Graph.ListsOnce.apply {g : Graph} (h : g.ListsOnce) (step : BuildStep) : (step.apply g).ListsOnce := by
  have happend {kind : OpKind} {inputs : List TensorId} {define : String → TensorCompute} (hinputs : inputs.Nodup) :
      ((GraphM.addOperator kind inputs define).stateAfter g).ListsOnce :=
    GraphM.listsOnce_addOperator h fun op _ hop => Or.inl (hop ▸ hinputs)
  cases step with
  | input | constant => exact h
  | output id =>
    change (if g.isOutput id then g else { g with outputs := g.outputs ++ [id] }).ListsOnce
    split_ifs <;> exact h
  | unary fn x => exact GraphM.after_tensor_bind h fun _ _ => happend (List.nodup_singleton x)
  | binary fn a b =>
    refine GraphM.after_tensor_bind h fun _ _ => GraphM.after_tensor_bind h fun _ _ => ?_
    exact GraphM.after_ofExcept_bind h fun _ _ => happend (GraphM.nodup_pairInputs a b)
  | matmul a b =>
    refine GraphM.after_tensor_bind h fun _ _ => GraphM.after_tensor_bind h fun _ _ => ?_
    refine GraphM.after_ofExcept_bind h fun _ _ => GraphM.after_ofExcept_bind h fun _ _ => ?_
    split
    · split_ifs
      · exact h
      · exact happend (GraphM.nodup_pairInputs a b)
    · exact h
  | conv2d x w stride padding =>
    refine GraphM.after_tensor_bind h fun _ _ => GraphM.after_tensor_bind h fun _ _ => ?_
    refine GraphM.after_ofExcept_bind h fun _ _ => GraphM.after_ofExcept_bind h fun _ _ => ?_
    split
    · exact h
    · refine GraphM.listsOnce_addOperator h fun op hkind hop => ?_
      by_cases hsame : x = w
      · exact Or.inr ⟨stride, padding, x, hkind, hsame ▸ hop⟩
      · exact Or.inl (hop ▸ by simpa using hsame)
  | reduceAxis kind x axis =>
    refine GraphM.after_tensor_bind h fun _ _ => ?_
    split_ifs
    · exact h
    · exact happend (List.nodup_singleton x)

namespace Graph

variable {k : ElementKind} {g g' : Graph}

/-! ## Edits -/

theorem subset_setConstant {id : TensorId} {value : NDArray} (hset : g.setConstant id value = .ok g') :
    ∀ op ∈ g'.nodes, op ∈ g.nodes := by
  obtain ⟨info, -, rfl⟩ := setConstant_eq_ok_iff.mp hset
  exact fun op hop => mem_of_mem_removeProducer hop

theorem subset_normalize (hnormal : g.normalize = .ok g') : ∀ op ∈ g'.nodes, op ∈ g.nodes := by
  obtain ⟨live, hlive, rfl⟩ := normalize_eq_ok_iff.mp hnormal
  exact fun op hop => liveNodes_subset hlive hop

/-- Rewiring a node puts one in its place that lists what it reads anew. -/
theorem Computed.mem_replaceInput (h : g.Computed k) {index : Nat} {old new : TensorId}
    (hreplace : g.replaceInput index old new = .ok g') :
    ∀ op ∈ g'.nodes, op ∈ g.nodes ∨
      ∃ before ∈ g.nodes, op.output = before.output ∧ op.inputs = rewiredInputs before old new := by
  rcases replaceInput_cases hreplace with rfl | ⟨before, _, _, hop, hold, hnew⟩
  · exact fun op hop => Or.inl hop
  obtain ⟨rebuilt, _, _, -, houtput, hinputs, -, -, hreplace'⟩ := exists_replaceInput h hop hold hnew
  cases hreplace'.symm.trans hreplace
  intro op hmem
  refine (List.mem_or_eq_of_mem_set hmem).imp_right ?_
  rintro rfl
  exact ⟨before, List.mem_of_getElem? hop, houtput, hinputs⟩

/-- Merging two nodes leaves one that lists what they read anew. -/
theorem Computed.mem_fuse (h : g.Computed k) {pair : FusionPair} {producer consumer : Operator}
    (hmergeable : g.Mergeable pair producer consumer) (hfuse : g.fuse pair = .ok g') :
    ∀ op ∈ g'.nodes, op ∈ g.nodes ∨ op.output = consumer.output ∧ op.inputs = mergedInputs producer consumer := by
  obtain ⟨merged, _, _, -, hmerged, -, hfuse'⟩ := exists_fuse h hmergeable
  cases hfuse'.symm.trans hfuse
  intro op hmem
  refine (List.mem_or_eq_of_mem_set (List.mem_of_mem_eraseIdx hmem)).imp_right ?_
  rintro rfl
  exact ⟨hmerged.output, hmerged.inputs⟩

/-! ### Each input once -/

/-- A linked graph whose operators list their inputs once, but for convolutions of a tensor with itself. -/
structure Listed (k : ElementKind) (g : Graph) : Prop where
  linked : g.Linked k
  once : g.ListsOnce

theorem keptByEdits_listed : KeptByEdits (Listed k) where
  setConstant h hset := ⟨h.linked.setConstant hset, fun op hop => h.once op (subset_setConstant hset op hop)⟩
  replaceInput h hreplace := by
    refine ⟨h.linked.replaceInput hreplace, fun op hop => ?_⟩
    rcases h.linked.computed.mem_replaceInput hreplace op hop with hop | ⟨before, -, -, hinputs⟩
    · exact h.once op hop
    · exact Or.inl (hinputs ▸ nodup_firstOccurrences _)
  fuse h hmergeable hfuse := by
    refine ⟨h.linked.fuse hmergeable hfuse, fun op hop => ?_⟩
    rcases h.linked.computed.mem_fuse hmergeable hfuse op hop with hop | ⟨-, hinputs⟩
    · exact h.once op hop
    · exact Or.inl (hinputs ▸ nodup_firstOccurrences _)
  normalize h hnormal := ⟨h.linked.normalize hnormal, fun op hop => h.once op (subset_normalize hnormal op hop)⟩

/-- However a graph was built, edited and optimized, its operators list their inputs once, but for convolutions of a
tensor with itself. -/
theorem Reachable.listsOnce [FloatOps] (h : Reachable g) : g.ListsOnce := by
  have hlisted : g.Listed .mixed := by
    induction h with
    | empty => exact ⟨.empty, fun op hop => by cases hop⟩
    | step h step ih => exact ⟨(h.step step).linked, ih.once.apply step⟩
    | replaceInput _ index old new hreplace ih => exact keptByEdits_listed.replaceInput ih hreplace
    | normalize _ hnormal ih => exact keptByEdits_listed.normalize ih hnormal
    | pass _ pass hrun ih => exact keptByEdits_listed.runPass ih hrun
  exact hlisted.once

/-! ### Numbers -/

/-- A linked graph whose operators read tensors of smaller numbers than those that they compute. -/
structure Numbered (k : ElementKind) (g : Graph) : Prop where
  linked : g.Linked k
  lt_output : ∀ op ∈ g.nodes, ∀ id ∈ op.inputs, id < op.output

namespace Numbered

/-- A new operator computes the tensor of the next number. -/
theorem outcome (h : g.Numbered k) (houtcome : BuildStep.Outcome k g g')
    (hextents : ∀ op ∈ g'.nodes, k.HasExtents op.computation.value) : g'.Numbered k := by
  refine ⟨h.linked.outcome houtcome hextents, ?_⟩
  cases houtcome with
  | refused | skipped | recorded | marked => exact h.lt_output
  | @appended kind inputs c op grown hdefines hop =>
    obtain ⟨hvalue, -⟩ := value_of_operator hop
    obtain ⟨d, shape, hc⟩ := hdefines (hvalue ▸ hextents op (List.mem_append_right _ (List.mem_singleton_self op)))
    obtain ⟨hinputs, houtput, rfl, -⟩ := h.linked.operator_nextId hc hop
    intro other hother id hid
    rcases List.mem_append.mp hother with hother | hlast
    · exact h.lt_output other hother id hid
    · rw [List.mem_singleton.mp hlast] at hid ⊢
      obtain ⟨d', shape', htype⟩ := hinputs id hid
      obtain ⟨source, hlookup⟩ := TensorTable.type?_eq_some_iff.mp htype
      exact houtput ▸ h.linked.below id _ hlookup

/-- Replacing an input by one of no greater number. -/
theorem replaceInput (h : g.Numbered k) {index : Nat} {old new : TensorId} (hle : new ≤ old)
    (hreplace : g.replaceInput index old new = .ok g') : g'.Numbered k := by
  refine ⟨h.linked.replaceInput hreplace, fun op hop id hid => ?_⟩
  rcases h.linked.computed.mem_replaceInput hreplace op hop with hop | ⟨before, hbefore, houtput, hinputs⟩
  · exact h.lt_output op hop id hid
  · rw [hinputs] at hid
    obtain ⟨x, hx, rfl⟩ := List.mem_map.mp (mem_firstOccurrences.mp hid)
    have hlt := h.lt_output before hbefore x hx
    rw [houtput]
    split_ifs with hsame
    · exact Nat.lt_of_le_of_lt (hsame ▸ hle) hlt
    · exact hlt

/-- What a producer reads lies behind what its consumer reads. -/
theorem fuse (h : g.Numbered k) {pair : FusionPair} {producer consumer : Operator}
    (hmergeable : g.Mergeable pair producer consumer) (hfuse : g.fuse pair = .ok g') : g'.Numbered k := by
  refine ⟨h.linked.fuse hmergeable hfuse, fun op hop id hid => ?_⟩
  -- the consumer reads the tensor of the producer, so all that the producer reads comes before both
  have hproducer := List.mem_of_getElem? hmergeable.producer_at
  have hconsumer := List.mem_of_getElem? hmergeable.consumer_at
  rcases h.linked.computed.mem_fuse hmergeable hfuse op hop with hop | ⟨houtput, hinputs⟩
  · exact h.lt_output op hop id hid
  · rw [houtput]
    rcases mem_mergedInputs.mp (hinputs ▸ hid) with ⟨hread, -⟩ | ⟨hread, -⟩
    · exact Nat.lt_trans (h.lt_output producer hproducer id hread) (h.lt_output consumer hconsumer _ hmergeable.reads)
    · exact h.lt_output consumer hconsumer id hread

end Numbered

theorem keptByRemovals_numbered : KeptByRemovals (Numbered k) where
  setConstant h hset :=
    ⟨h.linked.setConstant hset, fun op hop => h.lt_output op (subset_setConstant hset op hop)⟩
  fuse h := h.fuse
  normalize h hnormal :=
    ⟨h.linked.normalize hnormal, fun op hop => h.lt_output op (subset_normalize hnormal op hop)⟩

/-! ### Replacements -/

section

variable [FloatOps]

theorem simplified?_of_replacement? {op : Operator} {x : TensorId} (h : g.replacement? op = .ok (some x)) :
    g.simplified? op = .ok (some x) := by
  obtain ⟨found, hfound, hrest⟩ := bind_eq_ok_iff.mp h
  cases found with
  | none => cases hrest
  | some y =>
    obtain ⟨info, -, hrest⟩ := bind_eq_ok_iff.mp hrest
    obtain ⟨output, -, hrest⟩ := bind_eq_ok_iff.mp hrest
    have hkept := Except.ok.inj hrest
    split_ifs at hkept
    rw [hfound, hkept]

/-- A tensor is replaced by one of a smaller number. -/
theorem Numbered.lt_of_mem_replacements (h : g.Numbered k) {map : Replacements} (hmap : g.replacements = .ok map) :
    ∀ entry ∈ map, entry.2 < entry.1 := by
  refine foldlM_keeps (P := fun map : Replacements => ∀ entry ∈ map, entry.2 < entry.1)
    (fun op hop found found' hfound hstep => ?_) (by simp) hmap
  split_ifs at hstep
  · cases hstep
    exact hfound
  · obtain ⟨replacement, hreplacement, hrest⟩ := bind_eq_ok_iff.mp hstep
    cases replacement with
    | none =>
      cases hrest
      exact hfound
    | some x =>
      cases hrest
      refine List.forall_mem_cons.mpr ⟨?_, hfound⟩
      rcases mem_of_simplified? (simplified?_of_replacement? hreplacement) with hread | ⟨inner, hinner, hread, hx⟩
      · exact h.lt_output op hop x hread
      · exact Nat.lt_trans (h.lt_output inner hinner x hx) (h.lt_output op hop _ hread)

omit [FloatOps] in
/-- The end of a chain of replacements has no greater number than its start. -/
theorem resolve_le {map : Replacements} (h : ∀ entry ∈ map, entry.2 < entry.1) (id : TensorId) : resolve map id ≤ id := by
  -- by induction on the length of the chain, each of whose steps goes to a smaller number
  have hsteps (fuel : Nat) : resolveSteps map fuel id ≤ id := by
    induction fuel generalizing id with
    | zero => exact Nat.le_refl id
    | succ fuel ih =>
      rw [resolveSteps]
      split
      · rename_i next hnext
        obtain ⟨before, after, hsplit, -⟩ := List.lookup_eq_some_iff.mp hnext
        have hlt : next < id := h (id, next) (by simp [hsplit])
        exact Nat.le_trans (ih next) (Nat.le_of_lt hlt)
      · exact Nat.le_refl id
  exact hsteps map.length

theorem Numbered.runPass (h : g.Numbered k) {pass : GraphPass} (hrun : pass.run g = .ok g') : g'.Numbered k :=
  keptByRemovals_numbered.runPass h
    (fun _ hmap _ _ _ _ hg hreplace => hg.replaceInput (resolve_le (h.lt_of_mem_replacements hmap) _) hreplace) hrun

/-! ## Graphs of steps and passes -/

/-- The graphs that steps and passes lead to from the empty graph, in any order. Steps may be refused. -/
inductive Grown : Graph → Prop
  | empty : Grown {}
  | step {g : Graph} (h : Grown g) (step : BuildStep) : Grown (step.apply g)
  | normalize {g g' : Graph} (h : Grown g) (hnormal : g.normalize = .ok g') : Grown g'
  | pass {g g' : Graph} (h : Grown g) (pass : GraphPass) (hrun : pass.run g = .ok g') : Grown g'

theorem grown_build (steps : List BuildStep) : Grown (build steps) :=
  build_keeps .empty (fun _ step h => h.step step) steps

theorem Grown.reachable (h : Grown g) : Reachable g := by
  induction h with
  | empty => exact .empty
  | step _ step ih => exact ih.step step
  | normalize _ hnormal ih => exact ih.normalize hnormal
  | pass _ pass hrun ih => exact ih.pass pass hrun

/-- The tensors that an operator reads have smaller numbers than the one that it computes. -/
theorem Grown.numbered (h : Grown g) : g.Numbered .mixed := by
  induction h with
  | empty => exact ⟨.empty, fun op hop => by cases hop⟩
  | step _ step ih =>
    exact ih.outcome (BuildStep.outcome_apply (BuildStep.typed_mixed _) rfl) fun _ _ _ _ _ _ _ _ _ => rfl
  | normalize _ hnormal ih => exact keptByRemovals_numbered.normalize ih hnormal
  | pass _ pass hrun ih => exact ih.runPass hrun

end

end Graph

end TensorCompiler
