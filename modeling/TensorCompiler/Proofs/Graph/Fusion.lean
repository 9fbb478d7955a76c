import TensorCompiler.Proofs.Graph.Normal

/-! # Fusion keeps the values of a graph

Merging a producer into the one operator that reads its result leaves the values of all other tensors: the merged
operator computes what its consumer computed. So the values that fit together in the graph still do once the producer
is gone. The merged definition has the form of an operator again, and repeated merging comes down to one merge at a
time.
-/

namespace TensorCompiler

/-- A rule is sound if it gives a merged operator the class that inlining gives its value. -/
def FusionRule.Sound (rule : FusionRule) : Prop :=
  ∀ p c q, rule p c = some q →
    (q.level = c.level ∧ p.level = .elementwise) ∨ (c.level = .elementwise ∧ q.level = p.level)

namespace FusionRule

theorem unary_sound : unary.Sound := by
  intro p c q h
  cases p <;> cases c <;> cases h
  exact Or.inl ⟨rfl, rfl⟩

theorem level_of_isElementwise {cls : FusionClass} (h : cls.isElementwise = true) : cls.level = .elementwise := by
  cases cls with
  | unary | elementwise => rfl
  | anchor => cases h

theorem epilogue_sound : epilogue.Sound := by
  intro p c q h
  obtain ⟨⟨rfl, hc⟩, hq⟩ := Option.ite_none_right_eq_some.mp h
  cases hq
  exact Or.inr ⟨level_of_isElementwise hc, rfl⟩

theorem prologue_sound : prologue.Sound := by
  intro p c q h
  obtain ⟨⟨hp, rfl⟩, hq⟩ := Option.ite_none_right_eq_some.mp h
  cases hq
  exact Or.inl ⟨rfl, level_of_isElementwise hp⟩

end FusionRule

/-! ## Merged definitions -/

namespace Graph

variable {k : ElementKind} {T : TensorTable} {l p q : Level} {d d' : DType} {shape shape' : List Int64}
  {producer consumer : Operator}

/-- A merged operator reads what its consumer reads beside the result of its producer, and what the producer reads. -/
theorem mem_mergedInputs {id : TensorId} :
    id ∈ mergedInputs producer consumer ↔
      (id ∈ producer.inputs ∧ producer.output ∈ consumer.inputs) ∨ (id ∈ consumer.inputs ∧ id ≠ producer.output) := by
  rw [mergedInputs, mem_firstOccurrences, List.mem_flatMap]
  constructor
  · rintro ⟨x, hx, hid⟩
    split_ifs at hid with hsame
    · exact Or.inl ⟨hid, hsame ▸ hx⟩
    · rw [List.mem_singleton] at hid
      subst hid
      exact Or.inr ⟨hx, hsame⟩
  · rintro (⟨hid, hread⟩ | ⟨hid, hne⟩)
    · exact ⟨producer.output, hread, by rwa [if_pos rfl]⟩
    · exact ⟨id, hid, by rw [if_neg hne, List.mem_singleton]⟩

/-- What a consumer may read under the name of its producer is the result of the producer. -/
theorem source_of_reads (hproducer : producer.Computes k T d' shape') {ids : List TensorId} (d : DType)
    (shape : List Int64) (hreads : T.Reads ids d producer.computation.name shape) :
    shape.length = producer.computation.axes.length ∧
      Expr.IsElement k (T.Reads producer.inputs) d producer.fusionClass.level
        (producer.computation.axes.map Var.name) producer.computation.value := by
  obtain ⟨id, -, hname, htype⟩ := hreads
  rw [hproducer.name_eq] at hname
  cases TensorId.name_injective hname
  cases hproducer.recorded.symm.trans htype
  exact ⟨hproducer.defines.rank.symm, hproducer.defines.value⟩

/-- Inlining a producer gives a definition again. -/
theorem defines_inline (hproducer : producer.Computes k T d' shape') (hconsumer : consumer.Computes k T d shape)
    (hread : producer.output ∈ consumer.inputs)
    (hlevel : (q = consumer.fusionClass.level ∧ producer.fusionClass.level = .elementwise) ∨
      (consumer.fusionClass.level = .elementwise ∧ q = producer.fusionClass.level)) :
    (consumer.computation.inline producer.computation).Defines k T (mergedInputs producer consumer) q d shape := by
  have hc := hconsumer.defines
  refine ⟨hc.kind, hc.shape_eq, hc.rank, hc.axes, hc.types, hc.nodup, ?_, fun id hid => ?_⟩
  · rw [Expr.value_inline]
    refine hc.value.inline (source_of_reads hproducer) hproducer.defines.axes ?_ ?_ hlevel
    · rintro d name shape ⟨id, hid, rfl, htype⟩ hne
      refine ⟨id, mem_mergedInputs.mpr (Or.inr ⟨hid, ?_⟩), rfl, htype⟩
      rintro rfl
      exact hne hproducer.name_eq.symm
    · rintro d name shape ⟨id, hid, rfl, htype⟩
      exact ⟨id, mem_mergedInputs.mpr (Or.inl ⟨hid, hread⟩), rfl, htype⟩
  · rw [Expr.value_inline]
    rcases mem_mergedInputs.mp hid with ⟨hid, -⟩ | ⟨hid, hne⟩
    · have hsource := hproducer.name_eq.symm ▸ hc.reads _ hread
      exact hc.value.readsName_inline_source hsource (hproducer.defines.reads id hid)
    · refine hc.value.readsName_inline (hc.reads id hid) ?_
      rw [hproducer.name_eq]
      exact fun hname => hne (TensorId.name_injective hname)

/-- Over floats a definition with a producer inlined gives what the definition gives. -/
theorem evaluate_inline [FloatOps] {V : Tensors} {a b : NDArray} (hproducer : producer.Computes .real T d' shape')
    (hconsumer : consumer.Computes .real T d shape)
    (hlevel : producer.fusionClass.level = .elementwise ∨ consumer.fusionClass.level = .elementwise)
    (hb : producer.computation.evaluate V = .ok b) (hlookup : V.lookup producer.output.name = some b)
    (ha : consumer.computation.evaluate V = .ok a) :
    (consumer.computation.inline producer.computation).evaluate V = .ok a := by
  have hc := hconsumer.defines
  obtain ⟨shape', vs, hshape, hextents, hvs, harray⟩ := TensorCompute.evaluate_eq_ok_iff.mp ha
  refine TensorCompute.evaluate_eq_ok_iff.mpr ⟨shape', vs, hshape, hextents, hvs.imp fun point v hv => ?_, harray⟩
  have hscope : ∀ x ∈ consumer.computation.axes.map Var.name, ¬ IsReductionAxis x := by
    intro x hx
    obtain ⟨v, hv, rfl⟩ := List.mem_map.mp hx
    exact (hc.axes v hv).not_isReductionAxis
  rw [Expr.value_inline]
  refine hc.value.eval_inline hc.kind (source_of_reads hproducer) hproducer.defines.axes
    (hlevel.imp_right fun h => ⟨h, hscope⟩) ?_ hb hv
  rw [hproducer.name_eq]
  exact hlookup

/-! ## Pairs -/

/-- Two nodes that a sound rule allows to be merged: only the consumer needs the result of the producer. -/
structure Mergeable (g : Graph) (pair : FusionPair) (producer consumer : Operator) : Prop where
  producer_at : g.nodes[pair.producer]? = some producer
  consumer_at : g.nodes[pair.consumer]? = some consumer
  reads : producer.output ∈ consumer.inputs
  not_output : producer.output ∉ g.outputs
  one_reader : (g.consumers producer.output).length = 1
  level : (pair.cls.level = consumer.fusionClass.level ∧ producer.fusionClass.level = .elementwise) ∨
    (consumer.fusionClass.level = .elementwise ∧ pair.cls.level = producer.fusionClass.level)

variable {g g' : Graph} {pair : FusionPair} {rule : FusionRule}

theorem output_of_producer? {id : TensorId} {i : Nat} (h : g.producer? id = some i) :
    ∃ op, g.nodes[i]? = some op ∧ op.output = id := by
  obtain ⟨hi, hfound, -⟩ := List.findIdx?_eq_some_iff_getElem.mp h
  exact ⟨g.nodes[i], List.getElem?_eq_getElem hi, beq_iff_eq.mp hfound⟩

/-- The pairs that are found are those that the rule allows: only the consumer needs the result of the producer. -/
theorem exists_of_firstPair? (h : g.firstPair? rule = some pair) :
    ∃ producer consumer, g.nodes[pair.producer]? = some producer ∧ g.nodes[pair.consumer]? = some consumer ∧
      producer.output ∈ consumer.inputs ∧ producer.output ∉ g.outputs ∧ (g.consumers producer.output).length = 1 ∧
      rule producer.fusionClass consumer.fusionClass = some pair.cls := by
  obtain ⟨⟨consumer, index⟩, hconsumer, hinputs⟩ := List.exists_of_findSome?_eq_some h
  obtain ⟨id, hread, hpair⟩ := List.exists_of_findSome?_eq_some hinputs
  obtain ⟨source, hsource, hrest⟩ := Option.bind_eq_some_iff.mp hpair
  obtain ⟨producer, hproducer, hpair⟩ := Option.bind_eq_some_iff.mp hrest
  obtain ⟨op, hop, rfl⟩ := output_of_producer? hsource
  cases hop.symm.trans hproducer
  split_ifs at hpair with hneeded
  obtain ⟨cls, hcls, hresult⟩ := Option.bind_eq_some_iff.mp hpair
  cases hresult
  have hconsumer' := List.mem_zipIdx_iff_getElem?.mp hconsumer
  simp only [Bool.or_eq_true, bne_iff_ne, not_or, not_not] at hneeded
  refine ⟨producer, consumer, hproducer, hconsumer', hread, fun hout => hneeded.1 ?_, hneeded.2, hcls⟩
  exact List.contains_iff_mem.mpr hout

/-- The pairs that are found may be merged. -/
theorem exists_mergeable (hrule : rule.Sound) (h : g.firstPair? rule = some pair) :
    ∃ producer consumer, g.Mergeable pair producer consumer ∧
      rule producer.fusionClass consumer.fusionClass = some pair.cls := by
  obtain ⟨producer, consumer, hproducer, hconsumer, hread, hnot, hone, hcls⟩ := exists_of_firstPair? h
  exact ⟨producer, consumer, ⟨hproducer, hconsumer, hread, hnot, hone, hrule _ _ _ hcls⟩, hcls⟩

theorem length_filter_range {α : Type} (xs : List α) (test : α → Bool) :
    ((List.range xs.length).filter fun i => xs[i]?.any test).length = xs.countP test := by
  induction xs with
  | nil => rfl
  | cons x xs ih =>
    rw [List.length_cons, List.range_succ_eq_map, List.filter_cons, List.filter_map, List.countP_cons, ← ih]
    by_cases hx : test x <;> simp [hx, Function.comp_def]

/-- The number of nodes that read a tensor. -/
def readers (nodes : List Operator) (id : TensorId) : Nat :=
  nodes.countP fun op => op.inputs.contains id

theorem length_consumers (g : Graph) (id : TensorId) : (g.consumers id).length = readers g.nodes id := by
  rw [consumers, readers, ← length_filter_range]
  refine congrArg List.length (List.filter_congr fun i _ => ?_)
  cases g.nodes[i]? <;> rfl

section

variable {nodes nodes' : List Operator} {op : Operator} {id : TensorId}

theorem readers_pos (hop : op ∈ nodes) (h : id ∈ op.inputs) : 0 < readers nodes id :=
  List.countP_pos_iff.mpr ⟨op, hop, List.contains_iff_mem.mpr h⟩

theorem readers_append : readers (nodes ++ nodes') id = readers nodes id + readers nodes' id :=
  List.countP_append

theorem readers_cons_of_mem (h : id ∈ op.inputs) : readers (op :: nodes) id = readers nodes id + 1 :=
  List.countP_cons_of_pos (List.contains_iff_mem.mpr h)

theorem readers_cons_of_not_mem (h : id ∉ op.inputs) : readers (op :: nodes) id = readers nodes id :=
  List.countP_cons_of_neg (mt List.contains_iff_mem.mp h)

theorem readers_le_cons : readers nodes id ≤ readers (op :: nodes) id :=
  (List.sublist_cons_self op nodes).countP_le

theorem readers_eq_of_perm (h : nodes'.Perm nodes) : readers nodes' id = readers nodes id :=
  h.countP_eq _

end

/-- The nodes of a graph around a pair, and those after it is merged. -/
theorem Mergeable.exists_split {producer consumer : Operator} (h : g.Mergeable pair producer consumer)
    (merged : Operator) {known : TensorId → Prop} (hordered : Ordered known g.nodes) :
    ∃ before between after, g.nodes = before ++ producer :: (between ++ consumer :: after) ∧
      (g.nodes.set pair.consumer merged).eraseIdx pair.producer = before ++ (between ++ merged :: after) ∧
      ∀ op, op ∈ before ∨ op ∈ between ∨ op ∈ after → producer.output ∉ op.inputs := by
  obtain ⟨before, between, after, hnodes, hproducer, hconsumer⟩ :=
    hordered.exists_split h.producer_at h.consumer_at h.reads
  refine ⟨before, between, after, hnodes, ?_, fun op hop hread => ?_⟩
  · rw [hnodes, ← hproducer, ← hconsumer, Nat.add_assoc]
    simp [List.eraseIdx_append, Nat.add_comm 1]
  · have hone := h.one_reader
    rw [length_consumers, hnodes] at hone
    have hbehind : readers (between ++ consumer :: after) producer.output ≤
        readers (producer :: (between ++ consumer :: after)) producer.output := readers_le_cons
    rw [readers_append, readers_cons_of_mem h.reads] at hbehind
    rw [readers_append] at hone
    rcases hop with hop | hop | hop
    all_goals
      have := readers_pos hop hread
      omega

/-! ## One merge -/

/-- What merging a pair puts in the place of the consumer. -/
structure Merged (pair : FusionPair) (producer consumer merged : Operator) : Prop where
  output : merged.output = consumer.output
  inputs : merged.inputs = mergedInputs producer consumer
  fusionClass : merged.fusionClass = pair.cls
  computation : merged.computation = consumer.computation.inline producer.computation

/-- Merging a pair of operators that compute what the graph records. -/
theorem exists_fuse {producer consumer : Operator} (hg : g.Computed k) (h : g.Mergeable pair producer consumer) :
    ∃ merged d shape, consumer.Computes k g.tensors d shape ∧ Merged pair producer consumer merged ∧
      merged.Computes k g.tensors d shape ∧
      g.fuse pair = .ok { g with
        tensors := g.tensors.insert consumer.output ⟨d, shape, .operator⟩
        nodes := (g.nodes.set pair.consumer merged).eraseIdx pair.producer } := by
  obtain ⟨dp, shapep, hproducer⟩ := hg producer (List.mem_of_getElem? h.producer_at)
  obtain ⟨d, shape, hconsumer⟩ := hg consumer (List.mem_of_getElem? h.consumer_at)
  let kind := OpKind.fuse producer.kind consumer.kind pair.cls
  have hdefines : (consumer.computation.inline producer.computation).Defines k g.tensors
      (mergedInputs producer consumer) kind.fusionClass.level d shape :=
    defines_inline hproducer hconsumer h.reads h.level
  have hrecorded : ∀ id ∈ mergedInputs producer consumer, ∃ d' shape', g.tensors.type? id = some (d', shape') := by
    intro id hid
    rcases mem_mergedInputs.mp hid with ⟨hid, -⟩ | ⟨hid, -⟩
    · exact hproducer.exists_type_of_mem_inputs hid
    · exact hconsumer.exists_type_of_mem_inputs hid
  obtain ⟨merged, g', hoperator⟩ := exists_operator hdefines hrecorded consumer.output
  obtain ⟨hkind, hinputs, houtput, hcomputation, rfl, hcomputes⟩ :=
    computes_of_operator hdefines (fun id _ hid => hid ▸ hconsumer.recorded) hoperator
  have htypes : ∀ id, TensorTable.type? (g.tensors.insert consumer.output ⟨d, shape, .operator⟩) id =
      g.tensors.type? id := TensorTable.type?_insert hconsumer.recorded
  refine ⟨merged, d, shape, hconsumer, ⟨houtput, hinputs, congrArg OpKind.fusionClass hkind, ?_⟩,
    hcomputes.congr (fun id _ => (htypes id).symm) (htypes _).symm, ?_⟩
  · rw [hcomputation, ← hconsumer.name_eq]
    rfl
  · rw [fuse, h.producer_at, h.consumer_at]
    change (g.operator kind _ _ _ >>= _) = _
    rw [hoperator]
    rfl

/-- Merging a pair leaves operators that compute what the graph records. -/
theorem Computed.fuse {producer consumer : Operator} (hg : g.Computed k) (h : g.Mergeable pair producer consumer)
    (hfuse : g.fuse pair = .ok g') : g'.Computed k := by
  obtain ⟨merged, d, shape, hconsumer, -, hmerged, hfuse'⟩ := exists_fuse hg h
  cases hfuse'.symm.trans hfuse
  intro op hop
  have htypes : ∀ id, TensorTable.type? (g.tensors.insert consumer.output ⟨d, shape, .operator⟩) id =
      g.tensors.type? id := TensorTable.type?_insert hconsumer.recorded
  obtain ⟨d', shape', hcomputes⟩ : ∃ d' shape', op.Computes k g.tensors d' shape' := by
    rcases List.mem_or_eq_of_mem_set (List.mem_of_mem_eraseIdx hop) with hop | rfl
    · exact hg op hop
    · exact ⟨d, shape, hmerged⟩
  exact ⟨d', shape', hcomputes.congr (fun id _ => htypes id) (htypes _)⟩

/-- Merging a pair keeps a graph well-formed. -/
theorem WellFormed.fuse {producer consumer : Operator} (hg : g.WellFormed k) (h : g.Mergeable pair producer consumer) :
    ∃ merged, g.fuse pair = .ok { g with nodes := (g.nodes.set pair.consumer merged).eraseIdx pair.producer } ∧
      WellFormed k { g with nodes := (g.nodes.set pair.consumer merged).eraseIdx pair.producer } ∧
      Merged pair producer consumer merged := by
  obtain ⟨merged, d, shape, hconsumer, hm, -, hfuse⟩ := exists_fuse hg.computed h
  have htable : g.tensors.insert consumer.output ⟨d, shape, .operator⟩ = g.tensors :=
    TensorTable.Sorted.insert_eq_self hg.sorted (hg.lookup_output (List.mem_of_getElem? h.consumer_at) hconsumer)
  rw [htable] at hfuse
  refine ⟨merged, hfuse, ⟨hg.sorted, ?_, hg.computed.fuse h hfuse⟩, hm⟩
  obtain ⟨before, between, after, hnodes, hmerged, hunread⟩ := h.exists_split merged hg.ordered
  have hordered : Ordered g.IsSource g.nodes := hg.ordered
  rw [hnodes] at hordered
  change Ordered g.IsSource ((g.nodes.set pair.consumer merged).eraseIdx pair.producer)
  rw [hmerged]
  refine hordered.merge (fun op hop => hunread op (Or.inr (Or.inl hop))) (fun op hop => hunread op (Or.inr (Or.inr hop)))
    (fun id hid => ?_) hm.output
  rw [hm.inputs] at hid
  exact (mem_mergedInputs.mp hid).imp_left And.left

/-- Merging a pair of operators over floats keeps the values of a graph. -/
theorem WellFormed.keepsValues_fuse [FloatOps] {producer consumer : Operator} (hg : g.WellFormed .real)
    (h : g.Mergeable pair producer consumer) : ∃ g', g.fuse pair = .ok g' ∧ g'.WellFormed .real ∧ g.KeepsValues g' := by
  obtain ⟨merged, hfuse, hwell, hm⟩ := hg.fuse h
  refine ⟨_, hfuse, hwell, fun inputs V outs hV => ⟨hV.source, fun op hop => ?_, ?_⟩⟩
  · rcases List.mem_or_eq_of_mem_set (List.mem_of_mem_eraseIdx hop) with hop | rfl
    · exact hV.node op hop
    · have hproducerMem := List.mem_of_getElem? h.producer_at
      have hconsumerMem := List.mem_of_getElem? h.consumer_at
      obtain ⟨b, hb, hlookup⟩ := hV.node producer hproducerMem
      obtain ⟨a, ha, hout⟩ := hV.node consumer hconsumerMem
      obtain ⟨_, _, hproducer⟩ := hg.computed producer hproducerMem
      obtain ⟨_, _, hconsumer⟩ := hg.computed consumer hconsumerMem
      rw [hm.computation, hm.output]
      exact ⟨a, evaluate_inline hproducer hconsumer (h.level.imp And.right And.left) hb hlookup ha, hout⟩
  · obtain ⟨before, between, after, hnodes, hmerged, -⟩ := h.exists_split merged hg.ordered
    refine forall₂_imp_of_mem hV.output fun id hid a ha => ⟨ha.1.imp_right fun hmem => ?_, ha.2⟩
    -- every tensor that was computed still is, except the result of the producer
    change id ∈ outputsOf ((g.nodes.set pair.consumer merged).eraseIdx pair.producer)
    have hne : id ≠ producer.output := by
      rintro rfl
      exact h.not_output hid
    rw [hnodes] at hmem
    rw [hmerged]
    simpa [outputsOf, hne, hm.output] using hmem

/-! ## Passes -/

/-- Repeated merging keeps what one merge keeps. -/
theorem exists_fuseSteps {P : Graph → Prop} {R : Graph → Graph → Prop} (hrule : rule.Sound)
    (hrefl : ∀ g, R g g) (htrans : ∀ g g' g'', R g g' → R g' g'' → R g g'')
    (hfuse : ∀ g pair producer consumer, P g → g.Mergeable pair producer consumer →
      ∃ g', g.fuse pair = .ok g' ∧ P g' ∧ R g g')
    (fuel : Nat) (changed : Bool) (hg : P g) :
    ∃ changed' g', fuseSteps rule fuel changed g = .ok (changed', g') ∧ P g' ∧ R g g' := by
  induction fuel generalizing changed g with
  | zero => exact ⟨changed, g, rfl, hg, hrefl g⟩
  | succ fuel ih =>
    rw [fuseSteps]
    cases hpair : g.firstPair? rule with
    | none => exact ⟨changed, g, rfl, hg, hrefl g⟩
    | some pair =>
      obtain ⟨producer, consumer, hmergeable, -⟩ := exists_mergeable hrule hpair
      obtain ⟨next, hnext, hP, hR⟩ := hfuse g pair producer consumer hg hmergeable
      obtain ⟨changed', g', hsteps, hP', hR'⟩ := ih true hP
      refine ⟨changed', g', ?_, hP', htrans _ _ _ hR hR'⟩
      change (g.fuse pair >>= fuseSteps rule fuel true) = _
      rw [hnext]
      exact hsteps

/-- A fusion pass succeeds and keeps what one merge and the normal form keep. -/
theorem exists_fuseAll {P : Graph → Prop} {R : Graph → Graph → Prop} (hrule : rule.Sound)
    (hrefl : ∀ g, R g g) (htrans : ∀ g g' g'', R g g' → R g' g'' → R g g'')
    (hfuse : ∀ g pair producer consumer, P g → g.Mergeable pair producer consumer →
      ∃ g', g.fuse pair = .ok g' ∧ P g' ∧ R g g')
    (hnormalize : ∀ g, P g → ∃ g', g.normalize = .ok g' ∧ P g' ∧ R g g') (hg : P g) :
    ∃ g', g.fuseAll rule = .ok g' ∧ P g' ∧ R g g' := by
  obtain ⟨changed, fused, hsteps, hP, hR⟩ := exists_fuseSteps hrule hrefl htrans hfuse g.nodes.length false hg
  obtain ⟨normal, hnormal, hP', hR'⟩ := hnormalize fused hP
  cases changed with
  | false =>
    refine ⟨fused, ?_, hP, hR⟩
    rw [fuseAll, hsteps]
    rfl
  | true =>
    refine ⟨normal, ?_, hP', htrans _ _ _ hR hR'⟩
    rw [fuseAll, hsteps]
    exact hnormal

/-- A fusion pass over a well-formed graph over floats succeeds and keeps the values of the graph. -/
theorem WellFormed.keepsValues_fuseAll [FloatOps] (hrule : rule.Sound) (hg : g.WellFormed .real) :
    ∃ g', g.fuseAll rule = .ok g' ∧ g'.WellFormed .real ∧ g.KeepsValues g' :=
  exists_fuseAll (R := KeepsValues) hrule (fun _ _ _ _ hV => hV) (fun _ _ _ => KeepsValues.trans)
    (fun _ _ _ _ hg h => hg.keepsValues_fuse h) (fun _ hg => hg.exists_normalize) hg

/-- A fusion pass over a well-formed graph succeeds and leaves a well-formed graph. -/
theorem WellFormed.exists_fuseAll [FloatOps] (hrule : rule.Sound) (hg : g.WellFormed k) :
    ∃ g', g.fuseAll rule = .ok g' ∧ g'.WellFormed k := by
  have hmerge : ∀ (g : Graph) pair producer consumer, g.WellFormed k → g.Mergeable pair producer consumer →
      ∃ g', g.fuse pair = .ok g' ∧ g'.WellFormed k ∧ True := by
    intro g pair producer consumer hg h
    obtain ⟨merged, hfuse, hwell, -⟩ := hg.fuse h
    exact ⟨_, hfuse, hwell, trivial⟩
  have hnormalize : ∀ g : Graph, g.WellFormed k → ∃ g', g.normalize = .ok g' ∧ g'.WellFormed k ∧ True := by
    intro g hg
    obtain ⟨g', hnormal, hwell, -⟩ := hg.exists_normalize
    exact ⟨g', hnormal, hwell, trivial⟩
  obtain ⟨g', hfuse, hwell, -⟩ := Graph.exists_fuseAll (P := WellFormed k) (R := fun _ _ => True) hrule
    (fun _ => trivial) (fun _ _ _ _ _ => trivial) hmerge hnormalize hg
  exact ⟨g', hfuse, hwell⟩

end Graph

end TensorCompiler
