import TensorCompiler.Proofs.Graph.FixedPoint

/-! # A fusion pass run again

A fusion pass merges until its rule allows no pair and then brings the graph into normal form, which drops the dead
operators. Until then a dead operator counts as a reader: where it reads what a live operator computes, the rule may allow
one more pair once it is gone. The next run merges that pair, and since it starts from a graph whose operators are all live,
the run after it finds nothing. Where no dead operator reads what a live one computes, the first run is the last that finds
anything.
-/

namespace TensorCompiler

namespace Graph

variable {known : TensorId → Prop} {k : ElementKind} {g g' : Graph} {pair : FusionPair} {rule : FusionRule}
  {producer consumer merged : Operator} {nodes : List Operator} {id : TensorId}

/-- Whether only live operators read what a live operator computes. -/
def HasLiveReaders (g : Graph) : Prop :=
  ∀ producer reader, g.Live producer → reader ∈ g.nodes → producer.output ∈ reader.inputs → g.Live reader

/-! ## One merge -/

theorem eq_of_readers_eq_one (hone : readers nodes id = 1) {op op' : Operator} (hop : op ∈ nodes) (hread : id ∈ op.inputs)
    (hop' : op' ∈ nodes) (hread' : id ∈ op'.inputs) : op = op' := by
  rw [readers, List.countP_eq_length_filter, List.length_eq_one_iff] at hone
  obtain ⟨reader, hreader⟩ := hone
  have hmem : ∀ {op : Operator}, op ∈ nodes → id ∈ op.inputs → op = reader := by
    intro op hop hread
    exact List.mem_singleton.mp (hreader ▸ List.mem_filter.mpr ⟨hop, List.contains_iff_mem.mpr hread⟩)
  exact (hmem hop hread).trans (hmem hop' hread').symm

/-- Only the consumer reads what the producer computes. -/
theorem Mergeable.eq_consumer (h : g.Mergeable pair producer consumer) {op : Operator} (hop : op ∈ g.nodes)
    (hread : producer.output ∈ op.inputs) : op = consumer :=
  eq_of_readers_eq_one ((length_consumers g producer.output).symm.trans h.one_reader) hop hread
    (List.mem_of_getElem? h.consumer_at) h.reads

/-- A tensor that is live after a merge was live before it. -/
theorem LiveTensor.of_merge (hordered : Ordered known g.nodes) (h : g.Mergeable pair producer consumer)
    (hm : Merged pair producer consumer merged) (hne : id ≠ producer.output)
    (hlive : LiveTensor { g with nodes := (g.nodes.set pair.consumer merged).eraseIdx pair.producer } id) :
    g.LiveTensor id := by
  obtain ⟨rest, hbefore, hafter⟩ := h.exists_rest merged hordered
  have hnodup := (hbefore.map Operator.output).nodup_iff.mp hordered.nodup_outputsOf
  -- the merged operator reads what the consumer and the producer read, and with the consumer the producer was live
  have hinputs : ∀ op ∈ merged :: rest, g.LiveTensor op.output → ∀ id ∈ op.inputs, id ≠ producer.output →
      g.LiveTensor id := by
    intro op hop houtput id hid hne
    rcases List.mem_cons.mp hop with rfl | hop
    · have hconsumer : g.Live consumer := live_iff.mpr ⟨List.mem_of_getElem? h.consumer_at, hm.output ▸ houtput⟩
      rcases (hm.mem_inputs h.reads hne).mp hid with hid | hid
      · exact Or.inr ⟨producer, hconsumer.input (List.mem_of_getElem? h.producer_at) h.reads, hid⟩
      · exact Or.inr ⟨consumer, hconsumer, hid⟩
    · have hmem : op ∈ g.nodes := hbefore.mem_iff.mpr (List.mem_cons_of_mem _ (List.mem_cons_of_mem _ hop))
      exact houtput.of_mem_inputs hmem hid
  have hreads : ∀ op, Live { g with nodes := (g.nodes.set pair.consumer merged).eraseIdx pair.producer } op →
      ∀ id ∈ op.inputs, id ≠ producer.output → g.LiveTensor id := by
    intro op hop
    induction hop with
    | output hop hout => exact hinputs _ (hafter.mem_iff.mp hop) (Or.inl hout)
    | input _ hop hread ih =>
      have hmem := hafter.mem_iff.mp hop
      exact hinputs _ hmem (ih _ hread (hm.exists_old hnodup hmem).1)
  rcases hlive with hout | ⟨reader, hreader, hread⟩
  · exact Or.inl hout
  · exact hreads reader hreader id hread hne

/-- A tensor that was live before a merge is live after it. The tensor that is no longer there hands this on to what the
consumer computes. -/
theorem LiveTensor.merge (hordered : Ordered known g.nodes) (h : g.Mergeable pair producer consumer)
    (hm : Merged pair producer consumer merged) (hne : id ≠ producer.output) (hlive : g.LiveTensor id) :
    LiveTensor { g with nodes := (g.nodes.set pair.consumer merged).eraseIdx pair.producer } id := by
  obtain ⟨rest, hbefore, hafter⟩ := h.exists_rest merged hordered
  have hnodup := (hbefore.map Operator.output).nodup_iff.mp hordered.nodup_outputsOf
  have hconsumer : consumer.output ≠ producer.output := (hm.exists_old hnodup List.mem_cons_self).1 ∘ hm.output.trans
  let after : Graph := { g with nodes := (g.nodes.set pair.consumer merged).eraseIdx pair.producer }
  have hmerged : after.LiveTensor consumer.output → after.Live merged := fun hlive =>
    live_iff.mpr ⟨hafter.mem_iff.mpr List.mem_cons_self, hm.output ▸ hlive⟩
  have hinputs : ∀ op ∈ g.nodes, (op.output = producer.output → after.LiveTensor consumer.output) →
      (op.output ≠ producer.output → after.LiveTensor op.output) →
      ∀ id ∈ op.inputs, id ≠ producer.output → after.LiveTensor id := by
    intro op hop hsame hother id hid hne
    rcases List.mem_cons.mp (hbefore.mem_iff.mp hop) with rfl | hop
    · exact Or.inr ⟨merged, hmerged (hsame rfl), (hm.mem_inputs h.reads hne).mpr (Or.inl hid)⟩
    rcases List.mem_cons.mp hop with rfl | hop
    · exact Or.inr ⟨merged, hmerged (hother hconsumer), (hm.mem_inputs h.reads hne).mpr (Or.inr hid)⟩
    · have hmem := List.mem_cons_of_mem merged hop
      exact (hother (hm.exists_old hnodup hmem).1).of_mem_inputs (hafter.mem_iff.mpr hmem) hid
  have hlives : ∀ op, g.Live op → (op.output = producer.output → after.LiveTensor consumer.output) ∧
      (op.output ≠ producer.output → after.LiveTensor op.output) := by
    intro op hop
    induction hop with
    | output hop hout => exact ⟨fun hsame => absurd (hsame ▸ hout) h.not_output, fun _ => Or.inl hout⟩
    | @input reader op hreader hop hread ih =>
      refine ⟨fun hsame => ?_, hinputs reader hreader.mem ih.1 ih.2 _ hread⟩
      cases h.eq_consumer hreader.mem (hsame ▸ hread)
      exact ih.2 hconsumer
  rcases hlive with hout | ⟨reader, hreader, hread⟩
  · exact Or.inl hout
  · exact hinputs reader hreader.mem (hlives reader hreader).1 (hlives reader hreader).2 id hread hne

/-- A merge keeps that only live operators read what a live one computes. -/
theorem HasLiveReaders.merge (hg : g.HasLiveReaders) (hordered : Ordered known g.nodes)
    (h : g.Mergeable pair producer consumer) (hm : Merged pair producer consumer merged) :
    HasLiveReaders { g with nodes := (g.nodes.set pair.consumer merged).eraseIdx pair.producer } := by
  obtain ⟨rest, hbefore, hafter⟩ := h.exists_rest merged hordered
  have hnodup := (hbefore.map Operator.output).nodup_iff.mp hordered.nodup_outputsOf
  intro op reader hop hreader hread
  obtain ⟨hmem, hlive⟩ := live_iff.mp hop
  obtain ⟨hne, old, hold, hsame, -⟩ := hm.exists_old hnodup (hafter.mem_iff.mp hmem)
  have hlive' : g.Live old := by
    refine live_iff.mpr ⟨hbefore.mem_iff.mpr (List.mem_cons_of_mem _ hold), ?_⟩
    rw [hsame]
    exact hlive.of_merge hordered h hm hne
  have hreads : ∀ reader ∈ g.nodes, op.output ∈ reader.inputs → g.Live reader := fun reader hreader hread =>
    hg old reader hlive' hreader (hsame ▸ hread)
  obtain ⟨hne', old', hold', hsame', hclass⟩ := hm.exists_old hnodup (hafter.mem_iff.mp hreader)
  suffices hreader' : g.Live old' from
    live_iff.mpr ⟨hreader, hsame' ▸ (live_iff.mp hreader').2.merge hordered h hm (hsame' ▸ hne')⟩
  rcases hclass with ⟨rfl, rfl⟩ | rfl
  · rcases (hm.mem_inputs h.reads hne).mp hread with hread | hread
    · -- the producer was live, so it was read by a live operator, which was the consumer
      have hproducer := hreads producer (List.mem_of_getElem? h.producer_at) hread
      exact hg producer _ hproducer (List.mem_of_getElem? h.consumer_at) h.reads
    · exact hreads _ (List.mem_of_getElem? h.consumer_at) hread
  · exact hreads reader (hbefore.mem_iff.mpr (List.mem_cons_of_mem _ hold')) hread

/-! ## Runs of a pass -/

/-- The normal form makes no pairs for a rule if no dead operator reads what a live one computes. -/
theorem HasLiveReaders.fused_normalize (hg : g.HasLiveReaders) (hnodup : (outputsOf g.nodes).Nodup)
    (hnormal : g.normalize = .ok g') (hfused : g.Fused rule) : g'.Fused rule := by
  obtain ⟨live, hlive, rfl⟩ := normalize_eq_ok_iff.mp hnormal
  have hmem : ∀ op, op ∈ live ↔ g.Live op := fun op => mem_liveNodes_iff hnodup hlive
  intro producer consumer hallows
  have hproducer := (hmem producer).mp hallows.producer_mem
  have hconsumer := (hmem consumer).mp hallows.consumer_mem
  refine hfused producer consumer
    ⟨hproducer.mem, hconsumer.mem, hallows.reads, hallows.not_output, ?_, hallows.classes⟩
  have hreaders : (g.nodes.filter fun op => op.inputs.contains producer.output).Perm
      (live.filter fun op => op.inputs.contains producer.output) := by
    have hnodup' : live.Nodup := (ordered_liveNodes hnodup hlive).nodup_outputsOf.of_map
    refine (List.perm_ext_iff_of_nodup (hnodup.of_map.filter _) (hnodup'.filter _)).mpr fun op => ?_
    simp only [List.mem_filter, List.contains_iff_mem, hmem]
    exact and_congr_left fun hread => ⟨fun hop => hg producer op hproducer hop hread, Live.mem⟩
  rw [readers, List.countP_eq_length_filter, hreaders.length_eq, ← List.countP_eq_length_filter]
  exact hallows.one_reader

/-- A fusion pass leaves no pair for its rule if no dead operator reads what a live one computes. -/
theorem WellFormed.fused_fuseAll (hrule : rule.Sound) (hg : g.WellFormed k) (hreaders : g.HasLiveReaders)
    (hfuse : g.fuseAll rule = .ok g') : g'.Fused rule := by
  obtain ⟨⟨changed, fused⟩, hsteps, hrest⟩ := bind_eq_ok_iff.mp hfuse
  obtain ⟨hwell, hreaders', hfused⟩ := hg.fused_fuseSteps (P := HasLiveReaders) hrule
    (fun hwell hP h hm _ => hP.merge hwell.ordered h hm) hreaders Nat.le.refl hsteps
  cases changed with
  | false =>
    cases hrest
    exact hfused
  | true => exact hreaders'.fused_normalize hwell.ordered.nodup_outputsOf hrest hfused

section

variable [FloatOps]

/-- A fusion pass leaves no pair for its rule or a graph in which every operator is needed. -/
theorem WellFormed.fused_or_trim_fuseAll (hrule : rule.Sound) (hg : g.WellFormed k) (hfuse : g.fuseAll rule = .ok g') :
    g'.Fused rule ∨ g'.Trim k := by
  obtain ⟨⟨changed, fused⟩, hsteps, hrest⟩ := bind_eq_ok_iff.mp hfuse
  obtain ⟨hwell, -, hfused⟩ := hg.fused_fuseSteps (P := fun _ => True) hrule (fun _ _ _ _ _ => trivial) trivial
    Nat.le.refl hsteps
  cases changed with
  | false =>
    cases hrest
    exact Or.inl hfused
  | true => exact Or.inr (hwell.trim_normalize hrest)

/-- A fusion pass run again changes nothing if no dead operator reads what a live one computes, and run a third time it
changes nothing in any case. -/
theorem WellFormed.exists_fuseAll_fuseAll (hrule : rule.Sound) (hg : g.WellFormed k) :
    ∃ h, g.fuseAll rule = .ok h ∧ (g.HasLiveReaders → h.fuseAll rule = .ok h) ∧
      ∃ h', h.fuseAll rule = .ok h' ∧ h'.fuseAll rule = .ok h' := by
  obtain ⟨h, hfuse, hwell⟩ := hg.exists_fuseAll hrule
  have hnodup := hwell.ordered.nodup_outputsOf
  refine ⟨h, hfuse, fun hreaders => (hg.fused_fuseAll hrule hreaders hfuse).fuseAll_eq hnodup, ?_⟩
  rcases hg.fused_or_trim_fuseAll hrule hfuse with hfused | htrim
  · exact ⟨h, hfused.fuseAll_eq hnodup, hfused.fuseAll_eq hnodup⟩
  · obtain ⟨h', hfuse', hwell'⟩ := hwell.exists_fuseAll hrule
    have hfused := (htrim.settles_fuseAll hrule hfuse').fused
    exact ⟨h', hfuse', hfused.fuseAll_eq hwell'.ordered.nodup_outputsOf⟩

/-- Whatever graph is built, a fusion pass succeeds on it, and a second run of the pass changes nothing if no dead operator
reads what a live one computes. A third run changes nothing in any case. -/
theorem exists_run_run_of_isFusion (steps : List BuildStep) {pass : GraphPass} (hpass : pass.isFusion) :
    ∃ h, pass.run (build steps) = .ok h ∧ ((build steps).HasLiveReaders → pass.run h = .ok h) ∧
      ∃ h', pass.run h = .ok h' ∧ pass.run h' = .ok h' := by
  obtain ⟨rule, hrule, hrun⟩ := GraphPass.exists_rule_of_isFusion hpass
  rw [hrun]
  exact (wellFormed_build_mixed steps).exists_fuseAll_fuseAll hrule

end

/-- A negated exponential, and the root of the input, which is dead. -/
def deadRootSteps : List BuildStep :=
  [.input "x" .float32 [4], .unary .exp 0, .unary .neg 1, .unary .sqrt 0, .output 2]

/-- The dead root reads the input only, so the exponential is merged in the first run. -/
theorem exists_run_run_deadRoot : (build deadRootSteps).HasLiveReaders ∧
    ∃ h, GraphPass.fuseUnary.run (build deadRootSteps) = .ok h ∧ GraphPass.fuseUnary.run h = .ok h ∧
      h.nodes.map (fun op => op.task.name) = ["fused_exp_neg_t2"] := by
  have hreaders : (build deadRootSteps).HasLiveReaders := by
    obtain ⟨exp, neg, root, hnodes, hexp, hneg, hroot, houtputs⟩ : ∃ exp neg root,
        (build deadRootSteps).nodes = [exp, neg, root] ∧ (exp.inputs = [0] ∧ exp.output = 1) ∧
          (neg.inputs = [1] ∧ neg.output = 2) ∧ (root.inputs = [0] ∧ root.output = 3) ∧
          (build deadRootSteps).outputs = [2] :=
      ⟨_, _, _, rfl, ⟨rfl, rfl⟩, ⟨rfl, rfl⟩, ⟨rfl, rfl⟩, rfl⟩
    have hlive : (build deadRootSteps).Live neg := .output (by simp [hnodes]) (by simp [houtputs, hneg])
    intro producer reader hproducer hreader hread
    have hproducer' := hproducer.mem
    simp only [hnodes, List.mem_cons, List.not_mem_nil, or_false] at hproducer' hreader
    rcases hreader with rfl | rfl | rfl
    · rcases hproducer' with rfl | rfl | rfl <;> simp [hexp, hneg, hroot] at hread
    · exact hlive
    · rcases hproducer' with rfl | rfl | rfl <;> simp [hexp, hneg, hroot] at hread
  obtain ⟨h, hrun, hagain, -⟩ := exists_run_run_of_isFusion deadRootSteps
    (show GraphPass.fuseUnary.isFusion from rfl)
  have hnames : ((fun h : Graph => h.nodes.map fun op => op.task.name) <$>
      GraphPass.fuseUnary.run (build deadRootSteps)).toOption = some ["fused_exp_neg_t2"] := by
    decide +kernel
  rw [hrun] at hnames
  exact ⟨hreaders, h, hrun, hagain hreaders, Option.some.inj hnames⟩

/-- The absolute value of a negated exponential, and the root of the exponential, which is dead. -/
def deadReaderSteps : List BuildStep :=
  [.input "x" .float32 [4], .unary .exp 0, .unary .neg 1, .unary .sqrt 1, .unary .abs 2, .output 4]

/-- In the first run the exponential has two readers, in the second one the dead one is gone. -/
theorem exists_run_run_ne_deadReader :
    ∃ h h', GraphPass.fuseUnary.run (build deadReaderSteps) = .ok h ∧ GraphPass.fuseUnary.run h = .ok h' ∧ h' ≠ h ∧
      h.nodes.map (fun op => op.task.name) = ["exp_t1", "fused_neg_abs_t4"] ∧
      h'.nodes.map (fun op => op.task.name) = ["fused_exp_neg_abs_t4"] := by
  obtain ⟨h, hrun, -, h', hrun', -⟩ := exists_run_run_of_isFusion deadReaderSteps
    (show GraphPass.fuseUnary.isFusion from rfl)
  have hnames : (do
      let h : Graph ← GraphPass.fuseUnary.run (build deadReaderSteps)
      let h' : Graph ← GraphPass.fuseUnary.run h
      pure (h.nodes.map fun op : Operator => op.task.name, h'.nodes.map fun op : Operator => op.task.name)).toOption =
        some (["exp_t1", "fused_neg_abs_t4"], ["fused_exp_neg_abs_t4"]) := by
    decide +kernel
  rw [hrun, bind_ok, hrun', bind_ok] at hnames
  obtain ⟨hfirst, hsecond⟩ := Prod.mk.inj (Option.some.inj hnames)
  refine ⟨h, h', hrun, hrun', ?_, hfirst, hsecond⟩
  rintro rfl
  simp [hfirst] at hsecond

end Graph

end TensorCompiler
