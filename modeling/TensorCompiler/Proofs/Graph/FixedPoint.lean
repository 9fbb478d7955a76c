import TensorCompiler.Proofs.Graph.Needed
import TensorCompiler.Proofs.Graph.Pass
import TensorCompiler.Proofs.Graph.Pipeline

/-! # The fixed point of fusion

A fusion pass stops where its rule allows no pair. What follows it could make new pairs for its rule: a merge changes the
class of an operator and what it reads, and the normal form drops readers. Neither does so in the pipeline. What the later
rules merge are anchors, into which no earlier rule merges anything, and in a graph whose operators are all needed no
reader is dropped. So the pipeline leaves a graph that each fusion pass gives back.
-/

namespace TensorCompiler

namespace FusionRule

/-- Whether what one rule merges makes no new pairs for another one: the other rule merges nothing into the result, and
the result only into what the consumer could be merged into. -/
def Respects (rule other : FusionRule) : Prop :=
  ∀ p c q, rule p c = some q → (∀ p', other p' q = none) ∧ ∀ c', (other q c').isSome → (other c c').isSome

theorem eq_anchor_of_epilogue {p c q : FusionClass} (h : epilogue p c = some q) : q = .anchor :=
  (Option.some.inj (Option.ite_none_right_eq_some.mp h).2).symm

theorem eq_anchor_of_prologue {p c q : FusionClass} (h : prologue p c = some q) : q = .anchor :=
  (Option.some.inj (Option.ite_none_right_eq_some.mp h).2).symm

/-- A rule that makes anchors makes no new pairs of unary operators. -/
theorem respects_unary {rule : FusionRule} (hrule : ∀ {p c q}, rule p c = some q → q = .anchor) :
    rule.Respects unary := by
  intro p c q h
  cases hrule h
  exact ⟨fun p' => by cases p' <;> rfl, fun c' hc' => by cases hc'⟩

/-- An anchor that has taken in what it reads can be merged into the operators into which it could be before. -/
theorem prologue_respects_epilogue : prologue.Respects epilogue := by
  intro p c q h
  obtain ⟨⟨-, rfl⟩, hq⟩ := Option.ite_none_right_eq_some.mp h
  cases hq
  exact ⟨fun p' => by cases p' <;> rfl, fun c' hc' => hc'⟩

end FusionRule

namespace Graph

variable {known : TensorId → Prop} {k : ElementKind} {g g' : Graph} {pair : FusionPair} {rule other : FusionRule}
  {producer consumer merged : Operator} {rest : List Operator}

/-! ## Pairs that a rule allows -/

/-- Two operators that a rule allows to be merged, wherever they stand. -/
structure Allows (g : Graph) (rule : FusionRule) (producer consumer : Operator) : Prop where
  producer_mem : producer ∈ g.nodes
  consumer_mem : consumer ∈ g.nodes
  reads : producer.output ∈ consumer.inputs
  not_output : producer.output ∉ g.outputs
  one_reader : readers g.nodes producer.output = 1
  classes : (rule producer.fusionClass consumer.fusionClass).isSome

/-- Whether a rule allows no operators of a graph to be merged. -/
def Fused (g : Graph) (rule : FusionRule) : Prop :=
  ∀ producer consumer, ¬ g.Allows rule producer consumer

/-- The order of the nodes does not matter to a rule. -/
theorem Fused.of_perm (h : g.Fused rule) (hperm : g'.nodes.Perm g.nodes) (houtputs : g'.outputs = g.outputs) :
    g'.Fused rule := by
  intro producer consumer hallows
  refine h producer consumer ⟨hperm.mem_iff.mp hallows.producer_mem, hperm.mem_iff.mp hallows.consumer_mem,
    hallows.reads, houtputs ▸ hallows.not_output, ?_, hallows.classes⟩
  exact (readers_eq_of_perm hperm).symm.trans hallows.one_reader

/-- The search for a pair finds one if there is one. -/
theorem firstPair?_eq_none_iff (hnodup : (outputsOf g.nodes).Nodup) : g.firstPair? rule = none ↔ g.Fused rule := by
  constructor
  · intro hnone producer consumer h
    obtain ⟨j, hj⟩ := List.mem_iff_getElem?.mp h.consumer_mem
    obtain ⟨i, op, hi, hat, hsame⟩ := exists_producer? h.producer_mem
    cases List.inj_on_of_nodup_map hnodup (List.mem_of_getElem? hat) h.producer_mem hsame
    obtain ⟨cls, hcls⟩ := Option.isSome_iff_exists.mp h.classes
    have hsearch := List.findSome?_eq_none_iff.mp hnone (consumer, j) (List.mem_zipIdx_iff_getElem?.mpr hj)
    have hpair := List.findSome?_eq_none_iff.mp hsearch producer.output h.reads
    have hfree : g.isOutput producer.output = false := by
      rw [isOutput, ← Bool.not_eq_true, List.contains_iff_mem]
      exact h.not_output
    have hone : (g.consumers producer.output).length = 1 := (length_consumers g producer.output).trans h.one_reader
    simp [pairAt?, hi, hat, hfree, hone, hcls] at hpair
  · intro h
    cases hpair : g.firstPair? rule with
    | none => rfl
    | some pair =>
      obtain ⟨producer, consumer, hproducer, hconsumer, hread, hnot, hone, hcls⟩ := exists_of_firstPair? hpair
      exact absurd ⟨List.mem_of_getElem? hproducer, List.mem_of_getElem? hconsumer, hread, hnot,
        (length_consumers g producer.output).symm.trans hone, Option.isSome_iff_exists.mpr ⟨pair.cls, hcls⟩⟩
        (h producer consumer)

/-- A pass with nothing to merge gives its graph back. -/
theorem Fused.fuseAll_eq (h : g.Fused rule) (hnodup : (outputsOf g.nodes).Nodup) : g.fuseAll rule = .ok g := by
  have hsteps : g.fuseSteps rule g.nodes.length false = .ok (false, g) := by
    cases g.nodes.length with
    | zero => rfl
    | succ fuel => rw [fuseSteps, (firstPair?_eq_none_iff hnodup).mpr h]
  rw [fuseAll, hsteps]
  rfl

/-! ## One merge -/

/-- The operators of a graph beside a pair, which stay when it is merged. -/
theorem Mergeable.exists_rest (h : g.Mergeable pair producer consumer) (merged : Operator)
    (hordered : Ordered known g.nodes) :
    ∃ rest, g.nodes.Perm (producer :: consumer :: rest) ∧
      ((g.nodes.set pair.consumer merged).eraseIdx pair.producer).Perm (merged :: rest) := by
  obtain ⟨before, between, after, hnodes, hmerged, -⟩ := h.exists_split merged hordered
  have hmiddle : ∀ op : Operator, (before ++ (between ++ op :: after)).Perm (op :: (before ++ (between ++ after))) :=
    fun op => (List.perm_middle.append_left before).trans List.perm_middle
  refine ⟨before ++ (between ++ after), ?_, hmerged ▸ hmiddle merged⟩
  rw [hnodes]
  exact List.perm_middle.trans ((hmiddle consumer).cons producer)

/-- Beside the tensor that is no longer there a merged operator reads what the two read that it was merged from. -/
theorem Merged.mem_inputs (hm : Merged pair producer consumer merged) (hread : producer.output ∈ consumer.inputs)
    {id : TensorId} (hne : id ≠ producer.output) :
    id ∈ merged.inputs ↔ id ∈ producer.inputs ∨ id ∈ consumer.inputs := by
  rw [hm.inputs, mem_mergedInputs]
  simp [hread, hne]

/-- What an operator computes after a merge was computed before it, by the operator itself or by the consumer. -/
theorem Merged.exists_old (hm : Merged pair producer consumer merged)
    (hnodup : (outputsOf (producer :: consumer :: rest)).Nodup) {op : Operator} (hop : op ∈ merged :: rest) :
    op.output ≠ producer.output ∧
      ∃ old ∈ consumer :: rest, old.output = op.output ∧ (op = merged ∧ old = consumer ∨ op = old) := by
  have hother : ∀ old ∈ consumer :: rest, old.output ≠ producer.output := fun old hold hsame =>
    (List.nodup_cons.mp hnodup).1 (mem_outputsOf.mpr ⟨old, hold, hsame⟩)
  rcases List.mem_cons.mp hop with rfl | hop
  · rw [hm.output]
    exact ⟨hother consumer List.mem_cons_self, consumer, List.mem_cons_self, rfl, Or.inl ⟨rfl, rfl⟩⟩
  · have hold := List.mem_cons_of_mem consumer hop
    exact ⟨hother op hold, op, hold, rfl, Or.inr rfl⟩

/-- After a merge every operator is still needed. -/
theorem Needed.merge (hneeded : g.Needed) (hordered : Ordered known g.nodes) (h : g.Mergeable pair producer consumer)
    (hm : Merged pair producer consumer merged) :
    Needed { g with nodes := (g.nodes.set pair.consumer merged).eraseIdx pair.producer } := by
  obtain ⟨rest, hbefore, hafter⟩ := h.exists_rest merged hordered
  have hnodup := (hbefore.map Operator.output).nodup_iff.mp hordered.nodup_outputsOf
  intro op hop
  obtain ⟨hne, old, hold, hsame, -⟩ := hm.exists_old hnodup (hafter.mem_iff.mp hop)
  rw [← hsame] at hne ⊢
  refine (hneeded old (hbefore.mem_iff.mpr (List.mem_cons_of_mem _ hold))).imp_right fun ⟨reader, hreader, hread⟩ => ?_
  -- what the producer or the consumer read, the merged operator reads
  rcases List.mem_cons.mp (hbefore.mem_iff.mp hreader) with rfl | hreader
  · exact ⟨merged, hafter.mem_iff.mpr List.mem_cons_self, (hm.mem_inputs h.reads hne).mpr (Or.inl hread)⟩
  rcases List.mem_cons.mp hreader with rfl | hreader
  · exact ⟨merged, hafter.mem_iff.mpr List.mem_cons_self, (hm.mem_inputs h.reads hne).mpr (Or.inr hread)⟩
  · exact ⟨reader, hafter.mem_iff.mpr (List.mem_cons_of_mem _ hreader), hread⟩

/-- A merge makes no pairs for a rule that merges nothing into the result, and the result only into what the consumer could
be merged into. -/
theorem Fused.merge (hfused : g.Fused other) (hordered : Ordered known g.nodes)
    (h : g.Mergeable pair producer consumer) (hm : Merged pair producer consumer merged)
    (hinto : ∀ p, other p pair.cls = none)
    (hfrom : ∀ c, (other pair.cls c).isSome → (other consumer.fusionClass c).isSome) :
    Fused { g with nodes := (g.nodes.set pair.consumer merged).eraseIdx pair.producer } other := by
  obtain ⟨rest, hbefore, hafter⟩ := h.exists_rest merged hordered
  have hnodup := (hbefore.map Operator.output).nodup_iff.mp hordered.nodup_outputsOf
  intro p c hallows
  obtain ⟨hne, old, hold, hsame, hclass⟩ := hm.exists_old hnodup (hafter.mem_iff.mp hallows.producer_mem)
  have hc : c ∈ rest := by
    refine (List.mem_cons.mp (hafter.mem_iff.mp hallows.consumer_mem)).resolve_left ?_
    rintro rfl
    have hnone := hallows.classes
    rw [hm.fusionClass, hinto] at hnone
    cases hnone
  have hclasses : (other old.fusionClass c.fusionClass).isSome := by
    rcases hclass with ⟨rfl, rfl⟩ | rfl
    · exact hfrom _ (hm.fusionClass ▸ hallows.classes)
    · exact hallows.classes
  -- `c` is the one reader, so the merged operator does not read the tensor, and neither did the two it was merged from
  have hone : readers (merged :: rest) p.output = 1 := (readers_eq_of_perm hafter).symm.trans hallows.one_reader
  have hreader : 0 < readers rest p.output := readers_pos hc hallows.reads
  have hmerged : p.output ∉ merged.inputs := by
    intro hread
    rw [readers_cons_of_mem hread] at hone
    omega
  obtain ⟨hproducer, hconsumer⟩ := not_or.mp (mt (hm.mem_inputs h.reads hne).mpr hmerged)
  refine hfused old c ⟨hbefore.mem_iff.mpr (List.mem_cons_of_mem _ hold), ?_, hsame ▸ hallows.reads,
    hsame ▸ hallows.not_output, ?_, hclasses⟩
  · exact hbefore.mem_iff.mpr (List.mem_cons_of_mem _ (List.mem_cons_of_mem _ hc))
  · rw [hsame, readers_eq_of_perm hbefore, readers_cons_of_not_mem hproducer, readers_cons_of_not_mem hconsumer]
    rwa [readers_cons_of_not_mem hmerged] at hone

/-! ## Passes -/

/-- What a fusion pass leads to: a graph in which its rule allows no pair, nor any rule that it respects and that allowed
none before. -/
structure Settles (k : ElementKind) (rule : FusionRule) (g g' : Graph) : Prop where
  trim : g'.Trim k
  fused : g'.Fused rule
  keeps : ∀ other, rule.Respects other → g.Fused other → g'.Fused other

/-- What one merge keeps, a run of merges keeps until the rule allows no pair: every merge removes an operator, so the fuel
lasts. -/
theorem WellFormed.fused_fuseSteps {P : Graph → Prop} (hrule : rule.Sound)
    (hmerge : ∀ {g : Graph} {pair : FusionPair} {producer consumer merged : Operator}, g.WellFormed k → P g →
      g.Mergeable pair producer consumer → Merged pair producer consumer merged →
      rule producer.fusionClass consumer.fusionClass = some pair.cls →
      P { g with nodes := (g.nodes.set pair.consumer merged).eraseIdx pair.producer })
    {fuel : Nat} {changed changed' : Bool} (hg : g.WellFormed k) (hP : P g) (hfuel : g.nodes.length ≤ fuel)
    (hsteps : g.fuseSteps rule fuel changed = .ok (changed', g')) : g'.WellFormed k ∧ P g' ∧ g'.Fused rule := by
  induction fuel generalizing g changed with
  | zero =>
    cases hsteps
    have hempty : g'.nodes = [] := List.eq_nil_of_length_eq_zero (Nat.le_zero.mp hfuel)
    exact ⟨hg, hP, fun producer consumer h => by simpa [hempty] using h.producer_mem⟩
  | succ fuel ih =>
    rw [fuseSteps] at hsteps
    cases hpair : g.firstPair? rule with
    | none =>
      rw [hpair] at hsteps
      cases hsteps
      exact ⟨hg, hP, (firstPair?_eq_none_iff hg.ordered.nodup_outputsOf).mp hpair⟩
    | some pair =>
      simp only [hpair] at hsteps
      obtain ⟨producer, consumer, h, hcls⟩ := exists_mergeable hrule hpair
      obtain ⟨merged, hfuse, hwell, hm⟩ := hg.fuse h
      rw [hfuse] at hsteps
      have hlength : ((g.nodes.set pair.consumer merged).eraseIdx pair.producer).length + 1 = g.nodes.length := by
        have hlt : pair.producer < (g.nodes.set pair.consumer merged).length := by
          rw [List.length_set]
          exact (List.getElem?_eq_some_iff.mp h.producer_at).1
        rw [List.length_eraseIdx_add_one hlt, List.length_set]
      exact ih hwell (hmerge hg hP h hm hcls) (by simp only; omega) hsteps

theorem Trim.settles_fuseSteps (hrule : rule.Sound) {fuel : Nat} {changed changed' : Bool} (hg : g.Trim k)
    (hfuel : g.nodes.length ≤ fuel) (hsteps : g.fuseSteps rule fuel changed = .ok (changed', g')) :
    Settles k rule g g' := by
  obtain ⟨hwell, ⟨hneeded, hkeeps⟩, hfused⟩ := hg.toWellFormed.fused_fuseSteps
    (P := fun g' => g'.Needed ∧ ∀ other, rule.Respects other → g.Fused other → g'.Fused other) hrule
    (fun hwell hP h hm hcls => ⟨hP.1.merge hwell.ordered h hm, fun other hrespects hother =>
      (hP.2 other hrespects hother).merge hwell.ordered h hm (hrespects _ _ _ hcls).1 (hrespects _ _ _ hcls).2⟩)
    ⟨hg.needed, fun _ _ hother => hother⟩ hfuel hsteps
  exact ⟨⟨hwell, hneeded⟩, hfused, hkeeps⟩

theorem outputs_normalize (hnormal : g.normalize = .ok g') : g'.outputs = g.outputs := by
  obtain ⟨live, -, rfl⟩ := normalize_eq_ok_iff.mp hnormal
  rfl

theorem Trim.fused_normalize (hg : g.Trim k) (hnormal : g.normalize = .ok g') (h : g.Fused rule) : g'.Fused rule :=
  h.of_perm (hg.perm_normalize hnormal) (outputs_normalize hnormal)

variable [FloatOps]

/-- A fusion pass over a graph whose operators are all needed. -/
theorem Trim.settles_fuseAll (hrule : rule.Sound) (hg : g.Trim k) (hfuse : g.fuseAll rule = .ok g') :
    Settles k rule g g' := by
  obtain ⟨⟨changed, fused⟩, hsteps, hrest⟩ := bind_eq_ok_iff.mp hfuse
  have hsettles := hg.settles_fuseSteps hrule Nat.le.refl hsteps
  cases changed with
  | false =>
    cases hrest
    exact hsettles
  | true =>
    obtain ⟨htrim, hfused, hkeeps⟩ := hsettles
    exact ⟨htrim.toWellFormed.trim_normalize hrest, htrim.fused_normalize hrest hfused,
      fun other hrespects hother => htrim.fused_normalize hrest (hkeeps other hrespects hother)⟩

/-- Folding that reports no change made none. -/
theorem eq_of_foldSteps {fuel : Nat} {setAside : List TensorId} {changed : Bool}
    (hsteps : g.foldSteps fuel setAside changed = .ok (false, g')) : changed = false ∧ g' = g := by
  induction fuel generalizing g setAside changed with
  | zero =>
    cases hsteps
    exact ⟨rfl, rfl⟩
  | succ fuel ih =>
    rw [foldSteps] at hsteps
    obtain ⟨found, -, hrest⟩ := bind_eq_ok_iff.mp hsteps
    cases found with
    | none =>
      cases hrest
      exact ⟨rfl, rfl⟩
    | some op =>
      simp only at hrest
      split at hrest
      · exact ih hrest
      · obtain ⟨next, -, hrest⟩ := bind_eq_ok_iff.mp hrest
        exact absurd (ih hrest).1 (by simp)

theorem Trim.foldConstants (hg : g.Trim k) (hfold : g.foldConstants = .ok g') : g'.Trim k := by
  obtain ⟨changed, folded, hsteps, hwell⟩ := hg.toWellFormed.exists_foldSteps g.nodes.length [] false
  rw [Graph.foldConstants, hsteps] at hfold
  cases changed with
  | false =>
    cases hfold
    exact (eq_of_foldSteps hsteps).2 ▸ hg
  | true => exact hwell.trim_normalize hfold

theorem Trim.simplifyAlgebra (hg : g.Trim k) (hsimplify : g.simplifyAlgebra = .ok g') : g'.Trim k := by
  obtain ⟨map, hmap, hfits⟩ := hg.toWellFormed.exists_replacements
  obtain ⟨rewired, hrewired, hwell⟩ := hg.toWellFormed.exists_rewire hfits
  rw [Graph.simplifyAlgebra, hmap, bind_ok] at hsimplify
  split_ifs at hsimplify
  · cases hsimplify
    exact hg
  · rw [hrewired, bind_ok] at hsimplify
    exact hwell.trim_normalize hsimplify

/-! ## The pipeline -/

/-- An optimized graph: no fusion rule allows a pair, and the normal form changes nothing. -/
theorem WellFormed.settled_optimize (hg : g.WellFormed k) (hoptimize : g.optimize = .ok g') :
    g'.Trim k ∧ g'.normalize = .ok g' ∧ g'.Fused .unary ∧ g'.Fused .epilogue ∧ g'.Fused .prologue := by
  obtain ⟨run, hrun, rfl⟩ := optimize_eq_ok_iff.mp hoptimize
  obtain ⟨hstart, last, hsteps, hnormal⟩ := run_eq_ok_iff.mp hrun
  obtain ⟨folded, _, hfolded, hsteps, -⟩ := runSteps_cons_eq_ok_iff.mp hsteps
  obtain ⟨simplified, _, hsimplified, hsteps, -⟩ := runSteps_cons_eq_ok_iff.mp hsteps
  obtain ⟨unary, _, hunary, hsteps, -⟩ := runSteps_cons_eq_ok_iff.mp hsteps
  obtain ⟨epilogue, _, hepilogue, hsteps, -⟩ := runSteps_cons_eq_ok_iff.mp hsteps
  obtain ⟨prologue, _, hprologue, hsteps, -⟩ := runSteps_cons_eq_ok_iff.mp hsteps
  cases hsteps
  -- each pass settles its own rule and leaves those of the passes before it settled
  have htrim := ((hg.trim_normalize hstart).foldConstants hfolded).simplifyAlgebra hsimplified
  have hu := htrim.settles_fuseAll FusionRule.unary_sound hunary
  have he := hu.trim.settles_fuseAll FusionRule.epilogue_sound hepilogue
  have hp := he.trim.settles_fuseAll FusionRule.prologue_sound hprologue
  refine ⟨hp.trim.trim_normalize hnormal, normalize_normalize hp.trim.ordered.nodup_outputsOf hnormal,
    hp.trim.fused_normalize hnormal ?_, hp.trim.fused_normalize hnormal ?_, hp.trim.fused_normalize hnormal hp.fused⟩
  · exact hp.keeps _ (FusionRule.respects_unary FusionRule.eq_anchor_of_prologue)
      (he.keeps _ (FusionRule.respects_unary FusionRule.eq_anchor_of_epilogue) hu.fused)
  · exact hp.keeps _ FusionRule.prologue_respects_epilogue he.fused

/-- Fusion reaches a fixed point in one run of the pipeline: every graph that can be built is optimized to one that each
fusion pass gives back as it is, alone and in a run of the three. -/
theorem optimize_fixedPoint_of_isFusion (steps : List BuildStep) :
    ∃ h, (build steps).optimize = .ok h ∧ (∀ pass : GraphPass, pass.isFusion → pass.run h = .ok h) ∧
      PassRun.run [.fuseUnary, .fuseEpilogue, .fusePrologue] h =
        .ok ⟨h, [(.fuseUnary, h), (.fuseEpilogue, h), (.fusePrologue, h)], h⟩ := by
  have hwell := wellFormed_build_mixed steps
  obtain ⟨run, hrun, -⟩ := hwell.exists_run GraphPass.pipeline
  have hoptimize := optimize_eq_ok_iff.mpr ⟨run, hrun, rfl⟩
  obtain ⟨htrim, hnormal, hunary, hepilogue, hprologue⟩ := hwell.settled_optimize hoptimize
  have hnodup := htrim.ordered.nodup_outputsOf
  have hpass : ∀ pass : GraphPass, pass.isFusion → pass.run run.result = .ok run.result := by
    intro pass hpass
    cases pass with
    | fuseUnary => exact hunary.fuseAll_eq hnodup
    | fuseEpilogue => exact hepilogue.fuseAll_eq hnodup
    | fusePrologue => exact hprologue.fuseAll_eq hnodup
    | constFold | patternTransform => cases hpass
  refine ⟨run.result, hoptimize, hpass, run_eq_ok_iff.mpr ⟨hnormal, run.result, ?_, hnormal⟩⟩
  refine runSteps_cons_eq_ok_iff.mpr ⟨_, _, hpass .fuseUnary rfl, ?_, rfl⟩
  refine runSteps_cons_eq_ok_iff.mpr ⟨_, _, hpass .fuseEpilogue rfl, ?_, rfl⟩
  exact runSteps_cons_eq_ok_iff.mpr ⟨_, _, hpass .fusePrologue rfl, rfl, rfl⟩

end Graph

end TensorCompiler
