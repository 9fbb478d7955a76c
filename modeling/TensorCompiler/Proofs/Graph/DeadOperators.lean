import TensorCompiler.Compile
import TensorCompiler.Proofs.Graph.Interface

/-! # Operators that nothing needs

The users of a graph may append operators and constants that no output depends on. They take tensor numbers, and nothing
else of them is left in the normal form, which every pass starts from. No pass reads the number of the next tensor, so a
graph with such operators is optimized and compiled as the graph without them.
-/

namespace TensorCompiler

namespace Graph

variable {g g' g'' : Graph}

/-! ## Passes do not read the number of the next tensor -/

/-- The graph with another number for the next tensor. -/
def withNextId (n : TensorId) (g : Graph) : Graph :=
  { g with nextId := n }

@[simp] theorem nodes_withNextId (n : TensorId) (g : Graph) : (g.withNextId n).nodes = g.nodes := rfl

/-- Whether a transform of graphs neither reads nor changes the number of the next tensor. -/
def IgnoresNextId (transform : Graph → Except Error Graph) : Prop :=
  ∀ n g, transform (g.withNextId n) = withNextId n <$> transform g

namespace IgnoresNextId

variable {α : Type}

/-- Steps of which none reads the number of the next tensor, taken one after the other. -/
theorem foldlM {step : Graph → α → Except Error Graph} (h : ∀ x, IgnoresNextId fun g => step g x) (xs : List α) :
    IgnoresNextId fun g => xs.foldlM step g := by
  intro n g
  induction xs generalizing g with
  | nil => rfl
  | cons x xs ih =>
    have hstep : step (g.withNextId n) x = withNextId n <$> step g x := h x n g
    simp only [List.foldlM_cons, hstep, bind_map_left, map_bind]
    exact bind_congr ih

theorem bind {first second : Graph → Except Error Graph} (h : IgnoresNextId first) (h' : IgnoresNextId second) :
    IgnoresNextId fun g => first g >>= second := by
  intro n g
  simp only [h n g, bind_map_left, map_bind]
  exact bind_congr (h' n)

end IgnoresNextId

theorem ignoresNextId_normalize : IgnoresNextId normalize := by
  intro n g
  change (g.liveNodes >>= fun live => _) = withNextId n <$> (g.liveNodes >>= fun live => _)
  rw [map_bind]
  rfl

theorem operator_withNextId (n : TensorId) (g : Graph) (kind : OpKind) (inputs : List TensorId) (output : TensorId)
    (c : TensorCompute) :
    (g.withNextId n).operator kind inputs output c =
      (fun r : Operator × Graph => (r.1, r.2.withNextId n)) <$> g.operator kind inputs output c := by
  rw [operator, operator]
  cases TensorCompute.constShape? { c with name := output.name } with
  | none => rfl
  | some shape =>
    simp only [map_bind]
    rfl

theorem ignoresNextId_setConstant (id : TensorId) (value : NDArray) : IgnoresNextId fun g => g.setConstant id value := by
  intro n g
  have hremove : (g.withNextId n).removeProducer id = (g.removeProducer id).withNextId n := by
    have hproducer : (g.withNextId n).producer? id = g.producer? id := rfl
    rw [removeProducer, removeProducer, hproducer]
    cases g.producer? id <;> rfl
  simp only [setConstant, hremove, recordConstant, map_bind]
  rfl

theorem ignoresNextId_replaceInput (index : Nat) (old new : TensorId) :
    IgnoresNextId fun g => g.replaceInput index old new := by
  intro n g
  simp only [replaceInput, nodes_withNextId]
  cases g.nodes[index]? with
  | none => rfl
  | some op =>
    simp only [map_bind]
    refine bind_congr fun before => bind_congr fun after => ?_
    split_ifs
    · simp only [map_bind, operator_withNextId, bind_map_left]
      rfl
    · rfl

theorem ignoresNextId_rewireNode (map : Replacements) (index : Nat) : IgnoresNextId fun g => rewireNode map g index := by
  intro n g
  simp only [rewireNode, nodes_withNextId]
  cases g.nodes[index]? with
  | none => rfl
  | some op =>
    refine IgnoresNextId.foldlM (fun old => ?_) op.inputs n g
    intro n g
    change (if resolve map old = old then _ else _) = withNextId n <$> (if resolve map old = old then _ else _)
    split_ifs
    · rfl
    · exact ignoresNextId_replaceInput index old _ n g

theorem firstIdentity_withNextId [FloatOps] (n : TensorId) (g : Graph) (entries : List (TensorId × TensorId × Float)) :
    (g.withNextId n).firstIdentity entries = g.firstIdentity entries := by
  induction entries with
  | nil => rfl
  | cons entry entries ih =>
    obtain ⟨kept, other, x⟩ := entry
    simp only [firstIdentity, ih]
    rfl

theorem replacements_withNextId [FloatOps] (n : TensorId) (g : Graph) :
    (g.withNextId n).replacements = g.replacements := by
  have hreplacement : ∀ op, (g.withNextId n).replacement? op = g.replacement? op := by
    intro op
    simp only [replacement?, simplified?, firstIdentity_withNextId]
    rfl
  simp only [replacements, hreplacement]
  rfl

theorem ignoresNextId_simplifyAlgebra [FloatOps] : IgnoresNextId simplifyAlgebra := by
  intro n g
  simp only [simplifyAlgebra, replacements_withNextId, map_bind]
  refine bind_congr fun map => ?_
  split_ifs
  · rfl
  · exact ((IgnoresNextId.foldlM (ignoresNextId_rewireNode map) _).bind ignoresNextId_normalize) n g

theorem ignoresNextId_fuse (pair : FusionPair) : IgnoresNextId fun g => g.fuse pair := by
  intro n g
  simp only [fuse, nodes_withNextId]
  split
  · simp only [operator_withNextId, bind_map_left, map_bind]
    rfl
  · rfl

theorem fuseSteps_withNextId (rule : FusionRule) (fuel : Nat) (changed : Bool) (n : TensorId) (g : Graph) :
    fuseSteps rule fuel changed (g.withNextId n) = Prod.map id (withNextId n) <$> fuseSteps rule fuel changed g := by
  induction fuel generalizing changed g with
  | zero => rfl
  | succ fuel ih =>
    have hpair : (g.withNextId n).firstPair? rule = g.firstPair? rule := rfl
    have hfuse := fun pair => ignoresNextId_fuse pair n g
    simp only [fuseSteps, hpair]
    cases g.firstPair? rule with
    | none => rfl
    | some pair =>
      simp only [hfuse, bind_map_left, map_bind]
      exact bind_congr fun next => ih true next

theorem firstFoldable_withNextId (n : TensorId) (g : Graph) (setAside : List TensorId) (ops : List Operator) :
    (g.withNextId n).firstFoldable setAside ops = g.firstFoldable setAside ops := by
  induction ops with
  | nil => rfl
  | cons op ops ih =>
    simp only [firstFoldable, ih]
    rfl

theorem foldSteps_withNextId [FloatOps] (fuel : Nat) (setAside : List TensorId) (changed : Bool) (n : TensorId)
    (g : Graph) :
    foldSteps fuel setAside changed (g.withNextId n) = Prod.map id (withNextId n) <$> foldSteps fuel setAside changed g := by
  induction fuel generalizing setAside changed g with
  | zero => rfl
  | succ fuel ih =>
    have hset := fun id value => ignoresNextId_setConstant id value n g
    simp only [foldSteps, nodes_withNextId, firstFoldable_withNextId, map_bind]
    refine bind_congr fun found => ?_
    cases found with
    | none => rfl
    | some op =>
      have hconstants : (g.withNextId n).constants op.inputs = g.constants op.inputs := rfl
      simp only [hconstants]
      cases op.computation.evaluate (g.constants op.inputs) with
      | error e => exact ih (op.output :: setAside) changed g
      | ok value =>
        simp only [hset, bind_map_left, map_bind]
        exact bind_congr fun next => ih setAside true next

/-- Steps that tell whether they changed a graph, which is brought into normal form if they did. -/
theorem IgnoresNextId.ofSteps {steps : Graph → Except Error (Bool × Graph)}
    (h : ∀ n g, steps (g.withNextId n) = Prod.map id (withNextId n) <$> steps g) :
    IgnoresNextId fun g => steps g >>= fun result => if result.1 then result.2.normalize else .ok result.2 := by
  intro n g
  simp only [h, bind_map_left, map_bind]
  refine bind_congr fun result => ?_
  obtain ⟨changed, last⟩ := result
  cases changed with
  | false => rfl
  | true => exact ignoresNextId_normalize n last

theorem ignoresNextId_runPass [FloatOps] (pass : GraphPass) : IgnoresNextId pass.run := by
  have hfold : IgnoresNextId foldConstants :=
    IgnoresNextId.ofSteps fun n g => foldSteps_withNextId g.nodes.length [] false n g
  have hfuse : ∀ rule, IgnoresNextId (fuseAll rule) := fun rule =>
    IgnoresNextId.ofSteps fun n g => fuseSteps_withNextId rule g.nodes.length false n g
  cases pass with
  | constFold => exact hfold
  | patternTransform => exact ignoresNextId_simplifyAlgebra
  | fuseUnary | fuseEpilogue | fusePrologue => exact hfuse _

/-- What a run of passes ends with is the normal form of what the passes make of the normal form. -/
theorem result_run [FloatOps] (passes : List GraphPass) (g : Graph) :
    PassRun.result <$> PassRun.run passes g =
      g.normalize >>= fun start => passes.foldlM (fun g pass => pass.run g) start >>= normalize := by
  have hlast : ∀ start, Prod.snd <$> PassRun.runSteps start passes = passes.foldlM (fun g pass => pass.run g) start := by
    induction passes with
    | nil => exact fun _ => rfl
    | cons pass passes ih =>
      intro start
      simp only [PassRun.runSteps, List.foldlM_cons, map_bind]
      refine bind_congr fun after => ?_
      rw [← ih after, ← bind_pure_comp]
      rfl
  simp only [PassRun.run, map_bind]
  refine bind_congr fun start => ?_
  rw [← hlast start, bind_map_left]
  refine bind_congr fun steps => ?_
  exact bind_pure _

/-! ## Appending -/

/-- Whether a graph is another one with more operators and tensors behind the old ones, under numbers that were not
taken. -/
structure Extends (g g' : Graph) : Prop where
  nodes : ∃ added, g'.nodes = g.nodes ++ added ∧ ∀ op ∈ added, g.nextId ≤ op.output ∧ op.output < g'.nextId
  tensors : ∃ added, g'.tensors = g.tensors ++ added ∧ ∀ entry ∈ added, g.nextId ≤ entry.1 ∧ entry.1 < g'.nextId
  inputs : g'.inputs = g.inputs
  outputs : g'.outputs = g.outputs
  nextId : g.nextId ≤ g'.nextId

namespace Extends

theorem refl (g : Graph) : g.Extends g :=
  ⟨⟨[], (List.append_nil _).symm, by simp⟩, ⟨[], (List.append_nil _).symm, by simp⟩, rfl, rfl, Nat.le_refl _⟩

theorem trans (h : g.Extends g') (h' : g'.Extends g'') : g.Extends g'' := by
  obtain ⟨ops, hops, hnew⟩ := h.nodes
  obtain ⟨ops', hops', hnew'⟩ := h'.nodes
  obtain ⟨entries, hentries, hfresh⟩ := h.tensors
  obtain ⟨entries', hentries', hfresh'⟩ := h'.tensors
  have hlower := h.nextId
  have hupper := h'.nextId
  refine ⟨⟨ops ++ ops', ?_, fun op hop => ?_⟩, ⟨entries ++ entries', ?_, fun entry hentry => ?_⟩,
    h'.inputs.trans h.inputs, h'.outputs.trans h.outputs, Nat.le_trans hlower hupper⟩
  · rw [hops', hops, List.append_assoc]
  · rcases List.mem_append.mp hop with hop | hop
    · exact ⟨(hnew op hop).1, Nat.lt_of_lt_of_le (hnew op hop).2 hupper⟩
    · exact ⟨Nat.le_trans hlower (hnew' op hop).1, (hnew' op hop).2⟩
  · rw [hentries', hentries, List.append_assoc]
  · rcases List.mem_append.mp hentry with hentry | hentry
    · exact ⟨(hfresh entry hentry).1, Nat.lt_of_lt_of_le (hfresh entry hentry).2 hupper⟩
    · exact ⟨Nat.le_trans hlower (hfresh' entry hentry).1, (hfresh' entry hentry).2⟩

/-- A step that makes a constant or an operator extends a graph. -/
theorem apply (h : g.Built .mixed) {step : BuildStep} (hstep : step.isInternal) : g.Extends (step.apply g) := by
  have hbelow : ∀ entry ∈ g.tensors, entry.1 < g.nextId := fun entry hentry =>
    h.linked.below _ _ ((TensorTable.Sorted.lookup_eq_some_iff h.sorted).mpr hentry)
  refine BuildStep.apply_induct hstep (refl g) (fun value dtype => ?_) fun kind inputs define => ?_
  · refine ⟨⟨[], (List.append_nil _).symm, by simp⟩, ⟨_, TensorTable.insert_eq_append hbelow _, ?_⟩, rfl, rfl,
      Nat.le_succ _⟩
    exact List.forall_mem_singleton.mpr ⟨Nat.le_refl _, Nat.lt_succ_self _⟩
  · rcases GraphM.stateAfter_addOperator kind inputs define g with hafter | hafter
    · rw [hafter]
      exact refl g
    rw [hafter]
    cases hop : Graph.operator { g with nextId := g.nextId + 1 } kind inputs g.nextId
        (define (TensorId.name g.nextId)) with
    | error e =>
      exact ⟨⟨[], (List.append_nil _).symm, by simp⟩, ⟨[], (List.append_nil _).symm, by simp⟩, rfl, rfl, Nat.le_succ _⟩
    | ok result =>
      obtain ⟨op, grown⟩ := result
      obtain ⟨d, shape, args, task, -, -, -, -, rfl, rfl⟩ := operator_eq_ok_iff.mp hop
      refine ⟨⟨_, rfl, ?_⟩, ⟨_, TensorTable.insert_eq_append hbelow _, ?_⟩, rfl, rfl, Nat.le_succ _⟩
      · exact List.forall_mem_singleton.mpr ⟨Nat.le_refl _, Nat.lt_succ_self _⟩
      · exact List.forall_mem_singleton.mpr ⟨Nat.le_refl _, Nat.lt_succ_self _⟩

/-- Steps that make constants and operators extend a graph. -/
theorem build_append (steps : List BuildStep) {extra : List BuildStep} (hextra : ∀ step ∈ extra, step.isInternal) :
    (build steps).Extends (build (steps ++ extra)) := by
  induction extra generalizing steps with
  | nil =>
    rw [List.append_nil]
    exact refl _
  | cons step extra ih =>
    have hfirst : (build steps).Extends (build (steps ++ [step])) := by
      rw [build, build, List.foldl_append]
      exact apply (built_build_mixed steps) (hextra step List.mem_cons_self)
    rw [List.append_cons]
    have hrest := ih (steps ++ [step]) fun step hstep => hextra step (List.mem_cons_of_mem _ hstep)
    exact hfirst.trans hrest

end Extends

/-- The operators of a graph that was built compute and read tensors that have their numbers. -/
theorem Built.operator_lt {k : ElementKind} {op : Operator} (h : g.Built k) (hop : op ∈ g.nodes) :
    op.output < g.nextId ∧ ∀ id ∈ op.inputs, id < g.nextId := by
  obtain ⟨d, shape, hcomputes⟩ := h.linked.computed op hop
  obtain ⟨source, hlookup⟩ := TensorTable.type?_eq_some_iff.mp hcomputes.recorded
  refine ⟨h.linked.below _ _ hlookup, fun id hid => ?_⟩
  obtain ⟨d', shape', htype⟩ := hcomputes.exists_type_of_mem_inputs hid
  obtain ⟨source', hlookup'⟩ := TensorTable.type?_eq_some_iff.mp htype
  exact h.linked.below _ _ hlookup'

/-- No operator that extends a graph is needed, if no output is new. -/
theorem Extends.liveNodes_eq (h : g.Extends g') (hg : g.Built .mixed) (hg' : g'.Built .mixed)
    (hnew : ∀ id, g.nextId ≤ id → id < g'.nextId → id ∉ g'.outputs) : g.liveNodes = g'.liveNodes := by
  obtain ⟨ops, hops, hfresh⟩ := h.nodes
  -- what an operator of the extended graph computes is new unless an old operator computes it
  have hold : ∀ id ∈ outputsOf g'.nodes, ¬(g.nextId ≤ id ∧ id < g'.nextId) → id ∈ outputsOf g.nodes := by
    intro id hid hnot
    obtain ⟨op, hop, rfl⟩ := mem_outputsOf.mp hid
    rw [hops] at hop
    rcases List.mem_append.mp hop with hop | hop
    · exact mem_outputsOf.mpr ⟨op, hop, rfl⟩
    · exact absurd (hfresh op hop) hnot
  refine liveNodes_of_subset hg'.ordered.nodup_outputsOf hg.ordered.nodup_outputsOf
    (fun op hop => hops ▸ List.mem_append_left _ hop) h.outputs.symm
    (fun id hid hcomputed => hold id hcomputed fun hrange => hnew id hrange.1 hrange.2 hid)
    fun op hop id hid hcomputed => hold id hcomputed fun hrange => ?_
  exact absurd ((hg.operator_lt hop).2 id hid) (Nat.not_lt.mpr hrange.1)

/-- The normal form of an extended graph is that of the graph, if no output is new. -/
theorem Extends.normalize (h : g.Extends g') (hg : g.Built .mixed) (hg' : g'.Built .mixed) (hdeclared : g.Declared)
    (hnew : ∀ id, g.nextId ≤ id → id < g'.nextId → id ∉ g'.outputs) :
    g'.normalize = withNextId g'.nextId <$> g.normalize := by
  obtain ⟨entries, hentries, hfresh⟩ := h.tensors
  have hlive := h.liveNodes_eq hg hg' hnew
  obtain ⟨live, hlive', -, hsubset, -⟩ := exists_liveNodes hg.ordered
  rw [normalize_eq_ok_iff.mpr ⟨live, hlive', rfl⟩, normalize_eq_ok_iff.mpr ⟨live, hlive ▸ hlive', rfl⟩]
  have hmentions : mentions { g' with nodes := live } = mentions { g with nodes := live } := by
    funext id
    simp only [mentions, h.inputs, h.outputs]
  -- a tensor that was added is no input or output, and no needed operator reads or computes it
  have hforgotten : ∀ entry ∈ entries, ¬mentions { g with nodes := live } entry.1 := by
    intro entry hentry hmentioned
    obtain ⟨hlower, hupper⟩ := hfresh entry hentry
    simp only [mentions, Bool.or_eq_true, List.contains_iff_mem, List.any_eq_true, beq_iff_eq] at hmentioned
    rcases hmentioned with (hinput | houtput) | ⟨op, hop, hread | hcomputed⟩
    · exact absurd (hdeclared.below _ hinput) (Nat.not_lt.mpr hlower)
    · exact hnew _ hlower hupper (h.outputs ▸ houtput)
    · exact absurd ((hg.operator_lt (hsubset op hop)).2 _ hread) (Nat.not_lt.mpr hlower)
    · exact absurd (hcomputed ▸ (hg.operator_lt (hsubset op hop)).1) (Nat.not_lt.mpr hlower)
  have htensors : (g'.tensors.filter fun entry => mentions { g' with nodes := live } entry.1) =
      g.tensors.filter fun entry => mentions { g with nodes := live } entry.1 := by
    rw [hmentions, hentries, List.filter_append, List.filter_eq_nil_iff.mpr hforgotten, List.append_nil]
  change Except.ok _ = Except.ok _
  rw [htensors, h.inputs, h.outputs]
  rfl

/-! ## Optimizing and compiling -/

section

variable [FloatOps]

theorem optimize_eq_of_normalize {n : TensorId} (h : g'.normalize = withNextId n <$> g.normalize) :
    g'.optimize = withNextId n <$> g.optimize := by
  have hresult : ∀ g : Graph, g.optimize = PassRun.result <$> PassRun.run GraphPass.pipeline g := fun g =>
    bind_pure_comp _ _
  have hpasses : IgnoresNextId fun g => GraphPass.pipeline.foldlM (fun g pass => pass.run g) g :=
    .foldlM ignoresNextId_runPass GraphPass.pipeline
  rw [hresult, hresult, result_run, result_run, h, bind_map_left, map_bind]
  exact bind_congr fun start => (hpasses.bind ignoresNextId_normalize) n start

/-- A compilation reads the optimized graph only. -/
theorem compile_eq_optimize_bind (g : Graph) (registry : Registry) (options : CompileOptions) :
    (fun c => (c.tasks, c.module)) <$> g.compile registry options = (do
      let optimized ← g.optimize
      let tasks := optimized.launchTasks options.blockSize
      let m ← dispatchAll registry tasks
      let m ← if options.lower then Lowerer.canonical.run m else pure m
      pure (tasks.map Task.name, m)) := by
  simp only [compile, optimize, map_bind, bind_assoc, pure_bind]
  refine bind_congr fun run => bind_congr fun m => ?_
  split_ifs
  · exact map_bind _ _ _
  · rfl

/-- Operators and constants that no output depends on change nothing about what a graph is optimized and compiled to:
appended to a graph that was built, they leave the operators, inputs, outputs and tensors of the optimized graph, and the
tasks and the module, or the error, that any registry gives. -/
theorem compile_build_append (steps : List BuildStep) {extra : List BuildStep}
    (hextra : ∀ step ∈ extra, step.isInternal)
    (hnew : ∀ id, (build steps).nextId ≤ id → id < (build (steps ++ extra)).nextId →
      id ∉ (build (steps ++ extra)).outputs) :
    (∃ optimized optimized', (build steps).optimize = .ok optimized ∧
      (build (steps ++ extra)).optimize = .ok optimized' ∧ optimized'.nodes = optimized.nodes ∧
      optimized'.inputs = optimized.inputs ∧ optimized'.outputs = optimized.outputs ∧
      optimized'.tensors = optimized.tensors) ∧
    ∀ registry options, (fun c => (c.tasks, c.module)) <$> (build (steps ++ extra)).compile registry options =
      (fun c => (c.tasks, c.module)) <$> (build steps).compile registry options := by
  have hextends := Extends.build_append steps hextra
  have hnormal := hextends.normalize (built_build_mixed steps) (built_build_mixed _) (declared_build steps) hnew
  have hoptimize := optimize_eq_of_normalize hnormal
  constructor
  · obtain ⟨run, hrun, -⟩ := (wellFormed_build_mixed steps).exists_run GraphPass.pipeline
    have hbuilt := optimize_eq_ok_iff.mpr ⟨run, hrun, rfl⟩
    refine ⟨run.result, run.result.withNextId (build (steps ++ extra)).nextId, hbuilt, ?_, rfl, rfl, rfl, rfl⟩
    rw [hoptimize, hbuilt]
    rfl
  · intro registry options
    rw [compile_eq_optimize_bind, compile_eq_optimize_bind, hoptimize, bind_map_left]
    rfl

end

/-- The norm of a vector, and what else is made of the vector but never asked for. -/
def normSteps : List BuildStep :=
  [.input "x" .float32 [4], .binary .mul 0 0, .reduceAxis .sum 1 0, .unary .sqrt 2, .output 3]

/-- Two operators, one of which reads an operator of the norm, a constant, and an operator that is refused. -/
def strayOperators : List BuildStep :=
  [.unary .exp 2, .constant ⟨[4], #[1.0, 2.0, 3.0, 4.0]⟩ .float32, .binary .add 0 5, .matmul 0 0]

/-- The norm is compiled as if nothing else read its parts. -/
theorem compile_norm_append :
    (build (normSteps ++ strayOperators)).nodes.length = 5 ∧
    (∃ optimized optimized', (build normSteps).optimize = .ok optimized ∧
      (build (normSteps ++ strayOperators)).optimize = .ok optimized' ∧ optimized'.nodes = optimized.nodes ∧
      optimized'.inputs = optimized.inputs ∧ optimized'.outputs = optimized.outputs ∧
      optimized'.tensors = optimized.tensors) ∧
    ∀ registry options,
      (fun c => (c.tasks, c.module)) <$> (build (normSteps ++ strayOperators)).compile registry options =
        (fun c => (c.tasks, c.module)) <$> (build normSteps).compile registry options := by
  have hnextId : (build normSteps).nextId = 4 := rfl
  have houtputs : (build (normSteps ++ strayOperators)).outputs = [3] := rfl
  refine ⟨rfl, compile_build_append normSteps (by decide) fun id hid _ hmem => ?_⟩
  rw [houtputs, List.mem_singleton] at hmem
  rw [hnextId, hmem] at hid
  exact absurd hid (by decide)

end Graph

end TensorCompiler
