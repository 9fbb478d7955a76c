import TensorCompiler.Proofs.Graph.Build
import TensorCompiler.Proofs.Graph.Needed

/-! # What the normal form is

The normal form of a graph does not depend on how its nodes are listed: it has the live operators in an order that the
outputs and the inputs of the operators decide, and the tensors that are left. It exists unless a live operator depends on
itself. All that is asked of the graph is that no two of its nodes compute the same tensor, so it may have cycles, and
nodes in any order.
-/

namespace TensorCompiler

namespace Graph

variable {g g' : Graph} {id : TensorId}

/-- Whether a graph is another one reduced to what its outputs depend on: the live operators, each once, behind those that
compute what it reads, and the tensors that are the inputs, the outputs, or read or computed by a live operator. -/
structure IsNormalForm (g normal : Graph) : Prop where
  nodup : normal.nodes.Nodup
  mem_nodes : ∀ op, op ∈ normal.nodes ↔ g.Live op
  behind : ∀ before op after, normal.nodes = before ++ op :: after →
    ∀ producer ∈ g.nodes, producer.output ∈ op.inputs → producer ∈ before
  tensors_sublist : normal.tensors.Sublist g.tensors
  mem_tensors : ∀ id info, (id, info) ∈ normal.tensors ↔ (id, info) ∈ g.tensors ∧
    (id ∈ g.inputs ∨ id ∈ g.outputs ∨ ∃ op ∈ normal.nodes, id ∈ op.inputs ∨ id = op.output)
  inputs : normal.inputs = g.inputs
  outputs : normal.outputs = g.outputs
  nextId : normal.nextId = g.nextId

theorem mentions_iff : g.mentions id = true ↔
    id ∈ g.inputs ∨ id ∈ g.outputs ∨ ∃ op ∈ g.nodes, id ∈ op.inputs ∨ id = op.output := by
  simp only [mentions, Bool.or_eq_true, List.contains_iff_mem, List.any_eq_true, beq_iff_eq, or_assoc,
    eq_comm (a := id)]

theorem isNormalForm_normalize (hnodup : (outputsOf g.nodes).Nodup) (h : g.normalize = .ok g') :
    g.IsNormalForm g' := by
  obtain ⟨live, hlive, rfl⟩ := normalize_eq_ok_iff.mp h
  have hmem : ∀ op, op ∈ live ↔ g.Live op := fun op => mem_liveNodes_iff hnodup hlive
  have hordered := ordered_liveNodes hnodup hlive
  constructor
  case nodup => exact hordered.nodup_outputsOf.of_map
  case mem_nodes => exact hmem
  case behind =>
    rintro before op after hsplit producer hproducer hread
    have hlist : live = before ++ op :: after := hsplit
    have hcomputed : producer.output ∈ outputsOf g.nodes := mem_outputsOf.mpr ⟨producer, hproducer, rfl⟩
    have hfront : producer.output ∈ outputsOf before :=
      ((hlist ▸ hordered).at_split.1 _ hread).resolve_left (not_not_intro hcomputed)
    obtain ⟨producer', hproducer', hsame⟩ := mem_outputsOf.mp hfront
    have hlive' : producer' ∈ live := hlist ▸ List.mem_append_left _ hproducer'
    exact List.inj_on_of_nodup_map hnodup ((hmem producer').mp hlive').mem hproducer hsame ▸ hproducer'
  case tensors_sublist => exact List.filter_sublist
  case mem_tensors =>
    intro id info
    rw [List.mem_filter]
    exact and_congr_right fun _ => mentions_iff
  case inputs => rfl
  case outputs => rfl
  case nextId => rfl

/-- The order in which the nodes of a graph are listed does not matter to its normal form. -/
theorem normalize_of_perm (hnodup : (outputsOf g.nodes).Nodup) {nodes : List Operator} (hperm : nodes.Perm g.nodes) :
    normalize { g with nodes := nodes } = g.normalize := by
  have houtputs : (outputsOf nodes).Perm (outputsOf g.nodes) := hperm.map Operator.output
  have hlive : liveNodes { g with nodes := nodes } = g.liveNodes :=
    liveNodes_of_subset hnodup (houtputs.nodup_iff.mpr hnodup) (fun op => hperm.mem_iff.mp) rfl
      (fun id _ => houtputs.mem_iff.mpr) fun op _ id _ => houtputs.mem_iff.mpr
  rw [normalize, normalize, hlive]

theorem run_normalize (g : Graph) : GraphM.normalize.run g =
    match g.normalize with
    | .ok normal => .ok () normal
    | .error e => .error e g := by
  change EStateM.run (GraphM.ofExcept g.normalize >>= set) g = _
  cases g.normalize <;> rfl

/-- Bringing a graph into normal form fails exactly if a live operator depends on itself, with an error that names such an
operator, and then leaves the graph as it was. Otherwise it leaves the normal form of the graph, which it would leave as it
is. The order in which the nodes were listed makes no difference. -/
theorem isNormalForm_run_normalize (hnodup : (outputsOf g.nodes).Nodup) :
    ((∃ name, GraphM.normalize.run g = .error (.cyclicGraph name) g) ↔ ∃ op, g.Live op ∧ DependsOn g.nodes op op) ∧
    (∀ e after, GraphM.normalize.run g = .error e after →
      after = g ∧ ∃ op, g.Live op ∧ DependsOn g.nodes op op ∧ e = .cyclicGraph op.task.name) ∧
    (∀ after, GraphM.normalize.run g = .ok () after →
      g.IsNormalForm after ∧ GraphM.normalize.run after = .ok () after) ∧
    ∀ nodes, nodes.Perm g.nodes → normalize { g with nodes := nodes } = g.normalize := by
  have hcycle : ∀ e, g.normalize = .error e →
      ∃ op, g.Live op ∧ DependsOn g.nodes op op ∧ e = .cyclicGraph op.task.name := by
    intro e he
    rw [normalize, bind_pure_comp, map_eq_error_iff] at he
    exact exists_cycle_of_liveNodes hnodup he
  rw [run_normalize]
  cases hnormal : g.normalize with
  | error e =>
    obtain ⟨op, hop, hself, rfl⟩ := hcycle e hnormal
    refine ⟨iff_of_true ⟨_, rfl⟩ ⟨op, hop, hself⟩, fun e after h => ?_, fun after h => ?_, ?_⟩
    · cases h
      exact ⟨rfl, op, hop, hself, rfl⟩
    · cases h
    · exact fun nodes hperm => (normalize_of_perm hnodup hperm).trans hnormal
  | ok normal =>
    obtain ⟨live, hlive, -⟩ := normalize_eq_ok_iff.mp hnormal
    refine ⟨iff_of_false (by simp) ?_, fun e after h => ?_, fun after h => ?_, ?_⟩
    · rintro ⟨op, hop, hself⟩
      exact (exists_liveNodes_iff hnodup).mp ⟨live, hlive⟩ op hop hself
    · cases h
    · cases h
      refine ⟨isNormalForm_normalize hnodup hnormal, ?_⟩
      rw [run_normalize, normalize_normalize hnodup hnormal]
    · exact fun nodes hperm => (normalize_of_perm hnodup hperm).trans hnormal

/-- Two rectifiers, the second of which reads the first. -/
def rectifierSteps : List BuildStep :=
  [.input "x" .float32 [2], .unary .relu 0, .unary .relu 1, .output 2]

/-- Once the first rectifier reads the second one, there is no normal form. -/
theorem run_normalize_rectifiers : ∃ g, (build rectifierSteps).replaceInput 0 0 2 = .ok g ∧ (outputsOf g.nodes).Nodup ∧
    ∃ name, GraphM.normalize.run g = .error (.cyclicGraph name) g := by
  obtain ⟨g, hg, first, second, hnodes, hfirst, hsecond, houtputs⟩ : ∃ g,
      (build rectifierSteps).replaceInput 0 0 2 = .ok g ∧ ∃ first second, g.nodes = [first, second] ∧
        (first.inputs = [2] ∧ first.output = 1) ∧ (second.inputs = [1] ∧ second.output = 2) ∧ g.outputs = [2] :=
    ⟨_, rfl, _, _, rfl, ⟨rfl, rfl⟩, ⟨rfl, rfl⟩, rfl⟩
  have hnodup : (outputsOf g.nodes).Nodup := by simp [outputsOf, hnodes, hfirst, hsecond]
  refine ⟨g, hg, hnodup, (isNormalForm_run_normalize hnodup).1.mpr ⟨second, .output ?_ ?_, ?_⟩⟩
  · simp [hnodes]
  · simp [houtputs, hsecond]
  · exact .tail (.single (b := first) ⟨by simp [hnodes], by simp [hnodes], by simp [hfirst, hsecond]⟩)
      ⟨by simp [hnodes], by simp [hnodes], by simp [hfirst, hsecond]⟩

end Graph

end TensorCompiler
