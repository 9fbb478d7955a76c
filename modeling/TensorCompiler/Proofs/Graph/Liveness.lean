import Mathlib.Data.List.Nodup
import Mathlib.Logic.Relation
import TensorCompiler.Graph.Normal
import TensorCompiler.Proofs.Graph.Order
import TensorCompiler.Proofs.Result

/-! # What the outputs of a graph depend on

An operator is live if an output of the graph depends on it. In a graph whose operators compute different tensors the
nodes collected from the outputs are the live ones, each behind the operators that compute what it reads, unless a live
operator depends on itself: then no such order exists, and a cycle is reported.

The order of the nodes of the graph plays no part in this. What the runs that succeed keep is that the placed nodes are in
order; what leads to a cycle is that every open node depends on the tensor that is being placed.
-/

namespace TensorCompiler

/-- Whether a node reads what another one computes. -/
structure ReadsFrom (nodes : List Operator) (reader producer : Operator) : Prop where
  reader_mem : reader ∈ nodes
  producer_mem : producer ∈ nodes
  reads : producer.output ∈ reader.inputs

/-- Whether a node depends on another one, through any number of nodes between them. -/
def DependsOn (nodes : List Operator) : Operator → Operator → Prop :=
  Relation.TransGen (ReadsFrom nodes)

namespace Graph

/-- Whether an operator of the graph computes an output or what a live operator reads. -/
inductive Live (g : Graph) : Operator → Prop
  | output {op : Operator} (hop : op ∈ g.nodes) (hout : op.output ∈ g.outputs) : Live g op
  | input {reader op : Operator} (hreader : Live g reader) (hop : op ∈ g.nodes) (hread : op.output ∈ reader.inputs) :
    Live g op

theorem Live.mem {g : Graph} {op : Operator} (h : g.Live op) : op ∈ g.nodes := by
  cases h with
  | output hop => exact hop
  | input _ hop => exact hop

/-- What a live operator depends on is live. -/
theorem Live.of_dependsOn {g : Graph} {op op' : Operator} (h : g.Live op) (hdepends : DependsOn g.nodes op op') :
    g.Live op' := by
  induction hdepends with
  | single hstep => exact h.input hstep.producer_mem hstep.reads
  | tail _ hstep ih => exact ih.input hstep.producer_mem hstep.reads

/-- Whether a tensor is an output of the graph or read by a live operator. -/
def LiveTensor (g : Graph) (id : TensorId) : Prop :=
  id ∈ g.outputs ∨ ∃ reader, g.Live reader ∧ id ∈ reader.inputs

theorem live_iff {g : Graph} {op : Operator} : g.Live op ↔ op ∈ g.nodes ∧ g.LiveTensor op.output := by
  constructor
  · intro h
    cases h with
    | output hop hout => exact ⟨hop, Or.inl hout⟩
    | input hreader hop hread => exact ⟨hop, Or.inr ⟨_, hreader, hread⟩⟩
  · rintro ⟨hop, hout | ⟨reader, hreader, hread⟩⟩
    · exact .output hop hout
    · exact .input hreader hop hread

variable {nodes : List Operator} {id : TensorId} {i : Nat} {closed placed placed' : List Nat}

/-! ## Positions -/

/-- The nodes at the given positions. -/
def nodesAt (nodes : List Operator) (positions : List Nat) : List Operator :=
  positions.filterMap fun i => nodes[i]?

theorem mem_nodesAt {positions : List Nat} {op : Operator} :
    op ∈ nodesAt nodes positions ↔ ∃ i ∈ positions, nodes[i]? = some op :=
  List.mem_filterMap

theorem nodesAt_append_singleton (positions : List Nat) {op : Operator} (h : nodes[i]? = some op) :
    nodesAt nodes (positions ++ [i]) = nodesAt nodes positions ++ [op] := by
  simp [nodesAt, h]

theorem mem_nodesAt_iff (hnodup : (outputsOf nodes).Nodup) {op : Operator} (hat : nodes[i]? = some op) :
    op ∈ nodesAt nodes placed ↔ i ∈ placed := by
  refine ⟨fun hmem => ?_, fun hi => mem_nodesAt.mpr ⟨i, hi, hat⟩⟩
  obtain ⟨j, hj, hat'⟩ := mem_nodesAt.mp hmem
  rwa [eq_of_nodup_outputsOf hnodup hat hat' rfl]

theorem mem_outputsOf_nodesAt (hgrows : ∀ i ∈ placed, i ∈ placed') (h : id ∈ outputsOf (nodesAt nodes placed)) :
    id ∈ outputsOf (nodesAt nodes placed') := by
  obtain ⟨op, hop, hid⟩ := mem_outputsOf.mp h
  obtain ⟨i, hi, hat⟩ := mem_nodesAt.mp hop
  exact mem_outputsOf.mpr ⟨op, mem_nodesAt.mpr ⟨i, hgrows i hi, hat⟩, hid⟩

theorem exists_of_lastProducer? (h : lastProducer? nodes id = some i) :
    ∃ op, nodes[i]? = some op ∧ op.output = id := by
  have hfound := List.find?_some h
  rw [beq_iff_eq, Option.map_eq_some_iff] at hfound
  exact hfound

theorem not_mem_outputsOf_of_lastProducer? (h : lastProducer? nodes id = none) : id ∉ outputsOf nodes := by
  intro hmem
  obtain ⟨op, hop, rfl⟩ := mem_outputsOf.mp hmem
  obtain ⟨j, hj, rfl⟩ := List.mem_iff_getElem.mp hop
  have hnot := List.find?_eq_none.mp h j (List.mem_reverse.mpr (List.mem_range.mpr hj))
  simp [List.getElem?_eq_getElem hj] at hnot

/-! ## Placing one tensor -/

/-- A tensor that no node computes needs no placing. -/
theorem place_of_not_mem (h : id ∉ outputsOf nodes) : place nodes closed placed id = .ok placed := by
  rw [place]
  cases hproducer : lastProducer? nodes id with
  | none => rfl
  | some i =>
    obtain ⟨op, hop, hout⟩ := exists_of_lastProducer? hproducer
    exact absurd (mem_outputsOf.mpr ⟨op, List.mem_of_getElem? hop, hout⟩) h

/-- Placing what a node computes places the inputs of the node and then the node, unless it is placed already. A node that
is open closes a cycle. -/
theorem place_output (hnodup : (outputsOf nodes).Nodup) {op : Operator} (hop : nodes[i]? = some op) :
    place nodes closed placed op.output =
      if i ∈ placed then .ok placed
      else if i ∈ closed then (fun inner => inner ++ [i]) <$> op.inputs.foldlM (place nodes (closed.erase i)) placed
      else .error (.cyclicGraph op.task.name) := by
  have hproducer : lastProducer? nodes op.output = some i := by
    cases hproducer : lastProducer? nodes op.output with
    | none =>
      have hmem := mem_outputsOf.mpr ⟨op, List.mem_of_getElem? hop, rfl⟩
      exact absurd hmem (not_mem_outputsOf_of_lastProducer? hproducer)
    | some j =>
      obtain ⟨op', hop', hout⟩ := exists_of_lastProducer? hproducer
      rw [eq_of_nodup_outputsOf hnodup hop' hop hout]
  rw [place, hproducer]
  simp only [List.contains_iff_mem, hop, dite_eq_ite]
  split_ifs
  · rfl
  · rfl
  · rfl

/-- What placing a tensor did: nothing, or the inputs of its producer were placed and then the producer itself. -/
theorem place_cases (hnodup : (outputsOf nodes).Nodup) (h : place nodes closed placed id = .ok placed') :
    (id ∉ outputsOf nodes ∧ placed' = placed) ∨ ∃ i op, nodes[i]? = some op ∧ op.output = id ∧
      ((i ∈ placed ∧ placed' = placed) ∨ (i ∉ placed ∧ i ∈ closed ∧
        ∃ inner, op.inputs.foldlM (place nodes (closed.erase i)) placed = .ok inner ∧ placed' = inner ++ [i])) := by
  by_cases hid : id ∈ outputsOf nodes
  · obtain ⟨op, hop, rfl⟩ := mem_outputsOf.mp hid
    obtain ⟨i, hi⟩ := List.mem_iff_getElem?.mp hop
    refine Or.inr ⟨i, op, hi, rfl, ?_⟩
    rw [place_output hnodup hi] at h
    split_ifs at h with hplaced hclosed
    · cases h
      exact Or.inl ⟨hplaced, rfl⟩
    · rw [← bind_pure_comp] at h
      obtain ⟨inner, hinner, hresult⟩ := bind_eq_ok_iff.mp h
      cases hresult
      exact Or.inr ⟨hplaced, hclosed, inner, hinner, rfl⟩
  · rw [place_of_not_mem hid] at h
    cases h
    exact Or.inl ⟨hid, rfl⟩

/-- What placing a tensor adds was not open. -/
theorem mem_of_mem_place (hnodup : (outputsOf nodes).Nodup) {n : Nat} (hn : closed.length = n)
    (h : place nodes closed placed id = .ok placed') : ∀ i ∈ placed', i ∈ placed ∨ i ∈ closed := by
  induction n using Nat.strongRecOn generalizing closed placed placed' id with
  | ind n ih =>
    rcases place_cases hnodup h with ⟨-, rfl⟩ | ⟨index, op, -, -, ⟨-, rfl⟩ | ⟨-, hmem, inner, hinner, rfl⟩⟩
    · exact fun i hi => Or.inl hi
    · exact fun i hi => Or.inl hi
    have hshorter := List.length_erase_add_one hmem
    have hadded : ∀ i ∈ inner, i ∈ placed ∨ i ∈ closed := by
      refine foldlM_keeps (P := fun acc : List Nat => ∀ i ∈ acc, i ∈ placed ∨ i ∈ closed)
        (fun input _ acc acc' hacc hstep i hi => ?_) (fun i hi => Or.inl hi) hinner
      rcases ih _ (by omega) rfl hstep i hi with hold | hclosed
      · exact hacc i hold
      · exact Or.inr (List.mem_of_mem_erase hclosed)
    intro i hi
    rcases List.mem_append.mp hi with hi | hi
    · exact hadded i hi
    · rw [List.mem_singleton.mp hi]
      exact Or.inr hmem

theorem subset_place (hnodup : (outputsOf nodes).Nodup) {n : Nat} (hn : closed.length = n)
    (h : place nodes closed placed id = .ok placed') : ∀ i ∈ placed, i ∈ placed' := by
  induction n using Nat.strongRecOn generalizing closed placed placed' id with
  | ind n ih =>
    rcases place_cases hnodup h with ⟨-, rfl⟩ | ⟨index, op, -, -, ⟨-, rfl⟩ | ⟨-, hmem, inner, hinner, rfl⟩⟩
    · exact fun i hi => hi
    · exact fun i hi => hi
    have hshorter := List.length_erase_add_one hmem
    have hgrows : ∀ i ∈ placed, i ∈ inner :=
      foldlM_keeps (P := fun acc : List Nat => ∀ i ∈ placed, i ∈ acc)
        (fun input _ acc acc' hacc hstep i hi => ih _ (by omega) rfl hstep i (hacc i hi)) (fun i hi => hi) hinner
    exact fun i hi => List.mem_append_left _ (hgrows i hi)

/-- A tensor that a node computes is computed by a placed node once it is placed. -/
theorem mem_outputsOf_place (hnodup : (outputsOf nodes).Nodup) (h : place nodes closed placed id = .ok placed')
    (hid : id ∈ outputsOf nodes) : id ∈ outputsOf (nodesAt nodes placed') := by
  rcases place_cases hnodup h with ⟨hnot, -⟩ | ⟨i, op, hop, rfl, hplaced⟩
  · exact absurd hid hnot
  refine mem_outputsOf.mpr ⟨op, mem_nodesAt.mpr ⟨i, ?_, hop⟩, rfl⟩
  rcases hplaced with ⟨hi, rfl⟩ | ⟨-, -, inner, -, rfl⟩
  · exact hi
  · exact List.mem_append_right _ (List.mem_singleton_self i)

/-- Tensors that nodes compute are computed by placed nodes once they are placed one after the other. -/
theorem mem_outputsOf_foldlM_place (hnodup : (outputsOf nodes).Nodup) {ids : List TensorId}
    (h : ids.foldlM (place nodes closed) placed = .ok placed') (hid : id ∈ ids) (hcomputed : id ∈ outputsOf nodes) :
    id ∈ outputsOf (nodesAt nodes placed') := by
  induction ids generalizing placed with
  | nil => cases hid
  | cons first ids ih =>
    rw [List.foldlM_cons] at h
    obtain ⟨next, hnext, hrest⟩ := bind_eq_ok_iff.mp h
    rcases List.mem_cons.mp hid with rfl | hid
    · have hgrows : ∀ i ∈ next, i ∈ placed' :=
        foldlM_keeps (P := fun acc : List Nat => ∀ i ∈ next, i ∈ acc)
          (fun _ _ acc acc' hacc hstep i hi => subset_place hnodup rfl hstep i (hacc i hi)) (fun i hi => hi) hrest
      exact mem_outputsOf_nodesAt hgrows (mem_outputsOf_place hnodup hnext hcomputed)
    · exact ih hrest hid

/-- What holds of the placed nodes is kept by placing tensors if it is kept by adding a node of which the inputs are
placed. Only nodes that compute needed tensors are added, where a node that computes a needed tensor needs its inputs. -/
theorem place_keeps {P : List Nat → Prop} {needs : TensorId → Prop} (hnodup : (outputsOf nodes).Nodup)
    (hinputs : ∀ op ∈ nodes, needs op.output → ∀ input ∈ op.inputs, needs input)
    (hadd : ∀ i op inner, nodes[i]? = some op → needs op.output → i ∉ inner →
      (∀ input ∈ op.inputs, input ∈ outputsOf nodes → input ∈ outputsOf (nodesAt nodes inner)) →
      P inner → P (inner ++ [i]))
    {n : Nat} (hn : closed.length = n) (hclosed : closed.Nodup) (hid : needs id) (hP : P placed)
    (h : place nodes closed placed id = .ok placed') : P placed' := by
  induction n using Nat.strongRecOn generalizing closed placed placed' id with
  | ind n ih =>
    rcases place_cases hnodup h with ⟨-, rfl⟩ | ⟨index, op, hop, rfl, ⟨-, rfl⟩ | ⟨hfresh, hmem, inner, hinner, rfl⟩⟩
    · exact hP
    · exact hP
    have hshorter := List.length_erase_add_one hmem
    -- `index` is open while its inputs are placed, so it is not among what they add
    have hnew : index ∉ inner := by
      refine foldlM_keeps (P := fun acc : List Nat => index ∉ acc) (fun input _ acc acc' hacc hstep hi => ?_) hfresh hinner
      rcases mem_of_mem_place hnodup rfl hstep index hi with hold | hopened
      · exact hacc hold
      · exact (hclosed.mem_erase_iff.mp hopened).1 rfl
    have hkept : P inner :=
      foldlM_keeps (fun input hinput acc acc' hacc hstep => ih _ (by omega) rfl (hclosed.erase index)
        (hinputs op (List.mem_of_getElem? hop) hid input hinput) hacc hstep) hP hinner
    exact hadd index op inner hop hid hnew
      (fun input hinput => mem_outputsOf_foldlM_place hnodup hinner hinput) hkept

/-! ## Cycles -/

/-- Placing a tensor fails only at a node that depends on itself, if every open node depends on the tensor. -/
theorem exists_cycle_of_place {needs : TensorId → Prop} {e : Error} (hnodup : (outputsOf nodes).Nodup)
    (hinputs : ∀ op ∈ nodes, needs op.output → ∀ input ∈ op.inputs, needs input)
    {n : Nat} (hn : closed.length = n) (hid : needs id)
    (hopen : ∀ i op, nodes[i]? = some op → i ∉ closed →
      ∃ reader ∈ nodes, Relation.ReflTransGen (ReadsFrom nodes) op reader ∧ id ∈ reader.inputs)
    (h : place nodes closed placed id = .error e) :
    ∃ op ∈ nodes, needs op.output ∧ DependsOn nodes op op ∧ e = .cyclicGraph op.task.name := by
  induction n using Nat.strongRecOn generalizing closed placed id with
  | ind n ih =>
    by_cases hcomputed : id ∈ outputsOf nodes
    · obtain ⟨op, hop, rfl⟩ := mem_outputsOf.mp hcomputed
      obtain ⟨index, hat⟩ := List.mem_iff_getElem?.mp hop
      rw [place_output hnodup hat] at h
      split_ifs at h with hplaced hclosed
      · have hshorter := List.length_erase_add_one hclosed
        obtain ⟨input, hinput, acc, hfails⟩ := exists_of_foldlM_eq_error (map_eq_error_iff.mp h)
        refine ih _ (by omega) rfl (hinputs op hop hid input hinput) (fun i op' hat' hi => ?_) hfails
        by_cases hold : i ∈ closed
        · -- the node that has just been opened reads the input itself
          have hindex : i = index := by
            by_contra hne
            exact hi ((List.mem_erase_of_ne hne).mpr hold)
          rw [hindex, hat] at hat'
          cases hat'
          exact ⟨op, hop, .refl, hinput⟩
        · obtain ⟨reader, hreader, hpath, hread⟩ := hopen i op' hat' hold
          exact ⟨op, hop, hpath.tail ⟨hreader, hop, hread⟩, hinput⟩
      · cases h
        obtain ⟨reader, hreader, hpath, hread⟩ := hopen index op hat hclosed
        exact ⟨op, hop, hid, Relation.TransGen.tail' hpath ⟨hreader, hop, hread⟩, rfl⟩
    · rw [place_of_not_mem hcomputed] at h
      cases h

/-! ## Collecting from the outputs -/

variable {g : Graph} {live : List Operator}

theorem LiveTensor.of_mem_inputs {op : Operator} (hop : op ∈ g.nodes) (h : g.LiveTensor op.output) {input : TensorId}
    (hinput : input ∈ op.inputs) : g.LiveTensor input :=
  Or.inr ⟨op, live_iff.mpr ⟨hop, h⟩, hinput⟩

theorem liveNodes_eq_map (g : Graph) :
    g.liveNodes = nodesAt g.nodes <$> g.outputs.foldlM (place g.nodes (List.range g.nodes.length)) [] :=
  bind_pure_comp _ _

/-- What holds of no nodes and is kept by adding a live one of which the inputs are there holds of the collected nodes. -/
theorem liveNodes_keeps {P : List Operator → Prop} (hnodup : (outputsOf g.nodes).Nodup) (hnil : P [])
    (hadd : ∀ op ops, g.Live op → op ∉ ops → (∀ input ∈ op.inputs, input ∈ outputsOf g.nodes → input ∈ outputsOf ops) →
      P ops → P (ops ++ [op]))
    (h : g.liveNodes = .ok live) : P live := by
  obtain ⟨order, horder, hlive⟩ := bind_eq_ok_iff.mp h
  cases hlive
  refine foldlM_keeps (P := fun placed : List Nat => P (nodesAt g.nodes placed)) (fun id hid placed placed' hplaced hstep =>
    ?_) (show P (nodesAt g.nodes []) from hnil) horder
  refine place_keeps (P := fun placed : List Nat => P (nodesAt g.nodes placed)) hnodup
    (fun op hop hneeds input => LiveTensor.of_mem_inputs hop hneeds) (fun i op inner hop hneeds hnew hinner hP => ?_) rfl
    List.nodup_range (Or.inl hid) hplaced hstep
  rw [nodesAt_append_singleton inner hop]
  refine hadd op _ (live_iff.mpr ⟨List.mem_of_getElem? hop, hneeds⟩) (fun hmem => hnew ?_) hinner hP
  exact (mem_nodesAt_iff hnodup hop).mp hmem

/-- The collected nodes are in order: each reads what no node of the graph computes or one in front of it. -/
theorem ordered_liveNodes (hnodup : (outputsOf g.nodes).Nodup) (h : g.liveNodes = .ok live) :
    Ordered (fun id => id ∉ outputsOf g.nodes) live := by
  have hboth : Ordered (fun id => id ∉ outputsOf g.nodes) live ∧ ∀ op ∈ live, op ∈ g.nodes := by
    refine liveNodes_keeps (P := fun ops => Ordered (fun id => id ∉ outputsOf g.nodes) ops ∧ ∀ op ∈ ops, op ∈ g.nodes)
      hnodup ⟨trivial, by simp⟩ (fun op ops hop hnew hinputs hP => ⟨hP.1.append_singleton (fun id hid => ?_) ?_ ?_, ?_⟩) h
    · exact (em (id ∈ outputsOf g.nodes)).symm.imp_right (hinputs id hid)
    · exact not_not_intro (mem_outputsOf.mpr ⟨op, hop.mem, rfl⟩)
    · intro hmem
      obtain ⟨op', hop', hsame⟩ := mem_outputsOf.mp hmem
      exact hnew (List.inj_on_of_nodup_map hnodup (hP.2 op' hop') hop.mem hsame ▸ hop')
    · intro op' hop'
      rcases List.mem_append.mp hop' with hop' | hop'
      · exact hP.2 op' hop'
      · exact List.mem_singleton.mp hop' ▸ hop.mem
  exact hboth.1

/-- The collected nodes are the live ones. -/
theorem mem_liveNodes_iff (hnodup : (outputsOf g.nodes).Nodup) (h : g.liveNodes = .ok live) {op : Operator} :
    op ∈ live ↔ g.Live op := by
  have hlive : ∀ op ∈ live, g.Live op := by
    refine liveNodes_keeps (P := fun ops => ∀ op ∈ ops, g.Live op) hnodup (by simp) (fun op ops hop _ _ hP op' hop' => ?_) h
    rcases List.mem_append.mp hop' with hop' | hop'
    · exact hP op' hop'
    · exact List.mem_singleton.mp hop' ▸ hop
  have hordered := ordered_liveNodes hnodup h
  have hcomputed : ∀ {op}, op ∈ g.nodes → op.output ∈ outputsOf live → op ∈ live := by
    intro op hop hmem
    obtain ⟨op', hop', hsame⟩ := mem_outputsOf.mp hmem
    exact List.inj_on_of_nodup_map hnodup (hlive op' hop').mem hop hsame ▸ hop'
  refine ⟨hlive op, fun hop => ?_⟩
  induction hop with
  | output hop hout =>
    obtain ⟨order, horder, hresult⟩ := bind_eq_ok_iff.mp h
    cases hresult
    exact hcomputed hop (mem_outputsOf_foldlM_place hnodup horder hout (mem_outputsOf.mpr ⟨_, hop, rfl⟩))
  | input _ hop hread ih =>
    refine hcomputed hop ((hordered.known_or_mem ih hread).resolve_left (not_not_intro ?_))
    exact mem_outputsOf.mpr ⟨_, hop, rfl⟩

/-- In nodes in order, what a node depends on stands in front of it. -/
theorem exists_lt_of_dependsOn {known : TensorId → Prop} (hordered : Ordered known live) {op op' : Operator}
    (h : DependsOn live op op') {j : Nat} (hj : live[j]? = some op) : ∃ i < j, live[i]? = some op' := by
  have hstep : ∀ {a b : Operator} {j : Nat}, ReadsFrom live a b → live[j]? = some a → ∃ i < j, live[i]? = some b := by
    intro a b j hread hj
    obtain ⟨i, hi⟩ := List.mem_iff_getElem?.mp hread.producer_mem
    obtain ⟨before, between, after, -, hfront, hbehind⟩ := hordered.exists_split hi hj hread.reads
    exact ⟨i, by omega, hi⟩
  induction h with
  | single hread => exact hstep hread hj
  | tail _ hread ih =>
    obtain ⟨i, hlt, hi⟩ := ih
    obtain ⟨i', hlt', hi'⟩ := hstep hread hi
    exact ⟨i', by omega, hi'⟩

/-- No node depends on itself among nodes in order. -/
theorem not_dependsOn_self {known : TensorId → Prop} (hordered : Ordered known live) (op : Operator) :
    ¬ DependsOn live op op := by
  intro h
  obtain ⟨_, hread, -⟩ := Relation.TransGen.head'_iff.mp h
  obtain ⟨j, hj⟩ := List.mem_iff_getElem?.mp hread.reader_mem
  obtain ⟨i, hlt, hi⟩ := exists_lt_of_dependsOn hordered h hj
  exact Nat.ne_of_lt hlt (hordered.eq_of_output_eq hi hj rfl)

/-- What a live operator depends on, it depends on through live operators. -/
theorem Live.dependsOn_among {op op' : Operator} (hop : g.Live op) (hall : ∀ op, g.Live op → op ∈ live)
    (h : DependsOn g.nodes op op') : DependsOn live op op' := by
  have hstep : ∀ {a b : Operator}, g.Live a → ReadsFrom g.nodes a b → ReadsFrom live a b := fun ha hread =>
    ⟨hall _ ha, hall _ (ha.input hread.producer_mem hread.reads), hread.reads⟩
  induction h with
  | single hread => exact .single (hstep hop hread)
  | tail hpath hread ih => exact ih.tail (hstep (hop.of_dependsOn hpath) hread)

/-- Collecting the nodes fails only at a live operator that depends on itself, and the error names it. -/
theorem exists_cycle_of_liveNodes {e : Error} (hnodup : (outputsOf g.nodes).Nodup) (h : g.liveNodes = .error e) :
    ∃ op, g.Live op ∧ DependsOn g.nodes op op ∧ e = .cyclicGraph op.task.name := by
  rw [liveNodes_eq_map, map_eq_error_iff] at h
  obtain ⟨id, hid, placed, hfails⟩ := exists_of_foldlM_eq_error h
  have hinputs : ∀ op ∈ g.nodes, g.LiveTensor op.output → ∀ input ∈ op.inputs, g.LiveTensor input :=
    fun op hop hneeds input => LiveTensor.of_mem_inputs hop hneeds
  obtain ⟨op, hop, hneeds, hcycle, he⟩ := exists_cycle_of_place hnodup hinputs rfl (Or.inl hid)
    (fun i op hat hi => absurd (List.mem_range.mpr (List.getElem?_eq_some_iff.mp hat).1) hi) hfails
  exact ⟨op, live_iff.mpr ⟨hop, hneeds⟩, hcycle, he⟩

/-- The nodes can be collected exactly if no live operator depends on itself. -/
theorem exists_liveNodes_iff (hnodup : (outputsOf g.nodes).Nodup) :
    (∃ live, g.liveNodes = .ok live) ↔ ∀ op, g.Live op → ¬ DependsOn g.nodes op op := by
  constructor
  · rintro ⟨live, hlive⟩ op hop hcycle
    exact not_dependsOn_self (ordered_liveNodes hnodup hlive) op
      (hop.dependsOn_among (fun _ => (mem_liveNodes_iff hnodup hlive).mpr) hcycle)
  · intro hacyclic
    cases hlive : g.liveNodes with
    | ok live => exact ⟨live, rfl⟩
    | error e =>
      obtain ⟨op, hop, hcycle, -⟩ := exists_cycle_of_liveNodes hnodup hlive
      exact absurd hcycle (hacyclic op hop)

end Graph

end TensorCompiler
