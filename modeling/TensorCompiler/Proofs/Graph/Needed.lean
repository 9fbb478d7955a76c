import TensorCompiler.Proofs.Graph.Normal

/-! # Needed operators

In normal form every operator is needed: it computes an output of the graph or a tensor that another operator reads. A
graph whose operators are all needed loses none of them to the normal form, which only puts them into another order, and
the normal form of a normal form is the normal form itself.
-/

namespace TensorCompiler.Graph

/-- Whether each operator computes an output of the graph or a tensor that an operator reads. -/
def Needed (g : Graph) : Prop :=
  ∀ op ∈ g.nodes, op.output ∈ g.outputs ∨ ∃ reader ∈ g.nodes, op.output ∈ reader.inputs

/-- A well-formed graph in which every operator is needed. -/
structure Trim (k : ElementKind) (g : Graph) : Prop extends WellFormed k g where
  needed : g.Needed

variable {known : TensorId → Prop} {k : ElementKind} {g g' : Graph} {nodes nodes' live : List Operator}

/-! ## The normal form keeps what is needed -/

/-- What holds of the operators that compute outputs, and of an operator whose result is read by one of which it holds,
holds of every operator of a graph in order in which all are needed. -/
theorem Needed.induct {P : Operator → Prop} (h : g.Needed) (hordered : Ordered known g.nodes)
    (houtput : ∀ op ∈ g.nodes, op.output ∈ g.outputs → P op)
    (hread : ∀ op ∈ g.nodes, ∀ reader ∈ g.nodes, op.output ∈ reader.inputs → P reader → P op) : ∀ op ∈ g.nodes, P op := by
  -- readers stand behind what they read, so the induction goes from the end of the list to its start
  have hback : ∀ (n i : Nat) (op : Operator), g.nodes.length - i = n → g.nodes[i]? = some op → P op := by
    intro n
    induction n using Nat.strongRecOn with
    | ind n ih =>
      intro i op hn hat
      have hop := List.mem_of_getElem? hat
      rcases h op hop with hout | ⟨reader, hreader, hreads⟩
      · exact houtput op hop hout
      · obtain ⟨j, hj⟩ := List.mem_iff_getElem?.mp hreader
        obtain ⟨before, between, after, -, hi, hlater⟩ := hordered.exists_split hat hj hreads
        have hlt : j < g.nodes.length := (List.getElem?_eq_some_iff.mp hj).1
        exact hread op hop reader hreader hreads (ih (g.nodes.length - j) (by omega) j reader rfl hj)
  intro op hop
  obtain ⟨i, hat⟩ := List.mem_iff_getElem?.mp hop
  exact hback _ i op rfl hat

/-- An output depends on every operator of a graph in order in which all are needed. -/
theorem Needed.forall_live (h : g.Needed) (hordered : Ordered known g.nodes) : ∀ op ∈ g.nodes, g.Live op :=
  h.induct hordered (fun _ hop hout => .output hop hout) fun _ hop _ _ hread hreader => hreader.input hop hread

/-- The normal form of a graph in which every operator is needed has the same operators. -/
theorem Trim.perm_normalize (h : g.Trim k) (hnormal : g.normalize = .ok g') : g'.nodes.Perm g.nodes := by
  obtain ⟨live, hlive, rfl⟩ := normalize_eq_ok_iff.mp hnormal
  have hnodup := h.ordered.nodup_outputsOf
  have hlive' : live.Nodup := (ordered_liveNodes hnodup hlive).nodup_outputsOf.of_map
  exact (List.perm_ext_iff_of_nodup hlive' hnodup.of_map).mpr fun op =>
    (mem_liveNodes_iff hnodup hlive).trans ⟨Live.mem, h.needed.forall_live h.ordered op⟩

/-- Every operator of a normal form is needed. -/
theorem WellFormed.trim_normalize [FloatOps] (h : g.WellFormed k) (hnormal : g.normalize = .ok g') : g'.Trim k := by
  obtain ⟨normal, hnormal', hwell, -⟩ := h.exists_normalize
  cases hnormal'.symm.trans hnormal
  refine ⟨hwell, ?_⟩
  obtain ⟨live, hlive, rfl⟩ := normalize_eq_ok_iff.mp hnormal
  obtain ⟨live', hlive', -, -, -, hneeded⟩ := exists_liveNodes h.ordered
  cases hlive.symm.trans hlive'
  exact hneeded

/-! ## The normal form of a normal form -/

theorem mem_nodesAt_erase (hnodup : (outputsOf nodes).Nodup) {closed : List Nat} (hclosed : closed.Nodup) {i : Nat}
    {op op' : Operator} (hat : nodes[i]? = some op) :
    op' ∈ nodesAt nodes (closed.erase i) ↔ op' ≠ op ∧ op' ∈ nodesAt nodes closed := by
  constructor
  · intro hmem
    obtain ⟨j, hj, hat'⟩ := mem_nodesAt.mp hmem
    obtain ⟨hne, hj⟩ := hclosed.mem_erase_iff.mp hj
    refine ⟨fun hsame => hne ?_, mem_nodesAt.mpr ⟨j, hj, hat'⟩⟩
    exact eq_of_nodup_outputsOf hnodup hat' hat (congrArg Operator.output hsame)
  · rintro ⟨hne, hmem⟩
    obtain ⟨j, hj, hat'⟩ := mem_nodesAt.mp hmem
    refine mem_nodesAt.mpr ⟨j, hclosed.mem_erase_iff.mpr ⟨?_, hj⟩, hat'⟩
    rintro rfl
    exact hne (Option.some.inj (hat'.symm.trans hat))

/-- Placing a tensor among all nodes and among a part of them that has what it reads has the same outcome: the same nodes
are taken, after the same nodes, or the same cycle is found. -/
theorem map_place_eq (hnodup : (outputsOf nodes).Nodup) (hnodup' : (outputsOf nodes').Nodup)
    (hsubset : ∀ op ∈ nodes', op ∈ nodes)
    (hreads : ∀ op ∈ nodes', ∀ id ∈ op.inputs, id ∈ outputsOf nodes → id ∈ outputsOf nodes')
    {n : Nat} {id : TensorId} {closed closed' placed placed' : List Nat} (hn : closed.length = n) (hclosed : closed.Nodup)
    (hclosed' : closed'.Nodup) (hid : id ∈ outputsOf nodes → id ∈ outputsOf nodes')
    (hopen : ∀ op ∈ nodes', op ∈ nodesAt nodes' closed' ↔ op ∈ nodesAt nodes closed)
    (hsame : nodesAt nodes' placed' = nodesAt nodes placed) :
    nodesAt nodes' <$> place nodes' closed' placed' id = nodesAt nodes <$> place nodes closed placed id := by
  induction n using Nat.strongRecOn generalizing id closed closed' placed placed' with
  | ind n ih =>
    by_cases hcomputed : id ∈ outputsOf nodes
    · obtain ⟨op, hop, rfl⟩ := mem_outputsOf.mp (hid hcomputed)
      obtain ⟨j, hj⟩ := List.mem_iff_getElem?.mp hop
      obtain ⟨i, hi⟩ := List.mem_iff_getElem?.mp (hsubset op hop)
      have hplacedIff : j ∈ placed' ↔ i ∈ placed := by
        rw [← mem_nodesAt_iff hnodup' hj, ← mem_nodesAt_iff hnodup hi, hsame]
      have hclosedIff : j ∈ closed' ↔ i ∈ closed := by
        rw [← mem_nodesAt_iff hnodup' hj, ← mem_nodesAt_iff hnodup hi, hopen op hop]
      rw [place_output hnodup' hj, place_output hnodup hi]
      simp only [hplacedIff, hclosedIff]
      split_ifs with hplaced hmem
      · exact congrArg Except.ok hsame
      · -- both place the inputs of the operator and then the operator
        have hshorter := List.length_erase_add_one hmem
        have hinputs : nodesAt nodes' <$> op.inputs.foldlM (place nodes' (closed'.erase j)) placed' =
            nodesAt nodes <$> op.inputs.foldlM (place nodes (closed.erase i)) placed := by
          refine foldlM_map_eq (fun input hinput acc' acc hacc => ?_) hsame
          refine ih _ (by omega) rfl (hclosed.erase i) (hclosed'.erase j) (hreads op hop input hinput) (fun op' hop' => ?_) hacc
          rw [mem_nodesAt_erase hnodup' hclosed' hj, mem_nodesAt_erase hnodup hclosed hi, hopen op' hop']
        have happend : ∀ {nodes : List Operator} {i : Nat} (x : Except Error (List Nat)), nodes[i]? = some op →
            nodesAt nodes <$> (fun inner => inner ++ [i]) <$> x = (fun ops => ops ++ [op]) <$> nodesAt nodes <$> x := by
          intro nodes i x hat
          simp only [Functor.map_map, nodesAt_append_singleton _ hat]
        rw [happend _ hj, happend _ hi, hinputs]
      · rfl
    · have hnot : id ∉ outputsOf nodes' := by
        intro hmem
        obtain ⟨op, hop, hout⟩ := mem_outputsOf.mp hmem
        exact hcomputed (mem_outputsOf.mpr ⟨op, hsubset op hop, hout⟩)
      rw [place_of_not_mem hcomputed, place_of_not_mem hnot]
      exact congrArg Except.ok hsame

theorem mem_nodesAt_range {op : Operator} : op ∈ nodesAt nodes (List.range nodes.length) ↔ op ∈ nodes := by
  constructor
  · intro h
    obtain ⟨i, -, hat⟩ := mem_nodesAt.mp h
    exact List.mem_of_getElem? hat
  · intro h
    obtain ⟨i, hat⟩ := List.mem_iff_getElem?.mp h
    exact mem_nodesAt.mpr ⟨i, List.mem_range.mpr (List.getElem?_eq_some_iff.mp hat).1, hat⟩

/-- The nodes collected from a part of the nodes are those collected from all, in the same order, if the part has what the
outputs and the operators of the part need. If there is a cycle, both find the same. -/
theorem liveNodes_of_subset (hnodup : (outputsOf g.nodes).Nodup) (hnodup' : (outputsOf g'.nodes).Nodup)
    (hsubset : ∀ op ∈ g'.nodes, op ∈ g.nodes) (houtputs : g'.outputs = g.outputs)
    (hcomputed : ∀ id ∈ g.outputs, id ∈ outputsOf g.nodes → id ∈ outputsOf g'.nodes)
    (hreads : ∀ op ∈ g'.nodes, ∀ id ∈ op.inputs, id ∈ outputsOf g.nodes → id ∈ outputsOf g'.nodes) :
    g'.liveNodes = g.liveNodes := by
  rw [liveNodes_eq_map, liveNodes_eq_map, houtputs]
  refine foldlM_map_eq (fun id hid placed' placed hsame => ?_) rfl
  refine map_place_eq hnodup hnodup' hsubset hreads rfl List.nodup_range List.nodup_range (hcomputed id hid)
    (fun op hop => ?_) hsame
  rw [mem_nodesAt_range, mem_nodesAt_range]
  exact iff_of_true hop (hsubset op hop)

/-- The nodes collected from the collected nodes are these, in the same order. -/
theorem liveNodes_liveNodes (hnodup : (outputsOf g.nodes).Nodup) (hlive : g.liveNodes = .ok live) :
    liveNodes { g with nodes := live } = .ok live := by
  have hmem : ∀ op, op ∈ live ↔ g.Live op := fun op => mem_liveNodes_iff hnodup hlive
  rw [← hlive]
  refine liveNodes_of_subset hnodup (ordered_liveNodes hnodup hlive).nodup_outputsOf (fun op hop => ((hmem op).mp hop).mem)
    rfl (fun id hid hcomputed => ?_) fun op hop id hid hcomputed => ?_
  · obtain ⟨producer, hproducer, rfl⟩ := mem_outputsOf.mp hcomputed
    exact mem_outputsOf.mpr ⟨producer, (hmem producer).mpr (.output hproducer hid), rfl⟩
  · obtain ⟨producer, hproducer, rfl⟩ := mem_outputsOf.mp hcomputed
    exact mem_outputsOf.mpr ⟨producer, (hmem producer).mpr (((hmem op).mp hop).input hproducer hid), rfl⟩

/-- A normal form is its own normal form. -/
theorem normalize_normalize (hnodup : (outputsOf g.nodes).Nodup) (hnormal : g.normalize = .ok g') :
    g'.normalize = .ok g' := by
  obtain ⟨live, hlive, rfl⟩ := normalize_eq_ok_iff.mp hnormal
  refine normalize_eq_ok_iff.mpr ⟨live, liveNodes_liveNodes (g := g) hnodup hlive, ?_⟩
  congr 1
  rw [List.filter_filter]
  -- whether a tensor is mentioned does not depend on the table
  exact List.filter_congr fun entry _ => (Bool.and_self (mentions { g with nodes := live } entry.1)).symm

end TensorCompiler.Graph
