import TensorCompiler.Proofs.Graph.Liveness
import TensorCompiler.Proofs.Graph.Value

/-! # The normal form

Among nodes in order none depends on itself, because what a node reads is computed in front of it. So a graph whose nodes
are in order has a normal form. The collected nodes are in order again, and they compute what the outputs need, so the
values that fit together still do.
-/

namespace TensorCompiler.Graph

variable {known : TensorId → Prop} {id : TensorId} {g g' : Graph} {k : ElementKind}

/-- The collected nodes of a graph whose nodes are in order. -/
theorem exists_liveNodes (hordered : Ordered known g.nodes) :
    ∃ live, g.liveNodes = .ok live ∧ Ordered known live ∧ (∀ op ∈ live, op ∈ g.nodes) ∧
      (∀ id ∈ g.outputs, id ∈ outputsOf g.nodes → id ∈ outputsOf live) ∧
      ∀ op ∈ live, op.output ∈ g.outputs ∨ ∃ reader ∈ live, op.output ∈ reader.inputs := by
  have hnodup := hordered.nodup_outputsOf
  obtain ⟨live, hlive⟩ := (exists_liveNodes_iff hnodup).mpr fun op _ => not_dependsOn_self hordered op
  have hmem : ∀ op, op ∈ live ↔ g.Live op := fun op => mem_liveNodes_iff hnodup hlive
  refine ⟨live, hlive, ?_, fun op hop => ((hmem op).mp hop).mem, fun id hid hcomputed => ?_, fun op hop => ?_⟩
  · refine (ordered_liveNodes hnodup hlive).of_agree (fun op hop id hid hnot => ?_) fun op hop hknown => ?_
    · exact (hordered.known_or_mem ((hmem op).mp hop).mem hid).resolve_right hnot
    · exact absurd hknown (hordered.not_known_output ((hmem op).mp hop).mem)
  · obtain ⟨op, hop, rfl⟩ := mem_outputsOf.mp hcomputed
    exact mem_outputsOf.mpr ⟨op, (hmem op).mpr (.output hop hid), rfl⟩
  · cases (hmem op).mp hop with
    | output _ hout => exact Or.inl hout
    | @input reader _ hreader _ hread => exact Or.inr ⟨reader, (hmem reader).mpr hreader, hread⟩

/-- The normal form has the collected nodes and the tensors that these, the inputs and the outputs mention. -/
theorem normalize_eq_ok_iff :
    g.normalize = .ok g' ↔ ∃ live, g.liveNodes = .ok live ∧
      g' = { g with
        nodes := live
        tensors := g.tensors.filter fun entry => mentions { g with nodes := live } entry.1 } := by
  rw [normalize, bind_eq_ok_iff]
  refine exists_congr fun live => and_congr_right fun _ => ?_
  change Except.ok _ = Except.ok g' ↔ _
  rw [Except.ok.injEq, eq_comm]

/-- What an operator of a graph reads or computes is mentioned. -/
theorem mentions_of_mem_nodes {op : Operator} (hop : op ∈ g.nodes) (hid : id ∈ op.inputs ∨ id = op.output) :
    g.mentions id := by
  have hany : (g.nodes.any fun op => op.inputs.contains id || op.output == id) = true := by
    refine List.any_eq_true.mpr ⟨op, hop, ?_⟩
    rcases hid with hid | rfl
    · simp [hid]
    · simp
  rw [mentions, hany, Bool.or_true]

theorem liveNodes_subset {live : List Operator} (h : g.liveNodes = .ok live) {op : Operator} (hop : op ∈ live) :
    op ∈ g.nodes := by
  obtain ⟨order, -, hlive⟩ := bind_eq_ok_iff.mp h
  cases hlive
  obtain ⟨i, -, hi⟩ := List.mem_filterMap.mp hop
  exact List.mem_of_getElem? hi

/-- What is known of a mentioned tensor stays. -/
theorem lookup_filter_mentions {live : List Operator} (h : mentions { g with nodes := live } id) :
    List.lookup id (g.tensors.filter fun entry => mentions { g with nodes := live } entry.1) =
      g.tensors.lookup id := by
  rw [TensorTable.lookup_filter g.tensors fun id => mentions { g with nodes := live } id, if_pos h]

/-- The operators of the normal form compute what they did. -/
theorem Computed.normalize (h : g.Computed k) (hnormal : g.normalize = .ok g') : g'.Computed k := by
  obtain ⟨live, hlive, rfl⟩ := normalize_eq_ok_iff.mp hnormal
  intro op hop
  obtain ⟨d, shape, hcomputes⟩ := h op (liveNodes_subset hlive hop)
  have hkept : ∀ id, id ∈ op.inputs ∨ id = op.output →
      TensorTable.type? (g.tensors.filter fun entry => mentions { g with nodes := live } entry.1) id =
        g.tensors.type? id := by
    intro id hid
    have hmention : mentions { g with nodes := live } id := mentions_of_mem_nodes hop hid
    rw [TensorTable.type?, lookup_filter_mentions hmention]
    rfl
  exact ⟨d, shape, hcomputes.congr (fun id hid => hkept id (Or.inl hid)) (hkept _ (Or.inr rfl))⟩

/-- A well-formed graph has a well-formed normal form, and values that fit together in the graph do so there. -/
theorem WellFormed.exists_normalize [FloatOps] (h : g.WellFormed k) :
    ∃ g', g.normalize = .ok g' ∧ g'.WellFormed k ∧ g.KeepsValues g' := by
  obtain ⟨live, hlive, hordered, hsubset, houtputs, -⟩ := exists_liveNodes h.ordered
  have hnormal := normalize_eq_ok_iff.mpr ⟨live, hlive, rfl⟩
  have hlookup : ∀ {id}, mentions { g with nodes := live } id →
      List.lookup id (g.tensors.filter fun entry => mentions { g with nodes := live } entry.1) =
        g.tensors.lookup id := lookup_filter_mentions
  refine ⟨_, hnormal, ⟨TensorTable.Sorted.filter h.sorted _, ?_, Computed.normalize h.computed hnormal⟩, ?_⟩
  · refine hordered.of_agree (fun op hop id hid hknown => ?_) fun op hop hknown => ?_
    · obtain ⟨info, hinfo, hsource⟩ := hknown
      exact ⟨info, (hlookup (mentions_of_mem_nodes hop (Or.inl hid))).trans hinfo, hsource⟩
    · obtain ⟨info, hinfo, hsource⟩ := hknown
      exact ⟨info, (hlookup (mentions_of_mem_nodes hop (Or.inr rfl))).symm.trans hinfo, hsource⟩
  · intro inputs V outs hV
    refine ⟨fun id info hinfo hsource => ?_, fun op hop => hV.node op (hsubset op hop), ?_⟩
    · have hentry : (id, info) ∈ g.tensors := by
        have hsorted := TensorTable.Sorted.filter h.sorted fun entry => mentions { g with nodes := live } entry.1
        exact (List.mem_filter.mp ((TensorTable.Sorted.lookup_eq_some_iff hsorted).mp hinfo)).1
      exact hV.source id info ((TensorTable.Sorted.lookup_eq_some_iff h.sorted).mpr hentry) hsource
    · refine forall₂_imp_of_mem hV.output fun id hid a ha => ⟨?_, ha.2⟩
      rcases ha.1 with ⟨info, hinfo, hsource⟩ | hmem
      · have hmention : mentions { g with nodes := live } id = true := by
          have hout : g.outputs.contains id = true := List.contains_iff_mem.mpr hid
          rw [mentions, hout, Bool.or_true, Bool.true_or]
        exact Or.inl ⟨info, (hlookup hmention).trans hinfo, hsource⟩
      · exact Or.inr (houtputs id hid hmem)

end TensorCompiler.Graph
