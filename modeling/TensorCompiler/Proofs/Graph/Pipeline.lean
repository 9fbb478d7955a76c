import TensorCompiler.Proofs.Graph.Build
import TensorCompiler.Proofs.Graph.Optimize

/-! # Passes succeed

Every pass of the pipeline succeeds on a well-formed graph and leaves a well-formed graph. What has to be seen is that
an edit looks up recorded tensors only and leaves the nodes in order: a folded tensor becomes known, and a replaced
tensor gives way to one that is known or computed at an earlier position than it was.
-/

namespace TensorCompiler.Graph

variable {k : ElementKind} {g g' : Graph} {op : Operator} {id x y : TensorId}

/-- Every tensor that an operator of a well-formed graph reads or computes is recorded. -/
theorem WellFormed.exists_type (h : g.WellFormed k) (hop : op ∈ g.nodes) (hid : id ∈ op.inputs ∨ id = op.output) :
    ∃ d shape, g.tensors.type? id = some (d, shape) := by
  obtain ⟨d, shape, hcomputes⟩ := h.computed op hop
  rcases hid with hid | rfl
  · exact hcomputes.exists_type_of_mem_inputs hid
  · exact ⟨d, shape, hcomputes.recorded⟩

theorem WellFormed.exists_tensor (h : g.WellFormed k) (hop : op ∈ g.nodes) (hid : id ∈ op.inputs ∨ id = op.output) :
    ∃ info, g.tensor id = .ok info := by
  obtain ⟨d, shape, htype⟩ := h.exists_type hop hid
  obtain ⟨source, hlookup⟩ := TensorTable.type?_eq_some_iff.mp htype
  exact ⟨_, tensor_eq_ok_iff.mpr hlookup⟩

/-! ## Folding -/

theorem exists_producer? (hop : op ∈ g.nodes) :
    ∃ i producer, g.producer? op.output = some i ∧ g.nodes[i]? = some producer ∧ producer.output = op.output := by
  cases hproducer : g.producer? op.output with
  | none =>
    have hnone := List.findIdx?_eq_none_iff.mp hproducer op hop
    simp at hnone
  | some i =>
    obtain ⟨producer, hat, houtput⟩ := output_of_producer? hproducer
    exact ⟨i, producer, rfl, hat, houtput⟩

/-- The output of a node may become a constant. -/
theorem WellFormed.exists_setConstant (h : g.WellFormed k) (hop : op ∈ g.nodes) (value : NDArray) :
    ∃ g', g.setConstant op.output value = .ok g' ∧ g'.WellFormed k := by
  obtain ⟨info, hinfo⟩ := h.exists_tensor hop (Or.inr rfl)
  have hset : g.setConstant op.output value = .ok _ := setConstant_eq_ok_iff.mpr ⟨info, tensor_eq_ok_iff.mp hinfo, rfl⟩
  refine ⟨_, hset, TensorTable.Sorted.insert h.sorted _ _, ?_, h.computed.setConstant hset⟩
  obtain ⟨i, producer, hproducer, hat, houtput⟩ := exists_producer? hop
  obtain ⟨before, after, hnodes, rfl⟩ := exists_append_of_getElem? hat
  have hremoved : (g.removeProducer op.output).nodes = before ++ after := by
    rw [removeProducer, hproducer]
    change g.nodes.eraseIdx before.length = _
    rw [hnodes]
    simp [List.eraseIdx_append]
  have hordered := h.ordered
  rw [hnodes] at hordered
  change Ordered _ (g.removeProducer op.output).nodes
  rw [hremoved]
  refine (Ordered.congr fun id => ?_).mp hordered.remove
  rw [houtput, IsSource, IsSource, TensorTable.lookup_insert]
  by_cases hid : id = op.output
  · simp [hid]
  · simp [hid]

theorem WellFormed.exists_isFoldable (h : g.WellFormed k) (hop : op ∈ g.nodes) (setAside : List TensorId) :
    ∃ foldable, g.isFoldable setAside op = .ok foldable := by
  obtain ⟨info, hinfo⟩ := h.exists_tensor hop (Or.inr rfl)
  obtain ⟨infos, hinfos⟩ := exists_mapM fun id hid => h.exists_tensor hop (Or.inl hid)
  rw [isFoldable, hinfo, allConstant, hinfos]
  split_ifs
  · exact ⟨_, rfl⟩
  · change ∃ foldable, (if maxFoldedElements < info.numel then _ else _) = Except.ok foldable
    split_ifs
    · exact ⟨_, rfl⟩
    · exact ⟨_, rfl⟩

theorem WellFormed.exists_firstFoldable (h : g.WellFormed k) (setAside : List TensorId) {ops : List Operator}
    (hops : ∀ op ∈ ops, op ∈ g.nodes) :
    ∃ found, g.firstFoldable setAside ops = .ok found ∧ ∀ op, found = some op → op ∈ g.nodes := by
  induction ops with
  | nil => exact ⟨none, rfl, by simp⟩
  | cons first ops ih =>
    obtain ⟨foldable, hfoldable⟩ := h.exists_isFoldable (hops first List.mem_cons_self) setAside
    obtain ⟨found, hfound, hmem⟩ := ih fun op hop => hops op (List.mem_cons_of_mem _ hop)
    rw [firstFoldable, hfoldable]
    cases foldable with
    | true => exact ⟨some first, rfl, fun op hop => by cases hop; exact hops first List.mem_cons_self⟩
    | false => exact ⟨found, hfound, hmem⟩

section

variable [FloatOps]

theorem WellFormed.exists_foldSteps (h : g.WellFormed k) (fuel : Nat) (setAside : List TensorId) (changed : Bool) :
    ∃ changed' g', g.foldSteps fuel setAside changed = .ok (changed', g') ∧ g'.WellFormed k := by
  induction fuel generalizing g setAside changed with
  | zero => exact ⟨changed, g, rfl, h⟩
  | succ fuel ih =>
    obtain ⟨found, hfound, hmem⟩ := h.exists_firstFoldable setAside fun op hop => hop
    rw [foldSteps, hfound]
    cases found with
    | none => exact ⟨changed, g, rfl, h⟩
    | some op =>
      cases hvalue : op.computation.evaluate (g.constants op.inputs) with
      | error e =>
        obtain ⟨changed', g', hsteps, hwell⟩ := ih h (op.output :: setAside) changed
        refine ⟨changed', g', ?_, hwell⟩
        simp only [bind_ok, hvalue]
        exact hsteps
      | ok value =>
        obtain ⟨next, hnext, hwell⟩ := h.exists_setConstant (hmem op rfl) value
        obtain ⟨changed', g', hsteps, hwell'⟩ := ih hwell setAside true
        refine ⟨changed', g', ?_, hwell'⟩
        simp only [bind_ok, hvalue, hnext]
        exact hsteps

theorem WellFormed.exists_foldConstants (h : g.WellFormed k) : ∃ g', g.foldConstants = .ok g' ∧ g'.WellFormed k := by
  obtain ⟨changed, folded, hsteps, hwell⟩ := h.exists_foldSteps g.nodes.length [] false
  obtain ⟨normal, hnormal, hwell', -⟩ := hwell.exists_normalize
  cases changed with
  | false =>
    refine ⟨folded, ?_, hwell⟩
    rw [foldConstants, hsteps]
    rfl
  | true =>
    refine ⟨normal, ?_, hwell'⟩
    rw [foldConstants, hsteps]
    exact hnormal

end

/-! ## Rewiring -/

/-- Whether a tensor is known or computed in front of a position. -/
def Available (g : Graph) (i : Nat) (id : TensorId) : Prop :=
  g.IsSource id ∨ ∃ j < i, (outputsOf g.nodes)[j]? = some id

theorem Available.mono {i j : Nat} (h : g.Available i id) (hij : i ≤ j) : g.Available j id :=
  h.imp_right fun ⟨n, hn, hat⟩ => ⟨n, Nat.lt_of_lt_of_le hn hij, hat⟩

theorem WellFormed.available (h : g.WellFormed k) {i : Nat} (hop : g.nodes[i]? = some op) (hid : id ∈ op.inputs) :
    g.Available i id :=
  h.ordered.known_or_earlier hop hid

/-- Making a node of a well-formed graph read another tensor of the same type, that is there at the node. -/
theorem WellFormed.replaceInput (h : g.WellFormed k) {i : Nat} {old new : TensorId} {d : DType}
    {shape : List Int64} (hop : g.nodes[i]? = some op) (hold : g.tensors.type? old = some (d, shape))
    (hnew : g.tensors.type? new = some (d, shape)) (havailable : g.Available i new) :
    ∃ g', g.replaceInput i old new = .ok g' ∧ g'.WellFormed k ∧ outputsOf g'.nodes = outputsOf g.nodes ∧
      g'.tensors = g.tensors := by
  obtain ⟨rebuilt, d', shape', hrecorded, houtput, hinputs, -, hcomputes, hreplace⟩ :=
    exists_replaceInput h.computed hop hold hnew
  obtain ⟨d'', shape'', hcomputes'⟩ := h.computed op (List.mem_of_getElem? hop)
  cases hrecorded.symm.trans hcomputes'.recorded
  have htable : g.tensors.insert op.output ⟨d', shape', .operator⟩ = g.tensors :=
    TensorTable.Sorted.insert_eq_self h.sorted (h.lookup_output (List.mem_of_getElem? hop) hcomputes')
  have hcomputed := h.computed.replaceInput hreplace
  rw [htable] at hreplace hcomputed
  refine ⟨_, hreplace, ⟨h.sorted, ?_, hcomputed⟩, outputsOf_set hop houtput, rfl⟩
  refine h.ordered.replace hop houtput fun id hid => ?_
  rw [hinputs] at hid
  obtain ⟨x, hx, rfl⟩ := List.mem_map.mp (mem_firstOccurrences.mp hid)
  split_ifs
  · exact Or.inr havailable
  · exact Or.inl hx

/-- Replacements that rewiring may make: each replaced tensor is computed, and its replacement has its type and is there
in front of it. -/
def Replacements.Fits (map : Replacements) (g : Graph) : Prop :=
  ∀ entry ∈ map, g.tensors.type? entry.2 = g.tensors.type? entry.1 ∧
    ∃ i, (outputsOf g.nodes)[i]? = some entry.1 ∧ g.Available i entry.2

theorem Replacements.Fits.of_eq {map : Replacements} (h : map.Fits g) (houtputs : outputsOf g'.nodes = outputsOf g.nodes)
    (htensors : g'.tensors = g.tensors) : map.Fits g' := by
  intro entry hentry
  obtain ⟨htype, i, hat, havailable⟩ := h entry hentry
  rw [htensors, houtputs]
  refine ⟨htype, i, hat, ?_⟩
  rw [Available, IsSource, htensors, houtputs]
  exact havailable

/-- A tensor that is there at a position and is replaced is computed in front of that position. -/
theorem Replacements.Fits.of_lookup {map : Replacements} (h : map.Fits g) (hg : g.WellFormed k) {i : Nat} {next : TensorId}
    (hid : g.Available i id) (hnext : map.lookup id = some next) :
    g.tensors.type? next = g.tensors.type? id ∧
      ∃ j < i, (outputsOf g.nodes)[j]? = some id ∧ g.Available j next := by
  obtain ⟨before, after, hmap, -⟩ := List.lookup_eq_some_iff.mp hnext
  have hmem : (id, next) ∈ map := by simp [hmap]
  obtain ⟨htype, j, hj, havailable⟩ := h _ hmem
  refine ⟨htype, j, ?_, hj, havailable⟩
  rcases hid with hsource | ⟨j', hj', hat⟩
  · obtain ⟨op, hop, rfl⟩ := mem_outputsOf.mp (List.mem_of_getElem? hj)
    exact absurd hsource (hg.ordered.not_known_output hop)
  · have hlength := (List.getElem?_eq_some_iff.mp hj).1
    rwa [(List.getElem?_inj hlength hg.ordered.nodup_outputsOf).mp (hj.trans hat.symm)]

/-- The end of a chain of replacements has the type of its start and is there where the start is. -/
theorem Replacements.Fits.resolve {map : Replacements} (h : map.Fits g) (hg : g.WellFormed k) {i : Nat}
    (hid : g.Available i id) :
    g.tensors.type? (resolve map id) = g.tensors.type? id ∧ g.Available i (resolve map id) := by
  have hsteps : ∀ fuel, g.tensors.type? (resolveSteps map fuel id) = g.tensors.type? id ∧
      g.Available i (resolveSteps map fuel id) := by
    intro fuel
    induction fuel generalizing id with
    | zero => exact ⟨rfl, hid⟩
    | succ fuel ih =>
      rw [resolveSteps]
      cases hnext : map.lookup id with
      | none => exact ⟨rfl, hid⟩
      | some next =>
        obtain ⟨htype, j, hlt, -, havailable⟩ := h.of_lookup hg hid hnext
        obtain ⟨htype', havailable'⟩ := ih (havailable.mono (Nat.le_of_lt hlt))
        exact ⟨htype'.trans htype, havailable'⟩
  exact hsteps map.length

theorem WellFormed.exists_rewireNode (h : g.WellFormed k) {map : Replacements} (hmap : map.Fits g) (i : Nat) :
    ∃ g', g.rewireNode map i = .ok g' ∧ g'.WellFormed k ∧ outputsOf g'.nodes = outputsOf g.nodes ∧
      g'.tensors = g.tensors := by
  rw [rewireNode]
  cases hop : g.nodes[i]? with
  | none => exact ⟨g, rfl, h, rfl, rfl⟩
  | some op =>
    refine exists_foldlM (P := fun g' : Graph => g'.WellFormed k ∧ outputsOf g'.nodes = outputsOf g.nodes ∧
      g'.tensors = g.tensors) (fun old hold acc hacc => ?_) ⟨h, rfl, rfl⟩
    obtain ⟨hwell, houtputs, htensors⟩ := hacc
    have hold' : acc.Available i old := by
      rw [Available, IsSource, htensors, houtputs]
      exact h.available hop hold
    obtain ⟨htype, havailable⟩ := (hmap.of_eq houtputs htensors).resolve hwell hold'
    obtain ⟨d, shape, hrecorded⟩ := h.exists_type (List.mem_of_getElem? hop) (Or.inl hold)
    rw [← htensors] at hrecorded
    obtain ⟨op', hop'⟩ : ∃ op', acc.nodes[i]? = some op' := by
      have hat : (outputsOf acc.nodes)[i]? = some op.output := by
        rw [houtputs, outputsOf, List.getElem?_map, hop]
        rfl
      rw [outputsOf, List.getElem?_map, Option.map_eq_some_iff] at hat
      exact hat.imp fun _ hat => hat.1
    by_cases hsame : Graph.resolve map old = old
    · exact ⟨acc, if_pos hsame, hwell, houtputs, htensors⟩
    · obtain ⟨next, hnext, hwell', houtputs', htensors'⟩ :=
        hwell.replaceInput hop' hrecorded (htype.trans hrecorded) havailable
      exact ⟨next, (if_neg hsame).trans hnext, hwell', houtputs'.trans houtputs, htensors'.trans htensors⟩

/-! ## Simplification -/

theorem mem_of_mem_identities {fn : BinaryFn} {a b : TensorId} {entry : TensorId × TensorId × Float}
    (h : entry ∈ fn.identities a b) : entry.1 ∈ [a, b] ∧ entry.2.1 ∈ [a, b] := by
  cases fn <;> simp only [BinaryFn.identities, List.mem_cons, List.not_mem_nil, or_false] at h
  · rcases h with rfl | rfl <;> simp
  · subst h
    simp
  · rcases h with rfl | rfl <;> simp
  · subst h
    simp

section

variable [FloatOps]

theorem exists_isSplat {info : TensorInfo} (h : g.tensor id = .ok info) (c : Float) : ∃ splat, g.isSplat id c = .ok splat := by
  rw [isSplat, h]
  exact ⟨_, rfl⟩

/-- The operand that an identity keeps is one of those that may be kept. -/
theorem exists_of_firstIdentity {entries : List (TensorId × TensorId × Float)}
    (h : g.firstIdentity entries = .ok (some x)) : ∃ entry ∈ entries, entry.1 = x := by
  induction entries with
  | nil => cases h
  | cons entry entries ih =>
    obtain ⟨kept, other, c⟩ := entry
    obtain ⟨splat, -, hrest⟩ := bind_eq_ok_iff.mp h
    cases splat with
    | true =>
      cases hrest
      exact ⟨_, List.mem_cons_self, rfl⟩
    | false =>
      obtain ⟨entry, hentry, hkept⟩ := ih hrest
      exact ⟨entry, List.mem_cons_of_mem _ hentry, hkept⟩

theorem exists_firstIdentity {entries : List (TensorId × TensorId × Float)}
    (h : ∀ entry ∈ entries, ∃ info, g.tensor entry.2.1 = .ok info) : ∃ found, g.firstIdentity entries = .ok found := by
  induction entries with
  | nil => exact ⟨none, rfl⟩
  | cons entry entries ih =>
    obtain ⟨kept, other, c⟩ := entry
    obtain ⟨info, hinfo⟩ := h _ List.mem_cons_self
    obtain ⟨splat, hsplat⟩ := exists_isSplat hinfo c
    rw [firstIdentity, hsplat]
    cases splat with
    | true => exact ⟨some kept, rfl⟩
    | false => exact ih fun entry hentry => h entry (List.mem_cons_of_mem _ hentry)

omit [FloatOps] in
theorem exists_of_producerNode? (h : g.producerNode? id = some op) : op ∈ g.nodes ∧ op.output = id := by
  obtain ⟨i, hi, hat⟩ := Option.bind_eq_some_iff.mp h
  obtain ⟨producer, hat', houtput⟩ := output_of_producer? hi
  cases hat.symm.trans hat'
  exact ⟨List.mem_of_getElem? hat, houtput⟩

/-- A node repeats a tensor that it reads, or one that the operator behind its input reads. -/
theorem mem_of_simplified? (h : g.simplified? op = .ok (some y)) :
    y ∈ op.inputs ∨ ∃ inner ∈ g.nodes, inner.output ∈ op.inputs ∧ y ∈ inner.inputs := by
  unfold simplified? at h
  split at h
  · rename_i fn a b hkind hinputs
    obtain ⟨entry, hentry, rfl⟩ := exists_of_firstIdentity h
    exact Or.inl (hinputs ▸ (mem_of_mem_identities hentry).1)
  · rename_i x hkind hinputs
    split at h
    · rename_i inner hinner
      obtain ⟨hmem, rfl⟩ := exists_of_producerNode? hinner
      have hhead := Except.ok.inj h
      split_ifs at hhead
      exact Or.inr ⟨inner, hmem, hinputs ▸ List.mem_singleton_self _, List.mem_of_head? hhead⟩
    · cases h
  · rename_i x hkind hinputs
    split at h
    · have hkept := Except.ok.inj h
      split_ifs at hkept
      cases hkept
      exact Or.inl (hinputs ▸ List.mem_singleton_self _)
    · cases h
  · cases h

theorem WellFormed.exists_simplified? (h : g.WellFormed k) (hop : op ∈ g.nodes) :
    ∃ found, g.simplified? op = .ok found := by
  unfold simplified?
  split
  · rename_i fn a b hkind hinputs
    exact exists_firstIdentity fun entry hentry =>
      h.exists_tensor hop (Or.inl (hinputs ▸ (mem_of_mem_identities hentry).2))
  · split <;> exact ⟨_, rfl⟩
  · split <;> exact ⟨_, rfl⟩
  · exact ⟨none, rfl⟩

/-- A replacement for the output of a node has the type of the output and is there in front of it. -/
theorem WellFormed.exists_replacement? (h : g.WellFormed k) {i : Nat} (hat : g.nodes[i]? = some op) :
    ∃ found, g.replacement? op = .ok found ∧ ∀ x, found = some x →
      g.tensors.type? x = g.tensors.type? op.output ∧ g.Available i x := by
  have hop := List.mem_of_getElem? hat
  obtain ⟨found, hfound⟩ := h.exists_simplified? hop
  rw [replacement?, hfound]
  cases found with
  | none => exact ⟨none, rfl, by simp⟩
  | some x =>
    obtain ⟨hrecorded, havailable⟩ : (∃ info, g.tensor x = .ok info) ∧ g.Available i x := by
      rcases mem_of_simplified? hfound with hx | ⟨inner, hinner, hread, hx⟩
      · exact ⟨h.exists_tensor hop (Or.inl hx), h.available hat hx⟩
      · refine ⟨h.exists_tensor hinner (Or.inl hx), ?_⟩
        obtain ⟨j, hj⟩ := List.mem_iff_getElem?.mp hinner
        obtain ⟨before, between, after, -, hbefore, hbetween⟩ := h.ordered.exists_split hj hat hread
        exact (h.available hj hx).mono (by omega)
    obtain ⟨info, hinfo⟩ := hrecorded
    obtain ⟨output, houtput⟩ := h.exists_tensor hop (Or.inr rfl)
    change ∃ found, (g.tensor x >>= fun info => g.tensor op.output >>= fun output => _) = Except.ok found ∧ _
    rw [hinfo, houtput]
    refine ⟨_, rfl, fun y hy => ?_⟩
    split_ifs at hy with hsame
    cases hy
    refine ⟨?_, havailable⟩
    rw [TensorTable.type?_of_lookup (tensor_eq_ok_iff.mp hinfo), TensorTable.type?_of_lookup (tensor_eq_ok_iff.mp houtput)]
    simp only [TensorInfo.sameType, Bool.and_eq_true, beq_iff_eq] at hsame
    rw [hsame.1, hsame.2]

theorem WellFormed.exists_replacements (h : g.WellFormed k) : ∃ map, g.replacements = .ok map ∧ Replacements.Fits map g := by
  rw [replacements]
  refine exists_foldlM (P := fun map : Replacements => map.Fits g) (fun op hop map hmap => ?_) (by simp [Replacements.Fits])
  split_ifs
  · exact ⟨map, rfl, hmap⟩
  · obtain ⟨i, hat⟩ := List.mem_iff_getElem?.mp hop
    obtain ⟨found, hfound, hfits⟩ := h.exists_replacement? hat
    rw [hfound]
    cases found with
    | none => exact ⟨map, rfl, hmap⟩
    | some x =>
      refine ⟨(op.output, x) :: map, rfl, fun entry hentry => ?_⟩
      rcases List.mem_cons.mp hentry with rfl | hentry
      · obtain ⟨htype, havailable⟩ := hfits x rfl
        refine ⟨htype, i, ?_, havailable⟩
        rw [outputsOf, List.getElem?_map, hat]
        rfl
      · exact hmap entry hentry

omit [FloatOps] in
/-- Rewiring every node of a well-formed graph. -/
theorem WellFormed.exists_rewire (h : g.WellFormed k) {map : Replacements} (hmap : map.Fits g) :
    ∃ rewired, (List.range g.nodes.length).foldlM (rewireNode map) g = .ok rewired ∧ rewired.WellFormed k := by
  obtain ⟨rewired, hrewired, hwell, -⟩ : ∃ rewired, (List.range g.nodes.length).foldlM (rewireNode map) g = .ok rewired ∧
      rewired.WellFormed k ∧ outputsOf rewired.nodes = outputsOf g.nodes ∧ rewired.tensors = g.tensors := by
    refine exists_foldlM (P := fun g' : Graph => g'.WellFormed k ∧ outputsOf g'.nodes = outputsOf g.nodes ∧
      g'.tensors = g.tensors) (fun i _ acc hacc => ?_) ⟨h, rfl, rfl⟩
    obtain ⟨hwell, houtputs, htensors⟩ := hacc
    obtain ⟨next, hnext, hwell', houtputs', htensors'⟩ := hwell.exists_rewireNode (hmap.of_eq houtputs htensors) i
    exact ⟨next, hnext, hwell', houtputs'.trans houtputs, htensors'.trans htensors⟩
  exact ⟨rewired, hrewired, hwell⟩

theorem WellFormed.exists_simplifyAlgebra (h : g.WellFormed k) : ∃ g', g.simplifyAlgebra = .ok g' ∧ g'.WellFormed k := by
  obtain ⟨map, hmap, hfits⟩ := h.exists_replacements
  obtain ⟨rewired, hrewired, hwell⟩ := h.exists_rewire hfits
  obtain ⟨normal, hnormal, hwell', -⟩ := hwell.exists_normalize
  rw [simplifyAlgebra, hmap]
  change ∃ g', (if map.isEmpty then _ else _) = Except.ok g' ∧ _
  split_ifs
  · exact ⟨g, rfl, h⟩
  · refine ⟨normal, ?_, hwell'⟩
    rw [hrewired]
    exact hnormal

/-! ## Pipelines -/

/-- Every pass succeeds on a well-formed graph and leaves a well-formed graph. -/
theorem WellFormed.exists_runPass (h : g.WellFormed k) (pass : GraphPass) :
    ∃ g', pass.run g = .ok g' ∧ g'.WellFormed k := by
  cases pass with
  | constFold => exact h.exists_foldConstants
  | patternTransform => exact h.exists_simplifyAlgebra
  | fuseUnary => exact h.exists_fuseAll FusionRule.unary_sound
  | fuseEpilogue => exact h.exists_fuseAll FusionRule.epilogue_sound
  | fusePrologue => exact h.exists_fuseAll FusionRule.prologue_sound

theorem WellFormed.exists_runSteps (h : g.WellFormed k) (passes : List GraphPass) :
    ∃ steps last, PassRun.runSteps g passes = .ok (steps, last) ∧ last.WellFormed k := by
  induction passes generalizing g with
  | nil => exact ⟨[], g, rfl, h⟩
  | cons pass passes ih =>
    obtain ⟨next, hnext, hwell⟩ := h.exists_runPass pass
    obtain ⟨steps, last, hsteps, hlast⟩ := ih hwell
    exact ⟨(pass, next) :: steps, last, runSteps_cons_eq_ok_iff.mpr ⟨next, steps, hnext, hsteps, rfl⟩, hlast⟩

/-- A run of any passes over a well-formed graph succeeds, and its result is well-formed. -/
theorem WellFormed.exists_run (h : g.WellFormed k) (passes : List GraphPass) :
    ∃ run, PassRun.run passes g = .ok run ∧ run.result.WellFormed k := by
  obtain ⟨start, hstart, hwell, -⟩ := h.exists_normalize
  obtain ⟨steps, last, hsteps, hlast⟩ := hwell.exists_runSteps passes
  obtain ⟨result, hresult, hwell', -⟩ := hlast.exists_normalize
  exact ⟨⟨start, steps, result⟩, run_eq_ok_iff.mpr ⟨hstart, last, hsteps, hresult⟩, hwell'⟩

end

end TensorCompiler.Graph
