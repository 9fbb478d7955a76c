import TensorCompiler.Proofs.Graph.Pipeline

/-! # Constant folding of graphs

Folding keeps what a graph evaluates to, and it is complete: what is left are operators that do not read constants only,
that have large outputs, or that the evaluator rejects.

The value of a node that reads constants is the one that the tensor has among any values that fit together, so
recording it keeps these values. A node that is set aside stays rejected, because a constant stays the constant that
it is. Each step folds a node or sets one aside, so the nodes that are neither run out before the steps do.
-/

namespace TensorCompiler.Graph

variable {k : ElementKind} {g g' : Graph} {op : Operator} {id : TensorId} {ids setAside : List TensorId}

/-! ## Constants -/

/-- Whether tensors are constants. -/
def AreConstant (g : Graph) (ids : List TensorId) : Prop :=
  ∀ id ∈ ids, ∃ info, g.tensors.lookup id = some info ∧ info.isConstant

theorem allConstant_eq_ok_iff {all : Bool} (h : g.allConstant ids = .ok all) : all = true ↔ g.AreConstant ids := by
  obtain ⟨infos, hinfos, hall⟩ := bind_eq_ok_iff.mp h
  cases hall
  rw [mapM_eq_ok_iff] at hinfos
  rw [List.all_eq_true]
  constructor
  · intro hconstant id hid
    obtain ⟨info, hmem, hinfo⟩ := exists_mem_of_forall₂ hinfos hid
    exact ⟨info, tensor_eq_ok_iff.mp hinfo, hconstant info hmem⟩
  · intro hconstant
    refine forall_mem_of_forall₂ hinfos fun id hid info hinfo => ?_
    obtain ⟨info', hinfo', htrue⟩ := hconstant id hid
    cases (tensor_eq_ok_iff.mp hinfo).symm.trans hinfo'
    exact htrue

/-- The constants that an operator is evaluated with are those that the graph records. -/
theorem exists_of_lookup_constants {a : NDArray} (h : (g.constants ids).lookup id.name = some a) :
    ∃ info, g.tensors.lookup id = some info ∧ info.source = .constant a := by
  obtain ⟨before, after, heq, -⟩ := List.lookup_eq_some_iff.mp h
  have hmem : (id.name, a) ∈ g.constants ids := by simp [heq]
  obtain ⟨id', -, hentry⟩ := List.mem_filterMap.mp hmem
  obtain ⟨info, hinfo, hrest⟩ := Option.bind_eq_some_iff.mp hentry
  obtain ⟨value, hvalue, hpair⟩ := Option.bind_eq_some_iff.mp hrest
  obtain ⟨hname, rfl⟩ := Prod.mk.inj (Option.some.inj hpair)
  obtain rfl := TensorId.name_injective hname
  refine ⟨info, hinfo, ?_⟩
  cases hsource : info.source with
  | constant b =>
    rw [TensorInfo.constant?, hsource] at hvalue
    cases hvalue
    rfl
  | input name =>
    rw [TensorInfo.constant?, hsource] at hvalue
    cases hvalue
  | operator =>
    rw [TensorInfo.constant?, hsource] at hvalue
    cases hvalue

/-- What is recorded of the tensors decides with which constants an operator is evaluated. -/
theorem constants_congr (h : ∀ id ∈ ids, g'.tensors.lookup id = g.tensors.lookup id) :
    g'.constants ids = g.constants ids := by
  refine List.filterMap_congr fun id hid => ?_
  rw [h id hid]

theorem AreConstant.congr (hconstant : g.AreConstant ids) (h : ∀ id ∈ ids, g'.tensors.lookup id = g.tensors.lookup id) :
    g'.AreConstant ids := by
  intro id hid
  rw [h id hid]
  exact hconstant id hid

/-! ## Folding one node -/

/-- Turning the output of a node into a constant takes out this node, the only one that computes the tensor. -/
theorem WellFormed.exists_of_setConstant (h : g.WellFormed k) (hop : op ∈ g.nodes) {value : NDArray}
    (hset : g.setConstant op.output value = .ok g') :
    ∃ before after info, g.nodes = before ++ op :: after ∧ g.tensors.lookup op.output = some info ∧ g' = { g with
      tensors := g.tensors.insert op.output { info with source := .constant value }
      nodes := before ++ after } := by
  obtain ⟨info, hinfo, rfl⟩ := setConstant_eq_ok_iff.mp hset
  obtain ⟨i, producer, hproducer, hat, houtput⟩ := exists_producer? hop
  obtain ⟨j, hj⟩ := List.mem_iff_getElem?.mp hop
  obtain rfl := h.ordered.eq_of_output_eq hat hj houtput
  obtain ⟨before, after, hnodes, rfl⟩ := exists_append_of_getElem? hj
  have hremoved : g.removeProducer op.output = { g with nodes := before ++ after } := by
    rw [removeProducer, hproducer]
    change { g with nodes := g.nodes.eraseIdx before.length } = _
    rw [hnodes]
    simp [List.eraseIdx_append]
  exact ⟨before, after, info, hnodes, hinfo, by rw [hremoved]⟩

/-- Where values fit together, a node that reads constants has the value that these give. -/
theorem WellFormed.lookup_of_evaluate_constants [FloatOps] (h : g.WellFormed k) (hop : op ∈ g.nodes) {value : NDArray}
    (hvalue : op.computation.evaluate (g.constants op.inputs) = .ok value) {inputs V : Tensors} {outs : List NDArray}
    (hV : g.Valued inputs V outs) : V.lookup op.output.name = some value := by
  obtain ⟨a, ha, hlookup⟩ := hV.node op hop
  obtain ⟨d, shape, hcomputes⟩ := h.computed op hop
  have hsame : op.computation.evaluate V = .ok value := by
    refine hcomputes.defines.evaluate_mono (fun id hid b hb => ?_) hvalue
    obtain ⟨info, hinfo, hsource⟩ := exists_of_lookup_constants hb
    obtain ⟨a, ha, hlookup⟩ := hV.source id info hinfo (by simp [hsource])
    rw [hsource] at ha
    cases ha
    exact hlookup
  cases ha.symm.trans hsame
  exact hlookup

/-- Folding a node keeps the values of a graph. -/
theorem WellFormed.keepsValues_setConstant [FloatOps] (h : g.WellFormed k) (hop : op ∈ g.nodes) {value : NDArray}
    (hvalue : op.computation.evaluate (g.constants op.inputs) = .ok value) (hset : g.setConstant op.output value = .ok g') :
    g.KeepsValues g' := by
  obtain ⟨before, after, info, hnodes, -, rfl⟩ := h.exists_of_setConstant hop hset
  intro inputs V outs hV
  have hmem (op' : Operator) (hop' : op' ∈ before ++ after) : op' ∈ g.nodes := by
    rw [hnodes]
    exact List.mem_append.mpr ((List.mem_append.mp hop').imp_right (List.mem_cons_of_mem op))
  refine ⟨fun id info' hinfo hsource => ?_, fun op' hop' => hV.node op' (hmem op' hop'),
    hV.output.imp fun id a ha => ⟨?_, ha.2⟩⟩
  · rw [TensorTable.lookup_insert] at hinfo
    split_ifs at hinfo with hid
    · cases hinfo
      subst hid
      exact ⟨value, rfl, h.lookup_of_evaluate_constants hop hvalue hV⟩
    · exact hV.source id info' hinfo hsource
  · -- the folded tensor is a source now, the other ones are there as before
    by_cases hid : id = op.output
    · subst hid
      exact Or.inl ⟨{ info with source := .constant value }, by rw [TensorTable.lookup_insert, if_pos rfl], nofun⟩
    · refine ha.1.imp (fun hsource => ?_) fun hout => ?_
      · obtain ⟨info', hinfo, hsource⟩ := hsource
        exact ⟨info', by rw [TensorTable.lookup_insert, if_neg hid]; exact hinfo, hsource⟩
      · rw [hnodes] at hout
        simpa [outputsOf, hid] using hout

/-! ## What is left -/

section

variable [FloatOps]

/-- Whether the evaluator rejects an operator for the constants that it reads. -/
def Rejects (g : Graph) (op : Operator) : Prop :=
  ∃ e, op.computation.evaluate (g.constants op.inputs) = .error e

/-- Whether no operator can be folded: those that read constants only and are not too large are rejected. -/
def Folded (g : Graph) : Prop :=
  ∀ op ∈ g.nodes, ∀ info, g.tensors.lookup op.output = some info → info.numel ≤ maxFoldedElements →
    g.AreConstant op.inputs → g.Rejects op

/-- Whether the nodes that are set aside read constants and are rejected. -/
def SetAside (g : Graph) (setAside : List TensorId) : Prop :=
  ∀ op ∈ g.nodes, op.output ∈ setAside → g.AreConstant op.inputs ∧ g.Rejects op

/-- The number of nodes that are not set aside. -/
def pending (g : Graph) (setAside : List TensorId) : Nat :=
  g.nodes.countP fun op => !setAside.contains op.output

omit [FloatOps] in
/-- A node that is to be evaluated is not set aside and reads constants; another one is set aside or large, or reads
something else. -/
theorem isFoldable_eq_ok {foldable : Bool} (h : g.isFoldable setAside op = .ok foldable) :
    (foldable = true → op.output ∉ setAside ∧ g.AreConstant op.inputs) ∧
      (foldable = false → op.output ∈ setAside ∨ (∃ info, g.tensors.lookup op.output = some info ∧
        maxFoldedElements < info.numel) ∨ ¬ g.AreConstant op.inputs) := by
  rw [isFoldable] at h
  split_ifs at h with haside
  · cases h
    exact ⟨(absurd · Bool.false_ne_true), fun _ => Or.inl (List.contains_iff_mem.mp haside)⟩
  · obtain ⟨info, hinfo, hrest⟩ := bind_eq_ok_iff.mp h
    split_ifs at hrest with hlarge
    · cases hrest
      exact ⟨(absurd · Bool.false_ne_true), fun _ => Or.inr (Or.inl ⟨info, tensor_eq_ok_iff.mp hinfo, hlarge⟩)⟩
    · have hconstant := allConstant_eq_ok_iff hrest
      refine ⟨fun htrue => ⟨fun hmem => haside (List.contains_iff_mem.mpr hmem), hconstant.mp htrue⟩, fun hfalse => ?_⟩
      refine Or.inr (Or.inr fun hall => ?_)
      rw [hconstant.mpr hall] at hfalse
      cases hfalse

omit [FloatOps] in
/-- The first node that is to be evaluated, or none if no node is. -/
theorem firstFoldable_eq_ok {ops : List Operator} {found : Option Operator}
    (h : g.firstFoldable setAside ops = .ok found) :
    (∀ op, found = some op → op ∈ ops ∧ g.isFoldable setAside op = .ok true) ∧
      (found = none → ∀ op ∈ ops, g.isFoldable setAside op = .ok false) := by
  induction ops with
  | nil =>
    cases h
    exact ⟨nofun, fun _ => nofun⟩
  | cons first ops ih =>
    obtain ⟨foldable, hfoldable, hrest⟩ := bind_eq_ok_iff.mp h
    cases foldable with
    | true =>
      cases hrest
      exact ⟨fun op hop => by cases hop; exact ⟨List.mem_cons_self, hfoldable⟩, nofun⟩
    | false =>
      obtain ⟨hsome, hnone⟩ := ih hrest
      refine ⟨fun op hop => (hsome op hop).imp_left (List.mem_cons_of_mem _), fun hfound op hop => ?_⟩
      rcases List.mem_cons.mp hop with rfl | hop
      · exact hfoldable
      · exact hnone hfound op hop

/-- Where no node is to be evaluated, none can be folded. -/
theorem folded_of_firstFoldable (haside : g.SetAside setAside) (h : g.firstFoldable setAside g.nodes = .ok none) :
    g.Folded := by
  intro op hop info hinfo hsmall hconstant
  have hfoldable := (firstFoldable_eq_ok h).2 rfl op hop
  rcases (isFoldable_eq_ok hfoldable).2 rfl with hmem | ⟨info', hinfo', hlarge⟩ | hother
  · exact (haside op hop hmem).2
  · cases hinfo.symm.trans hinfo'
    exact absurd hsmall (Int64.not_le.mpr hlarge)
  · exact absurd hconstant hother

/-- Where every node is set aside, none can be folded. -/
theorem folded_of_pending (haside : g.SetAside setAside) (h : g.pending setAside = 0) : g.Folded := by
  intro op hop _ _ _ _
  have hmem : op.output ∈ setAside := by simpa using List.countP_eq_zero.mp h op hop
  exact (haside op hop hmem).2

/-- A graph whose constants are the same in the table rejects the same operators. -/
theorem Rejects.congr (h : g.Rejects op) (hlookup : ∀ id ∈ op.inputs, g'.tensors.lookup id = g.tensors.lookup id) :
    g'.Rejects op := by
  rw [Rejects, constants_congr hlookup]
  exact h

omit [FloatOps] in
/-- A constant stays what it is when the output of a node becomes one. -/
theorem WellFormed.lookup_setConstant (h : g.WellFormed k) (hop : op ∈ g.nodes) {value : NDArray}
    (hset : g.setConstant op.output value = .ok g') (hconstant : g.AreConstant ids) :
    ∀ id ∈ ids, g'.tensors.lookup id = g.tensors.lookup id := by
  obtain ⟨_, _, info, -, -, rfl⟩ := h.exists_of_setConstant hop hset
  obtain ⟨d, shape, hcomputes⟩ := h.computed op hop
  intro id hid
  rw [TensorTable.lookup_insert, if_neg]
  rintro rfl
  obtain ⟨info', hinfo, htrue⟩ := hconstant _ hid
  cases hinfo.symm.trans (h.lookup_output hop hcomputes)
  cases htrue

/-- Folding a node leaves what is set aside and one node less. -/
theorem WellFormed.setAside_setConstant (h : g.WellFormed k) (haside : g.SetAside setAside) (hop : op ∈ g.nodes)
    (hfresh : op.output ∉ setAside) {value : NDArray} (hset : g.setConstant op.output value = .ok g') :
    g'.SetAside setAside ∧ g'.pending setAside + 1 = g.pending setAside := by
  obtain ⟨before, after, info, hnodes, -, hg'⟩ := h.exists_of_setConstant hop hset
  have hnodes' : g'.nodes = before ++ after := congrArg Graph.nodes hg'
  refine ⟨fun op' hop' hmem => ?_, ?_⟩
  · have hold : op' ∈ g.nodes := by
      rw [hnodes'] at hop'
      rw [hnodes]
      exact List.mem_append.mpr ((List.mem_append.mp hop').imp_right (List.mem_cons_of_mem op))
    obtain ⟨hconstant, hrejects⟩ := haside op' hold hmem
    have hlookup := h.lookup_setConstant hop hset hconstant
    exact ⟨hconstant.congr hlookup, hrejects.congr hlookup⟩
  · rw [pending, pending, hnodes', hnodes, List.countP_append, List.countP_append, List.countP_cons,
      if_pos (by simpa using hfresh)]
    omega

/-- Setting a node aside that is rejected leaves one node less. -/
theorem setAside_cons (haside : g.SetAside setAside) (hordered : (outputsOf g.nodes).Nodup) (hop : op ∈ g.nodes)
    (hfresh : op.output ∉ setAside) (hconstant : g.AreConstant op.inputs) (hrejects : g.Rejects op) :
    g.SetAside (op.output :: setAside) ∧ g.pending (op.output :: setAside) < g.pending setAside := by
  refine ⟨fun op' hop' hmem => ?_, ?_⟩
  · rcases List.mem_cons.mp hmem with hsame | hmem
    · obtain rfl := List.inj_on_of_nodup_map hordered hop' hop hsame
      exact ⟨hconstant, hrejects⟩
    · exact haside op' hop' hmem
  · refine countP_lt_countP hop (fun op' _ hout => ?_) (by simp) (by simpa using hfresh)
    simp only [List.contains_cons, Bool.not_or, Bool.and_eq_true] at hout
    exact hout.2

/-! ## The pass -/

/-- With a step for each node that is not set aside, folding ends with a graph that has the same values and in which no
node can be folded. -/
theorem WellFormed.keepsValues_foldSteps (h : g.WellFormed k) (haside : g.SetAside setAside) {fuel : Nat}
    (hfuel : g.pending setAside ≤ fuel) (changed : Bool) :
    ∃ changed' g', g.foldSteps fuel setAside changed = .ok (changed', g') ∧ g'.WellFormed k ∧ g.KeepsValues g' ∧
      g'.Folded := by
  induction fuel generalizing g setAside changed with
  | zero => exact ⟨changed, g, rfl, h, fun _ _ _ hV => hV, folded_of_pending haside (Nat.le_zero.mp hfuel)⟩
  | succ fuel ih =>
    obtain ⟨found, hfound, -⟩ := h.exists_firstFoldable setAside fun op hop => hop
    cases found with
    | none =>
      refine ⟨changed, g, ?_, h, fun _ _ _ hV => hV, folded_of_firstFoldable haside hfound⟩
      rw [foldSteps, hfound]
      rfl
    | some op =>
      obtain ⟨hop, hfoldable⟩ := (firstFoldable_eq_ok hfound).1 op rfl
      obtain ⟨hfresh, hconstant⟩ := (isFoldable_eq_ok hfoldable).1 rfl
      rw [foldSteps, hfound]
      -- whether the node is folded or set aside, fewer are pending
      cases hvalue : op.computation.evaluate (g.constants op.inputs) with
      | error e =>
        obtain ⟨haside', hless⟩ := setAside_cons haside h.ordered.nodup_outputsOf hop hfresh hconstant ⟨e, hvalue⟩
        obtain ⟨changed', g', hsteps, hg'⟩ := ih h haside' (by omega) changed
        refine ⟨changed', g', ?_, hg'⟩
        simp only [bind_ok, hvalue]
        exact hsteps
      | ok value =>
        obtain ⟨next, hnext, hwell⟩ := h.exists_setConstant hop value
        obtain ⟨haside', hless⟩ := h.setAside_setConstant haside hop hfresh hnext
        obtain ⟨changed', g', hsteps, hwell', hkeeps, hfolded⟩ := ih hwell haside' (by omega) true
        refine ⟨changed', g', ?_, hwell', (h.keepsValues_setConstant hop hvalue hnext).trans hkeeps, hfolded⟩
        simp only [bind_ok, hvalue, hnext]
        exact hsteps

/-- The normal form of a graph in which nothing can be folded is one too. -/
theorem Folded.normalize (h : g.Folded) (hnormal : g.normalize = .ok g') : g'.Folded := by
  obtain ⟨live, hlive, rfl⟩ := normalize_eq_ok_iff.mp hnormal
  intro op hop info hinfo hsmall hconstant
  have hkept : ∀ id, id ∈ op.inputs ∨ id = op.output →
      List.lookup id (g.tensors.filter fun entry => mentions { g with nodes := live } entry.1) = g.tensors.lookup id :=
    fun id hid => lookup_filter_mentions (mentions_of_mem_nodes hop hid)
  have hinputs : ∀ id ∈ op.inputs, g.tensors.lookup id =
      List.lookup id (g.tensors.filter fun entry => mentions { g with nodes := live } entry.1) :=
    fun id hid => (hkept id (Or.inl hid)).symm
  have hrejects := h op (liveNodes_subset hlive hop) info ((hkept _ (Or.inr rfl)).symm.trans hinfo) hsmall
    (hconstant.congr hinputs)
  exact hrejects.congr fun id hid => hkept id (Or.inl hid)

/-- Folding a well-formed graph succeeds, keeps its values, and leaves nothing that can be folded. -/
theorem WellFormed.keepsValues_foldConstants (h : g.WellFormed k) :
    ∃ g', g.foldConstants = .ok g' ∧ g'.WellFormed k ∧ g.KeepsValues g' ∧ g'.Folded := by
  have haside : g.SetAside [] := fun _ _ hmem => absurd hmem List.not_mem_nil
  obtain ⟨changed, folded, hsteps, hwell, hkeeps, hfolded⟩ :=
    h.keepsValues_foldSteps haside List.countP_le_length false
  obtain ⟨normal, hnormal, hwell', hkeeps'⟩ := hwell.exists_normalize
  cases changed with
  | false =>
    refine ⟨folded, ?_, hwell, hkeeps, hfolded⟩
    rw [foldConstants, hsteps]
    rfl
  | true =>
    refine ⟨normal, ?_, hwell', hkeeps.trans hkeeps', hfolded.normalize hnormal⟩
    rw [foldConstants, hsteps]
    exact hnormal

/-- Constant folding preserves results and is complete: on every graph that can be built it succeeds, what the graph
evaluates to the folded graph does too, and the evaluator rejects every operator left there that reads constants only
and is not too large. -/
theorem foldConstants_build (steps : List BuildStep) :
    ∃ g', (build steps).foldConstants = .ok g' ∧
      (∀ inputs outs, (build steps).evaluate inputs = .ok outs → g'.evaluate inputs = .ok outs) ∧ g'.Folded := by
  have hwell := wellFormed_build_mixed steps
  obtain ⟨g', hfold, hwell', hkeeps, hfolded⟩ := hwell.keepsValues_foldConstants
  refine ⟨g', hfold, fun inputs outs heval => ?_, hfolded⟩
  obtain ⟨V, hV⟩ := hwell.evaluate_eq_ok_iff.mp heval
  exact hwell'.evaluate_eq_ok_iff.mpr ⟨V, hkeeps inputs V outs hV⟩

end

/-- A quotient of constants that is added to an input. -/
def quotientSteps : List BuildStep :=
  [.constant ⟨[1], #[7.0]⟩ .int32, .constant ⟨[1], #[2.0]⟩ .int32, .binary .div 0 1, .input "x" .int32 [1],
    .binary .add 2 3, .output 4]

/-- With the quotient folded the sum is what it was. -/
theorem foldConstants_build_quotient :
    ∃ g', (build quotientSteps).foldConstants = .ok g' ∧ g'.evaluate [("x", ⟨[1], #[4.0]⟩)] = .ok [⟨[1], #[7.0]⟩] := by
  obtain ⟨g', hfold, hkept, -⟩ := foldConstants_build quotientSteps
  exact ⟨g', hfold, hkept _ _ rfl⟩

end TensorCompiler.Graph
