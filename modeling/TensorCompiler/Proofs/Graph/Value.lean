import TensorCompiler.Graph.Eval
import TensorCompiler.Proofs.Graph.WellFormed

/-! # The values of a graph

Evaluation runs through the nodes with the values known so far. In a well-formed graph it succeeds just if there are
values for all tensors at once that fit together: the sources have their own values, and what a definition gives for
these values is the value of its output. A pass that keeps such values keeps what the graph evaluates to.
-/

namespace TensorCompiler

/-- The value of a tensor that no operator computes. -/
def TensorSource.value? (inputs : Tensors) : TensorSource → Option NDArray
  | input name => inputs.lookup name
  | constant value => some value
  | operator => none

namespace Graph

/-- Values for the tensors of a graph that fit together, and the outputs among them. -/
structure Valued [FloatOps] (g : Graph) (inputs V : Tensors) (outs : List NDArray) : Prop where
  source : ∀ id info, g.tensors.lookup id = some info → info.source ≠ .operator →
    ∃ a, info.source.value? inputs = some a ∧ V.lookup id.name = some a
  node : ∀ op ∈ g.nodes, ∃ a, op.computation.evaluate V = .ok a ∧ V.lookup op.output.name = some a
  output : List.Forall₂ (fun id a => (g.IsSource id ∨ id ∈ outputsOf g.nodes) ∧ V.lookup id.name = some a) g.outputs outs

/-- Whether values that fit together in a graph do so in another one. -/
def KeepsValues [FloatOps] (g g' : Graph) : Prop :=
  ∀ inputs V outs, g.Valued inputs V outs → g'.Valued inputs V outs

theorem KeepsValues.trans [FloatOps] {g g' g'' : Graph} (h : g.KeepsValues g') (h' : g'.KeepsValues g'') :
    g.KeepsValues g'' :=
  fun inputs V outs hV => h' inputs V outs (h inputs V outs hV)

/-- Whether values are there for the known tensors only, and are those that `V` has. -/
def Restricts (known : TensorId → Prop) (V S : Tensors) : Prop :=
  ∀ id : TensorId, (known id → ∃ a, S.lookup id.name = some a ∧ V.lookup id.name = some a) ∧
    (¬ known id → S.lookup id.name = none)

theorem lookup_cons_name {id x : TensorId} {a : NDArray} {S : Tensors} :
    List.lookup x.name ((id.name, a) :: S) = if x = id then some a else S.lookup x.name := by
  split_ifs with hx
  · rw [hx, List.lookup_cons_self]
  · rw [List.lookup_cons, beq_false_of_ne fun hname => hx (TensorId.name_injective hname)]

theorem Restricts.cons {known : TensorId → Prop} {V S : Tensors} {id : TensorId} {a : NDArray}
    (h : Restricts known V S) (ha : V.lookup id.name = some a) :
    Restricts (fun x => known x ∨ x = id) V ((id.name, a) :: S) := by
  intro x
  rw [lookup_cons_name]
  by_cases hx : x = id
  · subst hx
    rw [if_pos rfl]
    exact ⟨fun _ => ⟨a, rfl, ha⟩, fun hnot => absurd (Or.inr rfl) hnot⟩
  · rw [if_neg hx]
    exact ⟨fun hknown => (h x).1 (hknown.resolve_right hx), fun hnot => (h x).2 fun hknown => hnot (Or.inl hknown)⟩

/-! ## Sources -/

/-- One entry of the table as a step of `sources`. -/
def addSource (inputs S : Tensors) (entry : TensorId × TensorInfo) : Except Error Tensors :=
  match entry.2.source with
  | .input name =>
    match inputs.lookup name with
    | some value => .ok ((entry.1.name, value) :: S)
    | none => .error (.eval (.missingInput name))
  | .constant value => .ok ((entry.1.name, value) :: S)
  | .operator => .ok S

theorem sources_eq (g : Graph) (inputs : Tensors) : g.sources inputs = g.tensors.foldlM (addSource inputs) [] := rfl

theorem addSource_of_value? {inputs : Tensors} {entry : TensorId × TensorInfo} {a : NDArray}
    (h : entry.2.source.value? inputs = some a) (S : Tensors) :
    addSource inputs S entry = .ok ((entry.1.name, a) :: S) := by
  rw [addSource]
  cases hsource : entry.2.source with
  | input name =>
    rw [hsource] at h
    change inputs.lookup name = some a at h
    simp [h]
  | constant value =>
    rw [hsource] at h
    cases h
    rfl
  | operator =>
    rw [hsource] at h
    cases h

/-- A step succeeds if the entry is of an operator or has a value. -/
theorem addSource_eq_ok_iff {inputs S S' : Tensors} {entry : TensorId × TensorInfo} :
    addSource inputs S entry = .ok S' ↔ (entry.2.source = .operator ∧ S' = S) ∨
      ∃ a, entry.2.source ≠ .operator ∧ entry.2.source.value? inputs = some a ∧ S' = (entry.1.name, a) :: S := by
  constructor
  · intro h
    cases hsource : entry.2.source with
    | operator =>
      rw [addSource, hsource] at h
      cases h
      exact Or.inl ⟨rfl, rfl⟩
    | constant value =>
      rw [addSource, hsource] at h
      cases h
      exact Or.inr ⟨value, by simp, rfl, rfl⟩
    | input name =>
      rw [addSource, hsource] at h
      cases hvalue : inputs.lookup name with
      | none => simp [hvalue] at h
      | some a =>
        simp only [hvalue, Except.ok.injEq] at h
        exact Or.inr ⟨a, by simp, hvalue, h.symm⟩
  · rintro (⟨hsource, rfl⟩ | ⟨a, -, ha, rfl⟩)
    · rw [addSource, hsource]
    · exact addSource_of_value? ha S

/-- The sources have values just if each of them has one, and then these are the values there are. -/
theorem foldlM_addSource {inputs S : Tensors} {T : TensorTable} {known : TensorId → Prop} {V : Tensors}
    (hS : Restricts known V S)
    (hvalues : ∀ entry ∈ T, entry.2.source ≠ .operator →
      ∃ a, entry.2.source.value? inputs = some a ∧ V.lookup entry.1.name = some a) :
    ∃ S', T.foldlM (addSource inputs) S = .ok S' ∧
      Restricts (fun id => known id ∨ ∃ entry ∈ T, entry.1 = id ∧ entry.2.source ≠ .operator) V S' := by
  induction T generalizing known S with
  | nil => exact ⟨S, rfl, by simpa using hS⟩
  | cons entry T ih =>
    have hrest := fun entry' hmem => hvalues entry' (List.mem_cons_of_mem _ hmem)
    by_cases hsource : entry.2.source = .operator
    · obtain ⟨S', hfold, hS'⟩ := ih hS hrest
      refine ⟨S', ?_, ?_⟩
      · rw [List.foldlM_cons, addSource_eq_ok_iff.mpr (Or.inl ⟨hsource, rfl⟩)]
        exact hfold
      · simpa [hsource] using hS'
    · obtain ⟨a, ha, hlookup⟩ := hvalues entry List.mem_cons_self hsource
      obtain ⟨S', hfold, hS'⟩ := ih (hS.cons hlookup) hrest
      refine ⟨S', ?_, ?_⟩
      · rw [List.foldlM_cons, addSource_of_value? ha]
        exact hfold
      · simpa [hsource, or_assoc, eq_comm (a := entry.1)] using hS'

/-- If the sources have values, each of them has the value of its own. -/
theorem value?_of_foldlM_addSource {inputs S S' : Tensors} {T : TensorTable} (hT : T.Sorted)
    (h : T.foldlM (addSource inputs) S = .ok S') :
    (∀ entry ∈ T, entry.2.source ≠ .operator →
      ∃ a, entry.2.source.value? inputs = some a ∧ S'.lookup entry.1.name = some a) ∧
      ∀ id : TensorId, (∀ entry ∈ T, entry.1 = id → entry.2.source = .operator) →
        S'.lookup id.name = S.lookup id.name := by
  induction T generalizing S with
  | nil =>
    cases h
    simp
  | cons entry T ih =>
    obtain ⟨hhead, htail⟩ := List.pairwise_cons.mp hT
    rw [List.foldlM_cons] at h
    obtain ⟨next, hnext, hrest⟩ := bind_eq_ok_iff.mp h
    obtain ⟨hvalues, hothers⟩ := ih htail hrest
    rcases addSource_eq_ok_iff.mp hnext with ⟨hsource, rfl⟩ | ⟨a, hsource, ha, rfl⟩
    · refine ⟨fun entry' hmem hother => ?_, fun id hid => hothers id fun e he => hid e (List.mem_cons_of_mem _ he)⟩
      rcases List.mem_cons.mp hmem with rfl | hmem
      · exact absurd hsource hother
      · exact hvalues entry' hmem hother
    · refine ⟨fun entry' hmem hother => ?_, fun id hid => ?_⟩
      · rcases List.mem_cons.mp hmem with rfl | hmem
        · refine ⟨a, ha, ?_⟩
          rw [hothers _ fun e he hsame => absurd hsame (Nat.ne_of_gt (hhead e he)), List.lookup_cons_self]
        · exact hvalues entry' hmem hother
      · rw [hothers id fun e he => hid e (List.mem_cons_of_mem _ he), lookup_cons_name, if_neg]
        rintro rfl
        exact hsource (hid entry List.mem_cons_self rfl)

/-! ## Nodes -/

section

variable [FloatOps] {k : ElementKind} {T : TensorTable} {known : TensorId → Prop} {nodes : List Operator}
  {V S S' : Tensors}

theorem evalNode_eq_ok_iff {op : Operator} :
    evalNode S op = .ok S' ↔ ∃ a, op.computation.evaluate S = .ok a ∧ S' = (op.output.name, a) :: S := by
  rw [evalNode, bind_eq_ok_iff]
  refine exists_congr fun a => and_congr_right fun _ => ?_
  change Except.ok _ = Except.ok S' ↔ _
  rw [Except.ok.injEq, eq_comm]

/-- Where values fit together, evaluation finds them. -/
theorem foldlM_evalNode (hordered : Ordered known nodes) (hcomputed : ∀ op ∈ nodes, ∃ d shape, op.Computes k T d shape)
    (hS : Restricts known V S)
    (hvalues : ∀ op ∈ nodes, ∃ a, op.computation.evaluate V = .ok a ∧ V.lookup op.output.name = some a) :
    ∃ S', nodes.foldlM evalNode S = .ok S' ∧ Restricts (fun id => known id ∨ id ∈ outputsOf nodes) V S' := by
  induction nodes generalizing known S with
  | nil => exact ⟨S, rfl, by simpa [outputsOf] using hS⟩
  | cons op ops ih =>
    obtain ⟨hreads, -, hrest⟩ := hordered
    obtain ⟨d, shape, hcomputes⟩ := hcomputed op List.mem_cons_self
    obtain ⟨a, ha, hlookup⟩ := hvalues op List.mem_cons_self
    have heval : op.computation.evaluate S = .ok a := by
      refine hcomputes.defines.evaluate_mono (fun id hid b hb => ?_) ha
      obtain ⟨b', hb', hsame⟩ := (hS id).1 (hreads id hid)
      cases hb.symm.trans hsame
      exact hb'
    obtain ⟨S', hfold, hS'⟩ := ih hrest (fun op hop => hcomputed op (List.mem_cons_of_mem _ hop)) (hS.cons hlookup)
      fun op hop => hvalues op (List.mem_cons_of_mem _ hop)
    refine ⟨S', ?_, ?_⟩
    · rw [List.foldlM_cons, evalNode_eq_ok_iff.mpr ⟨a, heval, rfl⟩]
      exact hfold
    · simpa [outputsOf, or_assoc] using hS'

/-- The values that evaluation ends with fit together. -/
theorem values_of_foldlM_evalNode (hordered : Ordered known nodes)
    (hcomputed : ∀ op ∈ nodes, ∃ d shape, op.Computes k T d shape) (h : nodes.foldlM evalNode S = .ok V) :
    (∀ op ∈ nodes, ∃ a, op.computation.evaluate V = .ok a ∧ V.lookup op.output.name = some a) ∧
      ∀ id : TensorId, id ∉ outputsOf nodes → V.lookup id.name = S.lookup id.name := by
  induction nodes generalizing known S with
  | nil =>
    cases h
    simp
  | cons op ops ih =>
    have hnodup := hordered.nodup_outputsOf
    have hunknown : ∀ id, known id → id ∉ outputsOf (op :: ops) := by
      intro id hid hmem
      obtain ⟨op', hop', rfl⟩ := mem_outputsOf.mp hmem
      exact hordered.not_known_output hop' hid
    obtain ⟨hreads, -, hrest⟩ := hordered
    rw [List.foldlM_cons] at h
    obtain ⟨next, hnext, hfold⟩ := bind_eq_ok_iff.mp h
    obtain ⟨a, ha, rfl⟩ := evalNode_eq_ok_iff.mp hnext
    obtain ⟨hvalues, hothers⟩ := ih hrest (fun op hop => hcomputed op (List.mem_cons_of_mem _ hop)) hfold
    have hkept : ∀ id : TensorId, id ∉ outputsOf (op :: ops) → V.lookup id.name = S.lookup id.name := by
      intro id hid
      rw [hothers id (List.not_mem_of_not_mem_cons hid), lookup_cons_name, if_neg (List.ne_of_not_mem_cons hid)]
    refine ⟨fun op' hop' => ?_, hkept⟩
    rcases List.mem_cons.mp hop' with rfl | hop'
    · obtain ⟨d, shape, hcomputes⟩ := hcomputed op' List.mem_cons_self
      refine ⟨a, hcomputes.defines.evaluate_mono (fun id hid b hb => ?_) ha, ?_⟩
      · rw [hkept id (hunknown id (hreads id hid))]
        exact hb
      · rw [hothers _ (List.nodup_cons.mp hnodup).1, List.lookup_cons_self]
    · exact hvalues op' hop'

end

/-! ## Graphs -/

theorem outputValue_eq_ok_iff {V : Tensors} {id : TensorId} {a : NDArray} :
    outputValue V id = .ok a ↔ V.lookup id.name = some a := by
  rw [outputValue]
  cases V.lookup id.name with
  | none => simp
  | some b => simp

/-- A well-formed graph evaluates to the outputs among values that fit together. -/
theorem WellFormed.evaluate_eq_ok_iff [FloatOps] {k : ElementKind} {g : Graph} {inputs : Tensors} {outs : List NDArray}
    (h : g.WellFormed k) : g.evaluate inputs = .ok outs ↔ ∃ V, g.Valued inputs V outs := by
  have hsource : ∀ id info, g.tensors.lookup id = some info ↔ (id, info) ∈ g.tensors := fun id info =>
    TensorTable.Sorted.lookup_eq_some_iff h.sorted
  constructor
  · intro heval
    obtain ⟨S, hS, hrest⟩ := bind_eq_ok_iff.mp heval
    obtain ⟨V, hV, houts⟩ := bind_eq_ok_iff.mp hrest
    rw [sources_eq] at hS
    obtain ⟨hvalues, hnone⟩ := value?_of_foldlM_addSource h.sorted hS
    obtain ⟨hnodes, hkept⟩ := values_of_foldlM_evalNode h.ordered h.computed hV
    refine ⟨V, ⟨fun id info hinfo hne => ?_, hnodes, ?_⟩⟩
    · obtain ⟨a, ha, hlookup⟩ := hvalues (id, info) ((hsource id info).mp hinfo) hne
      refine ⟨a, ha, (hkept id fun hmem => ?_).trans hlookup⟩
      obtain ⟨op, hop, rfl⟩ := mem_outputsOf.mp hmem
      exact h.ordered.not_known_output hop ⟨info, hinfo, hne⟩
    · refine (mapM_eq_ok_iff.mp houts).imp fun id a ha => ?_
      rw [outputValue_eq_ok_iff] at ha
      refine ⟨?_, ha⟩
      by_contra hnot
      rw [not_or] at hnot
      rw [hkept id hnot.2, hnone id] at ha
      · cases ha
      · rintro ⟨id', info⟩ hmem rfl
        by_contra hne
        exact hnot.1 ⟨info, (hsource _ info).mpr hmem, hne⟩
  · rintro ⟨V, hV⟩
    obtain ⟨S, hS, hrestricts⟩ : ∃ S, g.sources inputs = .ok S ∧ Restricts g.IsSource V S := by
      have hempty : Restricts (fun _ => False) V [] := fun id => ⟨False.elim, fun _ => rfl⟩
      obtain ⟨S, hS, hrestricts⟩ := foldlM_addSource hempty fun entry hentry hne =>
        hV.source entry.1 entry.2 ((hsource _ _).mpr hentry) hne
      refine ⟨S, hS, fun id => ?_⟩
      have hknown : g.IsSource id ↔ (False ∨ ∃ entry ∈ g.tensors, entry.1 = id ∧ entry.2.source ≠ .operator) := by
        simp [IsSource, hsource]
      rw [hknown]
      exact hrestricts id
    obtain ⟨S', hS', hvalues⟩ := foldlM_evalNode h.ordered h.computed hrestricts hV.node
    refine bind_eq_ok_iff.mpr ⟨S, hS, bind_eq_ok_iff.mpr ⟨S', hS', mapM_eq_ok_iff.mpr (hV.output.imp fun id a ha => ?_)⟩⟩
    obtain ⟨b, hb, hsame⟩ := (hvalues id).1 ha.1
    cases hsame.symm.trans ha.2
    exact outputValue_eq_ok_iff.mpr hb

end Graph

end TensorCompiler
