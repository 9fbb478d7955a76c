import Mathlib.Tactic.Common
import TensorCompiler.Graph.Basic

/-! # Nodes in order

In a graph that can be evaluated each operator reads tensors that are known or computed by an operator in front of it,
and no tensor is computed twice. What is known at a place of the list is what is known at its start and what the
operators in front of the place compute.
-/

namespace TensorCompiler

/-- The tensors that operators compute. -/
def outputsOf (nodes : List Operator) : List TensorId :=
  nodes.map Operator.output

theorem mem_outputsOf {nodes : List Operator} {id : TensorId} :
    id ∈ outputsOf nodes ↔ ∃ op ∈ nodes, op.output = id :=
  List.mem_map

/-- Where no tensor is computed twice, it is computed at one position. -/
theorem eq_of_nodup_outputsOf {nodes : List Operator} (h : (outputsOf nodes).Nodup) {i j : Nat} {a b : Operator}
    (ha : nodes[i]? = some a) (hb : nodes[j]? = some b) (heq : a.output = b.output) : i = j := by
  have hi : i < (outputsOf nodes).length := by
    rw [outputsOf, List.length_map]
    exact (List.getElem?_eq_some_iff.mp ha).1
  refine (List.getElem?_inj hi h).mp ?_
  rw [outputsOf, List.getElem?_map, List.getElem?_map, ha, hb, Option.map_some, Option.map_some, heq]

theorem exists_append_of_getElem? {α : Type} {xs : List α} {x : α} {i : Nat} (h : xs[i]? = some x) :
    ∃ before after, xs = before ++ x :: after ∧ before.length = i := by
  obtain ⟨hi, rfl⟩ := List.getElem?_eq_some_iff.mp h
  refine ⟨xs.take i, xs.drop (i + 1), ?_, List.length_take_of_le (Nat.le_of_lt hi)⟩
  rw [← List.drop_eq_getElem_cons hi, List.take_append_drop]

/-- A weaker condition holds more often in a list if it holds of a member of which the other one does not. -/
theorem countP_lt_countP {α : Type} {p q : α → Bool} {xs : List α} {x : α} (hx : x ∈ xs)
    (himp : ∀ y ∈ xs, p y = true → q y = true) (hp : p x = false) (hq : q x = true) : xs.countP p < xs.countP q := by
  obtain ⟨before, after, rfl⟩ := List.append_of_mem hx
  have hbefore : before.countP p ≤ before.countP q :=
    List.countP_mono_left fun y hy => himp y (List.mem_append_left _ hy)
  have hafter : after.countP p ≤ after.countP q :=
    List.countP_mono_left fun y hy => himp y (List.mem_append_right _ (List.mem_cons_of_mem x hy))
  rw [List.countP_append, List.countP_append, List.countP_cons_of_neg (by simp [hp]), List.countP_cons_of_pos hq]
  omega

/-- Whether each operator reads only tensors that are known or computed in front of it, and computes another one. -/
def Ordered (known : TensorId → Prop) : List Operator → Prop
  | [] => True
  | op :: ops =>
    (∀ id ∈ op.inputs, known id) ∧ ¬ known op.output ∧ Ordered (fun id => known id ∨ id = op.output) ops

namespace Ordered

variable {known known' : TensorId → Prop} {nodes before after : List Operator} {op : Operator}

/-- Only what is known of the tensors that the operators read or compute counts. -/
theorem of_agree (h : Ordered known nodes)
    (hinputs : ∀ op ∈ nodes, ∀ id ∈ op.inputs, known id → known' id)
    (houtput : ∀ op ∈ nodes, known' op.output → known op.output) : Ordered known' nodes := by
  induction nodes generalizing known known' with
  | nil => trivial
  | cons op ops ih =>
    obtain ⟨hreads, hnew, hrest⟩ := h
    refine ⟨fun id hid => hinputs op List.mem_cons_self id hid (hreads id hid),
      fun hknown => hnew (houtput op List.mem_cons_self hknown), ih hrest ?_ ?_⟩
    · intro op' hop' id hid hknown
      exact hknown.imp_left (hinputs op' (List.mem_cons_of_mem _ hop') id hid)
    · intro op' hop' hknown
      exact hknown.imp_left (houtput op' (List.mem_cons_of_mem _ hop'))

theorem congr (h : ∀ id, known id ↔ known' id) : Ordered known nodes ↔ Ordered known' nodes := by
  have heq : known = known' := funext fun id => propext (h id)
  rw [heq]

theorem append_iff :
    Ordered known (before ++ after) ↔
      Ordered known before ∧ Ordered (fun id => known id ∨ id ∈ outputsOf before) after := by
  induction before generalizing known with
  | nil => simp [Ordered, outputsOf]
  | cons op before ih =>
    rw [List.cons_append, Ordered, ih, Ordered]
    have hknown : ∀ id, ((known id ∨ id = op.output) ∨ id ∈ outputsOf before) ↔
        (known id ∨ id ∈ outputsOf (op :: before)) := by
      intro id
      rw [outputsOf, outputsOf, List.map_cons, List.mem_cons, or_assoc]
    rw [congr hknown, and_assoc, and_assoc]

/-- What holds where an operator stands. -/
theorem at_split (h : Ordered known (before ++ op :: after)) :
    (∀ id ∈ op.inputs, known id ∨ id ∈ outputsOf before) ∧ ¬ known op.output ∧ op.output ∉ outputsOf before := by
  obtain ⟨hreads, hnew, -⟩ := (append_iff.mp h).2
  exact ⟨hreads, fun hknown => hnew (Or.inl hknown), fun hmem => hnew (Or.inr hmem)⟩

theorem not_known_output (h : Ordered known nodes) (hop : op ∈ nodes) : ¬ known op.output := by
  obtain ⟨before, after, rfl⟩ := List.append_of_mem hop
  exact h.at_split.2.1

/-- What an operator reads is known or computed. -/
theorem known_or_mem (h : Ordered known nodes) (hop : op ∈ nodes) {id : TensorId} (hid : id ∈ op.inputs) :
    known id ∨ id ∈ outputsOf nodes := by
  obtain ⟨before, after, rfl⟩ := List.append_of_mem hop
  refine (h.at_split.1 id hid).imp_right fun hmem => ?_
  rw [outputsOf, List.map_append]
  exact List.mem_append_left _ hmem

/-- An operator may be appended that reads tensors known by then and computes another one. -/
theorem append_singleton (h : Ordered known nodes) (hreads : ∀ id ∈ op.inputs, known id ∨ id ∈ outputsOf nodes)
    (hnew : ¬ known op.output) (hfresh : op.output ∉ outputsOf nodes) : Ordered known (nodes ++ [op]) := by
  refine append_iff.mpr ⟨h, hreads, ?_, trivial⟩
  rintro (hknown | hmem)
  · exact hnew hknown
  · exact hfresh hmem

/-- No tensor is computed twice. -/
theorem nodup_outputsOf (h : Ordered known nodes) : (outputsOf nodes).Nodup := by
  induction nodes generalizing known with
  | nil => exact List.nodup_nil
  | cons op ops ih =>
    obtain ⟨-, -, hrest⟩ := h
    rw [outputsOf, List.map_cons]
    refine List.nodup_cons.mpr ⟨fun hmem => ?_, ih hrest⟩
    obtain ⟨op', hop', hsame⟩ := mem_outputsOf.mp hmem
    exact hrest.not_known_output hop' (Or.inr hsame)

/-- A tensor is computed at one position. -/
theorem eq_of_output_eq (h : Ordered known nodes) {i j : Nat} {a b : Operator} (ha : nodes[i]? = some a)
    (hb : nodes[j]? = some b) (heq : a.output = b.output) : i = j :=
  eq_of_nodup_outputsOf h.nodup_outputsOf ha hb heq

/-- An operator stands behind the one that computes what it reads. -/
theorem exists_split {i j : Nat} {producer consumer : Operator} (h : Ordered known nodes)
    (hproducer : nodes[i]? = some producer) (hconsumer : nodes[j]? = some consumer)
    (hread : producer.output ∈ consumer.inputs) :
    ∃ before between after, nodes = before ++ producer :: (between ++ consumer :: after) ∧ before.length = i ∧
      before.length + 1 + between.length = j := by
  obtain ⟨front, after, rfl, hlength⟩ := exists_append_of_getElem? hconsumer
  have hmem : producer.output ∈ outputsOf front :=
    (h.at_split.1 _ hread).resolve_left (h.not_known_output (List.mem_of_getElem? hproducer))
  obtain ⟨op, hop, hsame⟩ := mem_outputsOf.mp hmem
  obtain ⟨before, between, rfl⟩ := List.append_of_mem hop
  have hat : ((before ++ op :: between) ++ consumer :: after)[before.length]? = some op := by simp
  have hindex := h.eq_of_output_eq hat hproducer hsame
  rw [← hindex, hat] at hproducer
  cases hproducer
  refine ⟨before, between, after, by simp, hindex, ?_⟩
  rw [← hlength, List.length_append, List.length_cons]
  omega

/-- What an operator reads is known or computed at an earlier position. -/
theorem known_or_earlier (h : Ordered known nodes) {i : Nat} (hop : nodes[i]? = some op) {id : TensorId}
    (hid : id ∈ op.inputs) : known id ∨ ∃ j < i, (outputsOf nodes)[j]? = some id := by
  obtain ⟨before, after, rfl, rfl⟩ := exists_append_of_getElem? hop
  refine (h.at_split.1 id hid).imp_right fun hmem => ?_
  obtain ⟨j, hj⟩ := List.mem_iff_getElem?.mp hmem
  have hlt : j < (outputsOf before).length := (List.getElem?_eq_some_iff.mp hj).1
  rw [outputsOf, List.length_map] at hlt
  refine ⟨j, hlt, ?_⟩
  rw [outputsOf, List.map_append, List.getElem?_append_left (by rwa [List.length_map])]
  exact hj

/-- Another operator may stand in the place of one that computes the same tensor, if what it reads is there. -/
theorem replace {op' : Operator} {i : Nat} (h : Ordered known nodes) (hop : nodes[i]? = some op)
    (houtput : op'.output = op.output)
    (hinputs : ∀ id ∈ op'.inputs, id ∈ op.inputs ∨ known id ∨ ∃ j < i, (outputsOf nodes)[j]? = some id) :
    Ordered known (nodes.set i op') := by
  obtain ⟨before, after, rfl, rfl⟩ := exists_append_of_getElem? hop
  have hset : (before ++ op :: after).set before.length op' = before ++ op' :: after := by simp
  rw [hset]
  obtain ⟨hbefore, hreads, hnew, hrest⟩ := append_iff.mp h
  refine append_iff.mpr ⟨hbefore, fun id hid => ?_, houtput ▸ hnew, houtput ▸ hrest⟩
  rcases hinputs id hid with hid | hknown | ⟨j, hj, hat⟩
  · exact hreads id hid
  · exact Or.inl hknown
  · rw [outputsOf, List.map_append, List.getElem?_append_left (by rwa [List.length_map])] at hat
    exact Or.inr (List.mem_of_getElem? hat)

/-- What becomes known need not be computed any more. -/
theorem remove (h : Ordered known (before ++ op :: after)) :
    Ordered (fun id => known id ∨ id = op.output) (before ++ after) := by
  obtain ⟨hbefore, -, hnew, hafter⟩ := append_iff.mp h
  refine append_iff.mpr ⟨hbefore.of_agree (fun _ _ _ _ => Or.inl) fun op' hop' hknown => hknown.resolve_right ?_, ?_⟩
  · exact fun hsame => hnew (Or.inr (mem_outputsOf.mpr ⟨op', hop', hsame⟩))
  · refine (congr fun id => ?_).mp hafter
    tauto

/-- What no operator reads need not be known. -/
theorem weaken {x : TensorId} (h : Ordered (fun id => known id ∨ id = x) nodes)
    (hunread : ∀ op ∈ nodes, x ∉ op.inputs) : Ordered known nodes := by
  refine h.of_agree (fun op hop id hid hknown => hknown.resolve_right ?_) fun op _ hknown => Or.inl hknown
  rintro rfl
  exact hunread op hop hid

/-- The order left when an operator moves back to the only one that reads its result, and merges with it. -/
theorem merge {between : List Operator} {producer consumer merged : Operator}
    (h : Ordered known (before ++ producer :: (between ++ consumer :: after)))
    (hbetween : ∀ op ∈ between, producer.output ∉ op.inputs) (hafter : ∀ op ∈ after, producer.output ∉ op.inputs)
    (hinputs : ∀ id ∈ merged.inputs, id ∈ producer.inputs ∨ (id ∈ consumer.inputs ∧ id ≠ producer.output))
    (houtput : merged.output = consumer.output) : Ordered known (before ++ (between ++ merged :: after)) := by
  obtain ⟨hbefore, hproducer, -, hrest⟩ := append_iff.mp h
  obtain ⟨hmid, hconsumer, hnew, htail⟩ := append_iff.mp hrest
  refine append_iff.mpr ⟨hbefore, append_iff.mpr ⟨hmid.weaken hbetween, ?_, ?_, ?_⟩⟩
  · intro id hid
    rcases hinputs id hid with hid | ⟨hid, hne⟩
    · exact Or.inl (hproducer id hid)
    · exact (hconsumer id hid).imp_left fun hknown => hknown.resolve_right hne
  · rw [houtput]
    exact fun hknown => hnew (hknown.imp_left Or.inl)
  · rw [houtput]
    refine weaken (x := producer.output) ?_ hafter
    refine (congr fun id => ?_).mp htail
    tauto

end Ordered

end TensorCompiler
