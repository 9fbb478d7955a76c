import TensorCompiler.Graph.Operators
import TensorCompiler.Proofs.Expr.Typing
import TensorCompiler.Proofs.Result

/-! # What a graph records of its tensors

Recording a tensor changes what is known of that tensor and of no other. The table of a graph is sorted by the numbers
of the tensors, so recording once more what is known already gives the same table.
-/

namespace TensorCompiler

namespace TensorTable

theorem lookup_cons_of_ne {x id : TensorId} (h : x ≠ id) (info : TensorInfo) (T : TensorTable) :
    List.lookup x ((id, info) :: T) = T.lookup x := by
  rw [List.lookup_cons, beq_false_of_ne h]

theorem lookup_insert (T : TensorTable) (id : TensorId) (info : TensorInfo) (x : TensorId) :
    (T.insert id info).lookup x = if x = id then some info else T.lookup x := by
  split_ifs with hx
  · subst hx
    induction T with
    | nil => exact List.lookup_cons_self
    | cons entry rest ih =>
      obtain ⟨other, known⟩ := entry
      rw [insert]
      split_ifs with hlt heq
      · exact List.lookup_cons_self
      · exact List.lookup_cons_self
      · rw [lookup_cons_of_ne heq, ih]
  · induction T with
    | nil => exact lookup_cons_of_ne hx info []
    | cons entry rest ih =>
      obtain ⟨other, known⟩ := entry
      rw [insert]
      split_ifs with hlt heq
      · exact lookup_cons_of_ne hx info _
      · subst heq
        rw [lookup_cons_of_ne hx, lookup_cons_of_ne hx]
      · rw [List.lookup_cons, ih, List.lookup_cons]

/-- Forgetting tensors leaves what is known of the others. -/
theorem lookup_filter (T : TensorTable) (p : TensorId → Bool) (x : TensorId) :
    List.lookup x (T.filter fun entry => p entry.1) = if p x then T.lookup x else none := by
  induction T with
  | nil => simp
  | cons entry rest ih =>
    obtain ⟨other, known⟩ := entry
    rw [List.filter_cons]
    by_cases hx : x = other
    · subst hx
      rw [List.lookup_cons_self]
      by_cases hp : p x
      · rw [if_pos hp, if_pos hp, List.lookup_cons_self]
      · rw [if_neg hp, if_neg hp, ih, if_neg hp]
    · rw [lookup_cons_of_ne hx, ← ih]
      split_ifs
      · exact lookup_cons_of_ne hx known _
      · rfl

/-- The entries stand in the order of their numbers. -/
def Sorted (T : TensorTable) : Prop :=
  T.Pairwise fun a b => a.1 < b.1

variable {T : TensorTable} {id : TensorId} {info : TensorInfo}

theorem mem_of_mem_insert {entry : TensorId × TensorInfo} (h : entry ∈ T.insert id info) :
    entry = (id, info) ∨ entry ∈ T := by
  induction T with
  | nil => exact Or.inl (List.mem_singleton.mp h)
  | cons head rest ih =>
    obtain ⟨other, known⟩ := head
    rw [insert] at h
    split_ifs at h
    · exact List.mem_cons.mp h
    · exact (List.mem_cons.mp h).imp_right (List.mem_cons_of_mem _)
    · rcases List.mem_cons.mp h with rfl | hrest
      · exact Or.inr List.mem_cons_self
      · exact (ih hrest).imp_right (List.mem_cons_of_mem _)

theorem Sorted.insert (h : T.Sorted) (id : TensorId) (info : TensorInfo) : (T.insert id info).Sorted := by
  induction T with
  | nil => exact List.pairwise_singleton _ _
  | cons head rest ih =>
    obtain ⟨other, known⟩ := head
    obtain ⟨hhead, hrest⟩ := List.pairwise_cons.mp h
    rw [TensorTable.insert]
    split_ifs with hlt heq
    · refine List.pairwise_cons.mpr ⟨fun entry hentry => ?_, h⟩
      rcases List.mem_cons.mp hentry with rfl | hentry
      · exact hlt
      · exact Nat.lt_trans hlt (hhead entry hentry)
    · exact List.pairwise_cons.mpr ⟨fun entry hentry => heq ▸ hhead entry hentry, hrest⟩
    · refine List.pairwise_cons.mpr ⟨fun entry hentry => ?_, ih hrest⟩
      rcases mem_of_mem_insert hentry with rfl | hentry
      · exact Nat.lt_of_le_of_ne (Nat.not_lt.mp hlt) (Ne.symm heq)
      · exact hhead entry hentry

theorem Sorted.filter (h : T.Sorted) (p : TensorId × TensorInfo → Bool) : Sorted (List.filter p T) :=
  List.Pairwise.filter p h

/-- In a sorted table each entry is what is known of its tensor. -/
theorem Sorted.lookup_eq_some_iff (h : T.Sorted) : T.lookup id = some info ↔ (id, info) ∈ T := by
  induction T with
  | nil => simp
  | cons head rest ih =>
    obtain ⟨other, known⟩ := head
    obtain ⟨hhead, hrest⟩ := List.pairwise_cons.mp h
    rw [List.mem_cons, Prod.mk.injEq]
    by_cases hid : id = other
    · subst hid
      have hnot : (id, info) ∉ rest := fun hmem => Nat.lt_irrefl id (hhead _ hmem)
      rw [List.lookup_cons_self, Option.some.injEq]
      simp [hnot, eq_comm (a := info)]
    · rw [lookup_cons_of_ne hid, ih hrest]
      simp [hid]

/-- Recording what is known already changes nothing. -/
theorem Sorted.insert_eq_self (h : T.Sorted) (hlookup : T.lookup id = some info) : T.insert id info = T := by
  induction T with
  | nil => cases hlookup
  | cons head rest ih =>
    obtain ⟨other, known⟩ := head
    obtain ⟨hhead, hrest⟩ := List.pairwise_cons.mp h
    by_cases hid : id = other
    · subst hid
      have hsame : known = info := by simpa using hlookup
      rw [TensorTable.insert, if_neg (Nat.lt_irrefl id), if_pos rfl, hsame]
    · rw [List.lookup_cons, beq_false_of_ne hid] at hlookup
      have hlt : other < id := hhead _ ((Sorted.lookup_eq_some_iff hrest).mp hlookup)
      rw [TensorTable.insert, if_neg (Nat.lt_asymm hlt), if_neg hid, ih hrest hlookup]

/-- A tensor with a greater number than all recorded ones stands behind them. -/
theorem insert_eq_append (h : ∀ entry ∈ T, entry.1 < id) (info : TensorInfo) : T.insert id info = T ++ [(id, info)] := by
  induction T with
  | nil => rfl
  | cons entry rest ih =>
    obtain ⟨other, known⟩ := entry
    have hlt : other < id := h _ List.mem_cons_self
    rw [TensorTable.insert, if_neg (Nat.lt_asymm hlt), if_neg (Nat.ne_of_gt hlt),
      ih fun entry hentry => h entry (List.mem_cons_of_mem _ hentry), List.cons_append]

/-- The element type and shape that are recorded of a tensor. -/
def type? (T : TensorTable) (id : TensorId) : Option (DType × List Int64) :=
  (T.lookup id).map fun info => (info.dtype, info.shape)

theorem type?_eq_some_iff {d : DType} {shape : List Int64} :
    T.type? id = some (d, shape) ↔ ∃ source, T.lookup id = some ⟨d, shape, source⟩ := by
  rw [type?, Option.map_eq_some_iff]
  constructor
  · rintro ⟨⟨d', shape', source⟩, hlookup, htype⟩
    cases htype
    exact ⟨source, hlookup⟩
  · rintro ⟨source, hlookup⟩
    exact ⟨_, hlookup, rfl⟩

theorem type?_of_lookup (h : T.lookup id = some info) : T.type? id = some (info.dtype, info.shape) := by
  rw [type?, h]
  rfl

/-- Recording a tensor under the type that it has leaves the types of all tensors. -/
theorem type?_insert (h : T.type? id = some (info.dtype, info.shape)) (x : TensorId) :
    (T.insert id info).type? x = T.type? x := by
  rw [type?, lookup_insert]
  split_ifs with hx
  · rw [hx, h]
    rfl
  · rfl

end TensorTable

/-! ## Tasks and operators -/

variable {c : TensorCompute} {d : DType}

theorem TensorCompute.elementType_eq_ok_iff : c.elementType = .ok d ↔ c.value.HasDType d := by
  rw [elementType, bind_eq_ok_iff, Expr.HasDType]
  constructor
  · rintro ⟨ty, hty, hd⟩
    split at hd
    · cases hd
      exact hty
    · cases hd
  · intro hty
    exact ⟨_, hty, rfl⟩

/-- The task that computes a definition of a known element type from the given tensors. -/
theorem Task.ofCompute_eq_ok_iff {name : String} {args : List TensorInput} {worker : Worker} {task : Task} :
    Task.ofCompute name args c worker = .ok task ↔
      ∃ d, c.value.HasDType d ∧
        task = ⟨name, c, args.map TensorInput.toExpr ++ [c.toExpr],
          args.map TensorInput.globalType ++ [.tensor ⟨.known .global, .known d, some c.shape, none⟩], worker⟩ := by
  rw [ofCompute, bind_eq_ok_iff]
  constructor
  · rintro ⟨d, hd, htask⟩
    cases htask
    exact ⟨d, TensorCompute.elementType_eq_ok_iff.mp hd, rfl⟩
  · rintro ⟨d, hd, rfl⟩
    exact ⟨d, TensorCompute.elementType_eq_ok_iff.mpr hd, rfl⟩

namespace Graph

variable {g g' : Graph}

theorem tensor_eq_ok_iff {id : TensorId} {info : TensorInfo} : g.tensor id = .ok info ↔ g.tensors.lookup id = some info := by
  rw [tensor]
  cases g.tensors.lookup id with
  | none => simp
  | some found => simp

/-- A recorded tensor as the input of a task. -/
theorem tensorInput_eq_ok_iff {id : TensorId} {arg : TensorInput} :
    g.tensorInput id = .ok arg ↔ ∃ d shape, g.tensors.type? id = some (d, shape) ∧ arg = .ofShape id.name d shape := by
  rw [tensorInput, bind_eq_ok_iff]
  constructor
  · rintro ⟨info, hinfo, harg⟩
    cases harg
    exact ⟨info.dtype, info.shape, TensorTable.type?_of_lookup (tensor_eq_ok_iff.mp hinfo), rfl⟩
  · rintro ⟨d, shape, htype, rfl⟩
    obtain ⟨source, hlookup⟩ := TensorTable.type?_eq_some_iff.mp htype
    exact ⟨_, tensor_eq_ok_iff.mpr hlookup, rfl⟩

/-- An operator with a definition of known shape and element type that reads recorded tensors. -/
theorem operator_eq_ok_iff {kind : OpKind} {inputs : List TensorId} {output : TensorId} {op : Operator} :
    g.operator kind inputs output c = .ok (op, g') ↔
      ∃ d shape args task, c.constShape? = some shape ∧ c.value.HasDType d ∧
        List.Forall₂ (fun id arg => g.tensorInput id = .ok arg) inputs args ∧
        Task.ofCompute (kind.label ++ "_" ++ output.name) args { c with name := output.name }
          (Worker.launch (numElements shape) Worker.defaultBlockSize) = .ok task ∧
        op = ⟨kind, inputs, output, task⟩ ∧
        g' = { g with tensors := g.tensors.insert output ⟨d, shape, .operator⟩ } := by
  have hnamed : TensorCompute.constShape? { c with name := output.name } = c.constShape? := rfl
  simp only [operator, hnamed]
  cases hshape : c.constShape? with
  | none =>
    constructor
    · intro h
      cases h
    · rintro ⟨_, _, _, _, hnone, _⟩
      cases hnone
  | some shape =>
    simp only [bind_eq_ok_iff]
    constructor
    · rintro ⟨args, hargs, task, htask, d, hd, hresult⟩
      cases hresult
      have htyped := TensorCompute.elementType_eq_ok_iff.mp hd
      exact ⟨d, shape, args, task, rfl, htyped, mapM_eq_ok_iff.mp hargs, htask, rfl, rfl⟩
    · rintro ⟨d, shape', args, task, hsame, hd, hargs, htask, rfl, rfl⟩
      cases hsame
      have htyped : TensorCompute.elementType { c with name := output.name } = .ok d :=
        TensorCompute.elementType_eq_ok_iff.mpr hd
      exact ⟨args, mapM_eq_ok_iff.mpr hargs, task, htask, d, htyped, rfl⟩

/-- An operator computes by the definition that it is made from, which is typed. -/
theorem value_of_operator {kind : OpKind} {inputs : List TensorId} {output : TensorId} {op : Operator}
    (h : g.operator kind inputs output c = .ok (op, g')) :
    op.computation.value = c.value ∧ ∃ d, c.value.HasDType d := by
  obtain ⟨d, shape, args, task, -, hd, -, htask, rfl, -⟩ := operator_eq_ok_iff.mp h
  obtain ⟨d', -, rfl⟩ := Task.ofCompute_eq_ok_iff.mp htask
  exact ⟨rfl, d, hd⟩

end Graph

end TensorCompiler
