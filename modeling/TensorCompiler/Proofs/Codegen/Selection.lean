import Mathlib.Data.List.Induction
import TensorCompiler.Proofs.Codegen.Dispatch

/-! # Registration and selection

A registry takes an implementer whose key is new and whose pattern is well formed, behind those that it has, and stays
as it is when it refuses one. Of the implementers that accept a task it selects one such that those registered earlier
have a lower priority and those registered later no higher one.
-/

namespace TensorCompiler.Registry

variable {r r' : Registry} {task : Task}

/-! ## Registration -/

theorem isSome_get?_iff {key : String} : (r.get? key).isSome = true ↔ key ∈ r.keys := by
  rw [get?, List.find?_isSome, keys, List.mem_map]
  simp only [beq_iff_eq]

/-- A registration succeeds on a new key and a pattern without a fault, and appends the implementer. -/
theorem register_eq_ok_iff {i : Implementer} :
    r.register i = .ok r' ↔ (i.key ∉ r.keys ∧ i.pattern.fault? = none) ∧ r' = ⟨r.implementers ++ [i]⟩ := by
  by_cases hkey : (r.get? i.key).isSome = true
  · have htaken : i.key ∈ r.keys := isSome_get?_iff.mp hkey
    simp [register, hkey, htaken]
  · have hnew : i.key ∉ r.keys := fun hmem => hkey (isSome_get?_iff.mpr hmem)
    rw [register, if_neg hkey]
    cases i.pattern.fault? with
    | none => simp [hnew, eq_comm]
    | some fault => simp

theorem register_eq_error_iff {i : Implementer} :
    (∃ e, r.register i = .error e) ↔ i.key ∈ r.keys ∨ i.pattern.fault?.isSome := by
  have hok : (∃ r', r.register i = .ok r') ↔ i.key ∉ r.keys ∧ i.pattern.fault? = none := by
    simp only [register_eq_ok_iff, exists_and_left, exists_eq, and_true]
  have hfails : (∃ e, r.register i = .error e) ↔ ¬∃ r', r.register i = .ok r' := by
    cases r.register i with
    | error e => simp
    | ok r' => simp
  rw [hfails, hok, not_and_or, not_not, ← ne_eq, Option.ne_none_iff_isSome]

/-- A session of registrations: the registry that it leaves, and the answer to each of them. A registry that refuses an
implementer is used further as it is. -/
def registerAll (r : Registry) : List Implementer → Registry × List (Except Error Unit)
  | [] => (r, [])
  | i :: rest =>
    match r.register i with
    | .ok added =>
      let (last, answers) := registerAll added rest
      (last, .ok () :: answers)
    | .error error =>
      let (last, answers) := registerAll r rest
      (last, .error error :: answers)

/-- The implementers of a session that were accepted. -/
def accepted (calls : List Implementer) (answers : List (Except Error Unit)) : List Implementer :=
  ((calls.zip answers).filter fun call => call.2.isOk).map Prod.fst

/-- A session appends what it accepts. -/
theorem implementers_registerAll (r : Registry) (calls : List Implementer) :
    (r.registerAll calls).1.implementers = r.implementers ++ accepted calls (r.registerAll calls).2 := by
  induction calls generalizing r with
  | nil => exact (List.append_nil _).symm
  | cons i rest ih =>
    rw [registerAll]
    cases hi : r.register i with
    | error error => exact ih r
    | ok added =>
      obtain ⟨-, rfl⟩ := register_eq_ok_iff.mp hi
      have hrest := ih ⟨r.implementers ++ [i]⟩
      rw [List.append_assoc] at hrest
      exact hrest

theorem nodup_keys_registerAll (hnodup : r.keys.Nodup) (calls : List Implementer) :
    (r.registerAll calls).1.keys.Nodup := by
  induction calls generalizing r with
  | nil => exact hnodup
  | cons i rest ih =>
    rw [registerAll]
    cases hi : r.register i with
    | error error => exact ih hnodup
    | ok added =>
      obtain ⟨⟨hnew, -⟩, rfl⟩ := register_eq_ok_iff.mp hi
      have hadded : keys ⟨r.implementers ++ [i]⟩ = r.keys ++ [i.key] := List.map_append
      refine ih ?_
      rw [hadded]
      refine List.nodup_append.mpr ⟨hnodup, List.nodup_singleton _, fun key hkey key' hkey' heq => hnew ?_⟩
      rw [← List.mem_singleton.mp hkey', ← heq]
      exact hkey

/-- The last call of a session finds the registry that the calls before it left. -/
theorem registerAll_append_singleton (r : Registry) (calls : List Implementer) (i : Implementer) :
    (r.registerAll (calls ++ [i])).1 =
      match (r.registerAll calls).1.register i with
      | .ok added => added
      | .error _ => (r.registerAll calls).1 := by
  induction calls generalizing r with
  | nil =>
    change (r.registerAll [i]).1 = _
    rw [registerAll, registerAll]
    cases r.register i with
    | error error => rfl
    | ok added => rfl
  | cons first rest ih =>
    rw [List.cons_append, registerAll, registerAll]
    cases r.register first with
    | error error => exact ih r
    | ok added => exact ih added

/-! ## Selection -/

section

variable {candidates : List (Implementer × Binding)} {chosen : Implementer × Binding}

/-- One more candidate replaces the leader only if its priority is higher. -/
theorem best?_append_singleton (candidates : List (Implementer × Binding)) (last : Implementer × Binding) :
    best? (candidates ++ [last]) =
      match best? candidates with
      | none => some last
      | some leader => if leader.1.priority < last.1.priority then some last else some leader := by
  rw [best?, List.foldl_append, List.foldl_cons, List.foldl_nil, ← best?]
  cases best? candidates with
  | none => rfl
  | some leader => rfl

theorem best?_eq_none_iff : best? candidates = none ↔ candidates = [] := by
  constructor
  · intro h
    induction candidates using List.reverseRecOn with
    | nil => rfl
    | append_singleton candidates last _ =>
      rw [best?_append_singleton] at h
      split at h
      · cases h
      · split_ifs at h
  · rintro rfl
    rfl

/-- The candidates in front of the best one have lower priorities, and those behind it no higher ones. -/
theorem exists_eq_append_of_best? (h : best? candidates = some chosen) :
    ∃ earlier later, candidates = earlier ++ chosen :: later ∧
      (∀ other ∈ earlier, other.1.priority < chosen.1.priority) ∧
      ∀ other ∈ later, other.1.priority ≤ chosen.1.priority := by
  -- the best of a prefix leads until a candidate of a higher priority comes
  induction candidates using List.reverseRecOn generalizing chosen with
  | nil => cases h
  | append_singleton candidates last ih =>
    rw [best?_append_singleton] at h
    split at h
    · rename_i hnone
      cases h
      rw [best?_eq_none_iff.mp hnone]
      exact ⟨[], [], rfl, fun _ hother => (List.not_mem_nil hother).elim, fun _ hother => (List.not_mem_nil hother).elim⟩
    · rename_i leader hleader
      obtain ⟨earlier, later, hsplit, hearlier, hlater⟩ := ih hleader
      split_ifs at h with hhigher
      · cases h
        refine ⟨candidates, [], rfl, fun other hother => ?_, fun _ hother => (List.not_mem_nil hother).elim⟩
        have hother : other.1.priority ≤ leader.1.priority := by
          rw [hsplit, List.mem_append, List.mem_cons] at hother
          rcases hother with hother | rfl | hother
          · exact Int.le_of_lt (hearlier other hother)
          · exact Int.le_refl _
          · exact hlater other hother
        exact Int.lt_of_le_of_lt hother hhigher
      · cases h
        refine ⟨earlier, later ++ [last], ?_, hearlier, fun other hother => ?_⟩
        · rw [hsplit, List.append_assoc, List.cons_append]
        · rcases List.mem_append.mp hother with hother | hother
          · exact hlater other hother
          · rw [List.mem_singleton.mp hother]
            exact Int.not_lt.mp hhigher

end

/-- What `candidates` makes of an implementer. -/
def candidate? (task : Task) (i : Implementer) : Option (Implementer × Binding) :=
  match matchTask i.pattern task with
  | .ok b => some (i, b)
  | .error _ => none

theorem candidates_eq (r : Registry) (task : Task) : r.candidates task = r.implementers.filterMap (candidate? task) := rfl

theorem candidate?_eq_some_iff {i : Implementer} {candidate : Implementer × Binding} :
    candidate? task i = some candidate ↔ candidate.1 = i ∧ matchTask i.pattern task = .ok candidate.2 := by
  obtain ⟨j, b⟩ := candidate
  rw [candidate?]
  cases matchTask i.pattern task with
  | ok b' => simp [eq_comm]
  | error e => simp

/-- Selection fails exactly when every registered pattern refuses the task. -/
theorem select_eq_error_iff :
    (∃ e, r.select task = .error e) ↔ ∀ i ∈ r.implementers, ∃ e, matchTask i.pattern task = .error e := by
  have hnone (i : Implementer) : candidate? task i = none ↔ ∃ e, matchTask i.pattern task = .error e := by
    rw [candidate?]
    cases matchTask i.pattern task with
    | ok b => simp
    | error e => simp
  have hbest : (∃ e, r.select task = .error e) ↔ best? (r.candidates task) = none := by
    rw [select]
    cases best? (r.candidates task) with
    | none => simp
    | some chosen => simp
  rw [hbest, best?_eq_none_iff, candidates_eq, List.filterMap_eq_nil_iff]
  simp only [hnone]

/-- Of the implementers that accept the task, those in front of the selected one have lower priorities and those
behind it no higher ones. -/
theorem exists_eq_append_of_select {i : Implementer} {b : Binding} (h : r.select task = .ok (i, b)) :
    ∃ earlier later, r.implementers = earlier ++ i :: later ∧ matchTask i.pattern task = .ok b ∧
      (∀ j ∈ earlier, (∃ b', matchTask j.pattern task = .ok b') → j.priority < i.priority) ∧
      ∀ j ∈ later, (∃ b', matchTask j.pattern task = .ok b') → j.priority ≤ i.priority := by
  have hbest : best? (r.candidates task) = some (i, b) := by
    rw [select] at h
    split at h
    · rename_i chosen hchosen
      cases h
      exact hchosen
    · cases h
  obtain ⟨earlier, later, hsplit, hearlier, hlater⟩ := exists_eq_append_of_best? hbest
  rw [candidates_eq, List.filterMap_eq_append_iff] at hsplit
  obtain ⟨front, rest, hfront, hearlier', hrest⟩ := hsplit
  obtain ⟨refused, j, back, hback, hrefused, hj, hlater'⟩ := List.filterMap_eq_cons_iff.mp hrest
  obtain ⟨rfl, hmatch⟩ := candidate?_eq_some_iff.mp hj
  refine ⟨front ++ refused, back, ?_, hmatch, ?_, ?_⟩
  · rw [hfront, hback, List.append_assoc]
  · rintro j hj ⟨b', hb'⟩
    have hcandidate : candidate? task j = some (j, b') := candidate?_eq_some_iff.mpr ⟨rfl, hb'⟩
    rcases List.mem_append.mp hj with hj | hj
    · exact hearlier (j, b') (hearlier' ▸ List.mem_filterMap.mpr ⟨j, hj, hcandidate⟩)
    · rw [hrefused j hj] at hcandidate
      cases hcandidate
  · rintro j hj ⟨b', hb'⟩
    have hcandidate : candidate? task j = some (j, b') := candidate?_eq_some_iff.mpr ⟨rfl, hb'⟩
    exact hlater (j, b') (hlater' ▸ List.mem_filterMap.mpr ⟨j, hj, hcandidate⟩)

/-- A session of registrations, some of which may fail, on an empty registry or on that of the library, and a task
afterwards. A call fails exactly when its key is taken or its pattern malformed and then changes nothing; the keys are
distinct, in the order of the calls that succeeded. Selection fails exactly when every pattern refuses the task, and
otherwise gives an implementer with its match such that those in front of it that match have lower priorities and those
behind it that match no higher ones. -/
theorem select_registerAll {start : Registry} (hstart : start = {} ∨ start = builtin) (calls : List Implementer)
    (task : Task) :
    let session := start.registerAll calls
    let r := session.1
    (∀ i : Implementer, ((∃ e, r.register i = .error e) ↔ i.key ∈ r.keys ∨ i.pattern.fault?.isSome) ∧
      ∀ e, r.register i = .error e → (start.registerAll (calls ++ [i])).1 = r) ∧
    (r.keys = start.keys ++ (accepted calls session.2).map Implementer.key ∧ r.keys.Nodup) ∧
    ((∃ e, r.select task = .error e) ↔ ∀ i ∈ r.implementers, ∃ e, matchTask i.pattern task = .error e) ∧
    ∀ i b, r.select task = .ok (i, b) →
      ∃ earlier later, r.implementers = earlier ++ i :: later ∧ matchTask i.pattern task = .ok b ∧
        (∀ j ∈ earlier, (∃ b', matchTask j.pattern task = .ok b') → j.priority < i.priority) ∧
        ∀ j ∈ later, (∃ b', matchTask j.pattern task = .ok b') → j.priority ≤ i.priority := by
  intro session r
  have hnodup : start.keys.Nodup := by
    rcases hstart with rfl | rfl
    · exact List.nodup_nil
    · decide
  refine ⟨fun i => ⟨register_eq_error_iff, fun e he => ?_⟩, ⟨?_, nodup_keys_registerAll hnodup calls⟩, select_eq_error_iff,
    fun i b h => exists_eq_append_of_select h⟩
  · rw [registerAll_append_singleton, he]
  · rw [keys, implementers_registerAll, List.map_append]
    rfl

/-- The sums of the rows of a matrix. -/
def rowSums : Task :=
  let input := TensorInput.ofShape "x" .float32 [4, 3]
  let sum := Expr.reduceOver [3] "k" .sum fun k => input.elementAt (.var (.int "i") :: k)
  let computation : TensorCompute := ⟨"y", Expr.ofShape [4], [.int "i"], sum⟩
  { name := "row_sums"
    computation
    params := [input.toExpr, computation.toExpr]
    paramTypes := [.tensor (.ofShape .global .float32 [4, 3]), .tensor (.ofShape .global .float32 [4])]
    worker := .grid (some 1) (some 4) }

/-- Of two implementers for grids the one of the higher priority is selected for the sums of the rows of a matrix,
although it is registered later. The first one is refused when it is registered again. -/
theorem select_registerAll_fast :
    let fast : Implementer := { GridKernel.implementer with key := "fast", priority := 1 }
    let calls := [GridKernel.implementer, GridKernel.implementer, fast]
    let session := registerAll {} calls
    let r := session.1
    (r.keys = (accepted calls session.2).map Implementer.key ∧ r.keys = [GridKernel.key, "fast"] ∧ r.keys.Nodup) ∧
    r.select rowSums = .ok (fast, {}) ∧
    ∃ earlier later, r.implementers = earlier ++ fast :: later ∧
      (∀ j ∈ earlier, (∃ b', matchTask j.pattern rowSums = .ok b') → j.priority < fast.priority) ∧
      ∀ j ∈ later, (∃ b', matchTask j.pattern rowSums = .ok b') → j.priority ≤ fast.priority := by
  intro fast calls session r
  obtain ⟨-, ⟨hkeys, hnodup⟩, -, hselected⟩ := select_registerAll (.inl rfl) calls rowSums
  have hmatch : matchTask TaskPattern.anyGridTask rowSums = .ok {} := matchTask_anyGridTask rfl
  have hgrid : candidate? rowSums GridKernel.implementer = some (GridKernel.implementer, {}) :=
    candidate?_eq_some_iff.mpr ⟨rfl, hmatch⟩
  have hfast : candidate? rowSums fast = some (fast, {}) := candidate?_eq_some_iff.mpr ⟨rfl, hmatch⟩
  have hselect : r.select rowSums = .ok (fast, {}) := by
    have hcandidates : r.candidates rowSums = [(GridKernel.implementer, {}), (fast, {})] := by
      change [GridKernel.implementer, fast].filterMap (candidate? rowSums) = _
      rw [List.filterMap_cons_some hgrid, List.filterMap_cons_some hfast, List.filterMap_nil]
    rw [select, hcandidates]
    rfl
  obtain ⟨earlier, later, hsplit, -, hearlier, hlater⟩ := hselected fast {} hselect
  exact ⟨⟨hkeys, rfl, hnodup⟩, hselect, earlier, later, hsplit, hearlier, hlater⟩

end TensorCompiler.Registry
