import TensorCompiler.Proofs.Kernel.Loops

/-! # Launching a kernel

The threads of a grid run the body of a function one after the other, in any order, over one memory of named buffers. A
parameter holds the address of the buffer of its name. A thread sees the memory as the threads before it left it, and its
local variables hold anything at first.
-/

namespace TensorCompiler

/-- An element of a buffer: the name of the buffer and the indices of the element. -/
abbrev Place := String × List Int64

/-- What buffers hold, element by element. -/
abbrev Buffers := Place → Option Value

/-- A thread of a grid: the number of its block, and its number within the block. -/
structure Thread where
  block : Nat
  index : Nat

namespace Thread

/-- The number of a thread in its grid. -/
def number (blockDim : UInt32) (thread : Thread) : Nat :=
  thread.block * blockDim.toNat + thread.index

/-- The threads of a grid, block by block. -/
def all (gridDim blockDim : UInt32) : List Thread :=
  (List.range gridDim.toNat).flatMap fun block => (List.range blockDim.toNat).map fun index => ⟨block, index⟩

/-- The machine that a thread runs on. It calls no function. -/
def machine (blockDim : UInt32) (thread : Thread) : Machine Place Buffers where
  threadIdx := Int64.ofNat thread.index
  blockIdx := Int64.ofNat thread.block
  blockDim := Int64.ofNat blockDim.toNat
  element place indices := (place.1, place.2 ++ indices)
  load memory place := (memory place).map Datum.scalar
  store memory place v := some fun other => if other = place then some v else memory other
  invoke _ _ _ := none

theorem number_lt {gridDim blockDim : UInt32} {thread : Thread} (h : thread ∈ all gridDim blockDim) :
    thread.number blockDim < gridDim.toNat * blockDim.toNat := by
  obtain ⟨block, hblock, hmem⟩ := List.mem_flatMap.mp h
  obtain ⟨index, hindex, rfl⟩ := List.mem_map.mp hmem
  rw [List.mem_range] at hblock hindex
  have hnext : (block + 1) * blockDim.toNat ≤ gridDim.toNat * blockDim.toNat := Nat.mul_le_mul_right _ hblock
  rw [Nat.succ_mul] at hnext
  change block * blockDim.toNat + index < _
  omega

/-- The threads of a grid are numbered through. -/
theorem map_number_all (gridDim blockDim : UInt32) :
    (all gridDim blockDim).map (number blockDim) = List.range (gridDim.toNat * blockDim.toNat) := by
  rw [all]
  induction gridDim.toNat with
  | zero => simp
  | succ n ih =>
    rw [List.range_succ, List.flatMap_append, List.map_append, ih, Nat.succ_mul, List.range_add, List.flatMap_singleton,
      List.map_map]
    rfl

end Thread

/-- Whether a buffer holds an array, each element a float. -/
def Buffers.Holds (memory : Buffers) (buffer : String) (a : NDArray) : Prop :=
  ∀ ns x, (∀ n ∈ ns, n < 2 ^ 63) → a.get? ns = some x → memory (buffer, ns.map Int64.ofNat) = some (.float x)

/-- The stores among events. -/
def storesOf (events : List (Event Place)) : List (Place × List Int64 × Value) :=
  events.filterMap Event.store?

namespace Function

variable [FloatOps]

/-- The variables of a function at its start. -/
def initialVars (f : Function) (locals : String → Datum Place) : Vars Place :=
  f.params.map (fun v => (v.name, .address (v.name, []))) ++ f.locals.map fun v => (v.name, locals v.name)

/-- The run of one thread. -/
def runThread (f : Function) (blockDim : UInt32) (locals : String → Datum Place) (memory : Buffers) (thread : Thread) :
    Option (Run Place Buffers) :=
  f.body.exec (thread.machine blockDim) false ⟨f.initialVars locals, memory⟩

/-- The runs of threads, one after the other: what happened, and what memory holds in the end. -/
def launch (f : Function) (blockDim : UInt32) (locals : Thread → String → Datum Place) :
    List Thread → Buffers → Option (List (Event Place) × Buffers)
  | [], memory => some ([], memory)
  | thread :: threads, memory => do
    let r ← f.runThread blockDim (locals thread) memory thread
    let rest ← launch f blockDim locals threads r.state.memory
    some (r.events ++ rest.1, rest.2)

omit [FloatOps] in
/-- A parameter holds the address of its buffer. -/
theorem lookup_initialVars_of_mem {f : Function} {v : Var} (hv : v ∈ f.params) (locals : String → Datum Place) :
    (f.initialVars locals).lookup v.name = some (.address (v.name, [])) := by
  rw [initialVars]
  generalize f.locals.map (fun v => (v.name, locals v.name)) = rest
  generalize f.params = params at hv
  induction params with
  | nil => cases hv
  | cons w params ih =>
    rw [List.map_cons, List.cons_append]
    by_cases hw : w.name = v.name
    · rw [hw, List.lookup_cons_self]
    · rw [Vars.lookup_cons_of_ne hw]
      exact ih ((List.mem_cons.mp hv).resolve_left fun heq => hw (heq ▸ rfl))

omit [FloatOps] in
theorem mem_initialVars {f : Function} {v : Var} (hv : v ∈ f.locals) (locals : String → Datum Place) :
    v.name ∈ (f.initialVars locals).map Prod.fst := by
  rw [initialVars, List.map_append, List.map_map, List.map_map]
  exact List.mem_append_right _ (List.mem_map.mpr ⟨v, hv, rfl⟩)

/-- Threads that each keep what memory holds, and store what a list says, store the lists in their order. -/
theorem exists_launch {f : Function} {blockDim : UInt32} {locals : Thread → String → Datum Place} {P : Buffers → Prop}
    {stores : Thread → List (Place × List Int64 × Value)} {threads : List Thread}
    (hthread : ∀ thread ∈ threads, ∀ memory, P memory →
      ∃ r, f.runThread blockDim (locals thread) memory thread = some r ∧ r.stores = stores thread ∧ P r.state.memory)
    {memory : Buffers} (h : P memory) :
    ∃ events memory', f.launch blockDim locals threads memory = some (events, memory') ∧
      storesOf events = threads.flatMap stores ∧ P memory' := by
  induction threads generalizing memory with
  | nil => exact ⟨[], memory, rfl, rfl, h⟩
  | cons thread threads ih =>
    obtain ⟨r, hr, hstores, hP⟩ := hthread thread List.mem_cons_self memory h
    obtain ⟨events, memory', hrest, hevents, hP'⟩ := ih (fun t ht => hthread t (List.mem_cons_of_mem _ ht)) hP
    refine ⟨r.events ++ events, memory', ?_, ?_, hP'⟩
    · rw [launch, hr]
      change (f.launch blockDim locals threads r.state.memory >>= _) = _
      rw [hrest]
      rfl
    · rw [List.flatMap_cons, ← hstores, ← hevents]
      exact List.filterMap_append

/-- Whether every launch of a function on a grid runs, from memory of which `P` holds and in whatever order the threads run,
and makes stores of which `Q` holds. -/
def Launches (f : Function) (gridDim blockDim : UInt32) (P : Buffers → Prop)
    (Q : List (Place × List Int64 × Value) → Prop) : Prop :=
  ∀ (locals : Thread → String → Datum Place) (threads : List Thread) (memory : Buffers),
    threads.Perm (Thread.all gridDim blockDim) → P memory →
      ∃ events memory', f.launch blockDim locals threads memory = some (events, memory') ∧ Q (storesOf events)

theorem Launches.imp {f : Function} {gridDim blockDim : UInt32} {P : Buffers → Prop}
    {Q Q' : List (Place × List Int64 × Value) → Prop} (h : f.Launches gridDim blockDim P Q)
    (himp : ∀ stores, Q stores → Q' stores) : f.Launches gridDim blockDim P Q' := by
  intro locals threads memory hperm hP
  obtain ⟨events, memory', hlaunch, hQ⟩ := h locals threads memory hperm hP
  exact ⟨events, memory', hlaunch, himp _ hQ⟩

end Function

/-- Whether stores write an array into a buffer: each store an element at its index, and each element once. -/
structure Writes (stores : List (Place × List Int64 × Value)) (buffer : String) (a : NDArray) : Prop where
  within : ∀ store ∈ stores, store.1 = (buffer, []) ∧
    ∃ ns, store.2.1 = ns.map Int64.ofNat ∧ a.get? ns = some store.2.2.toFloat
  once : ∀ ns k, NDArray.position? a.shape ns = some k → (stores.map fun store => store.2.1).count (ns.map Int64.ofNat) = 1

end TensorCompiler
