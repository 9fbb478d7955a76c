import TensorCompiler.Codegen.GridKernel
import TensorCompiler.Codegen.WarpTransfer

/-! # The registry of implementers

Implementers in the order of their registration. A task goes to the implementer with the greatest priority
among those whose pattern accepts it, the earliest of equals; what that one makes is checked against the
task.
-/

namespace TensorCompiler

/-- Registered implementers. -/
structure Registry where
  implementers : List Implementer := []

namespace Registry

/-- The registry of the implementers that come with the library. -/
def builtin : Registry :=
  ⟨[GridKernel.implementer, WarpTransfer.implementer]⟩

/-- The implementer of the given key. -/
def get? (r : Registry) (key : String) : Option Implementer :=
  r.implementers.find? fun i => i.key == key

def keys (r : Registry) : List String :=
  r.implementers.map Implementer.key

/-- Registers an implementer, unless its key is taken or its pattern is malformed. -/
def register (r : Registry) (implementer : Implementer) : Except Error Registry :=
  if (r.get? implementer.key).isSome then .error (.duplicateRegistration implementer.key)
  else
    match implementer.pattern.fault? with
    | some fault => .error (.malformedPattern implementer.key fault)
    | none => .ok ⟨r.implementers ++ [implementer]⟩

/-- The implementers that accept a task, each with the binding of its pattern. -/
def candidates (r : Registry) (task : Task) : List (Implementer × Binding) :=
  r.implementers.filterMap fun i =>
    match matchTask i.pattern task with
    | .ok b => some (i, b)
    | .error _ => none

/-- The candidate with the greatest priority, the earliest of equals. -/
def best? (candidates : List (Implementer × Binding)) : Option (Implementer × Binding) :=
  candidates.foldl (fun best candidate =>
    match best with
    | none => some candidate
    | some leader => if leader.1.priority < candidate.1.priority then some candidate else best) none

/-- The implementer for a task, with the binding of its pattern. -/
def select (r : Registry) (task : Task) : Except Error (Implementer × Binding) :=
  match best? (r.candidates task) with
  | some chosen => .ok chosen
  | none => .error (.noImplementer task.name task.worker)

/-- Why a module does not implement a task, if it does not. -/
def outputFault? (task : Task) (m : Module) : Option OutputFault :=
  match m.get? task.name with
  | none => some (.missingFunction task.name)
  | some f => if f.worker = task.worker then none else some (.wrongWorker task.name f.worker task.worker)

/-- Generates the code of a task. -/
def dispatch (r : Registry) (task : Task) : Except Error Module := do
  task.checkResolved
  let (implementer, binding) ← r.select task
  let m ← implementer.implement task binding
  match outputFault? task m with
  | some fault => throw (.invalidOutput implementer.key fault)
  | none => pure m

end Registry

end TensorCompiler
