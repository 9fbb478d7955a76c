import TensorCompiler.Lowering.Bounds
import TensorCompiler.Lowering.Flatten
import TensorCompiler.Lowering.Packed
import TensorCompiler.Lowering.Reachability

/-! # Lowering

The transforms of a module and the order in which they may run. A `Lowerer` is a list of transforms in which
none comes before a transform of an earlier stage.
-/

namespace TensorCompiler

/-- A transform of modules. No transform touches the attributes of a function. -/
inductive Lowering where
  | dropUnreachable
  | addWrappers
  | flattenTensors
  | foldConstants
  | simplifyBounds
  deriving Repr, DecidableEq

namespace Lowering

def name : Lowering → String
  | dropUnreachable => "dead_function_elimination"
  | addWrappers => "packed_functions"
  | flattenTensors => "flatten_tensors"
  | foldConstants => "const_simplify"
  | simplifyBounds => "bound_simplify"

/-- The place of a transform in the order of lowering. -/
def stage : Lowering → Nat
  | dropUnreachable => 0
  | addWrappers => 1
  | flattenTensors => 2
  | foldConstants => 3
  | simplifyBounds => 4

/-- Transforms a module. -/
def run [FloatOps] (transform : Lowering) (m : Module) : Except Error Module :=
  match transform with
  | dropUnreachable => .ok m.dropUnreachable
  | addWrappers => m.addWrappers
  | flattenTensors => .ok (m.map Function.flattenTensors)
  | foldConstants => .ok (m.map Function.foldConstants)
  | simplifyBounds => .ok (m.map Function.simplifyBounds)

/-- The first transform that comes right after one of a later stage, with that one behind it. -/
def stepBack? : List Lowering → Option (Lowering × Lowering)
  | first :: second :: rest =>
    if second.stage < first.stage then some (second, first) else stepBack? (second :: rest)
  | _ => none

/-- What each of several transforms makes of a module, one after the other, up to the first that fails. -/
def trace [FloatOps] (m : Module) : List Lowering → List (Lowering × Except Error Module)
  | [] => []
  | transform :: rest =>
    match transform.run m with
    | .ok next => (transform, .ok next) :: trace next rest
    | .error e => [(transform, .error e)]

end Lowering

/-- Transforms in the order of their stages. -/
structure Lowerer where
  transforms : List Lowering
  ordered : Lowering.stepBack? transforms = none

namespace Lowerer

/-- The given transforms, unless one steps back to an earlier stage. -/
def ofTransforms (transforms : List Lowering) : Except Error Lowerer :=
  match h : Lowering.stepBack? transforms with
  | none => .ok ⟨transforms, h⟩
  | some (transform, after) => .error (.outOfOrder transform.name after.name)

/-- All transforms, in the order of their stages. -/
def canonical : Lowerer where
  transforms := [.dropUnreachable, .addWrappers, .flattenTensors, .foldConstants, .simplifyBounds]
  ordered := by decide

def names (lowerer : Lowerer) : List String :=
  lowerer.transforms.map Lowering.name

/-- Runs the transforms one after the other. -/
def run [FloatOps] (lowerer : Lowerer) (m : Module) : Except Error Module :=
  lowerer.transforms.foldlM (fun m transform => transform.run m) m

end Lowerer

end TensorCompiler
