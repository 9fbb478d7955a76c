import TensorCompiler.Task.Basic

/-! # Task patterns

A task pattern says which tasks an implementer can handle: the shape of the definition, the parameters that
the implementer needs with the types they must have, and the worker.
-/

namespace TensorCompiler

/-- A template for tasks. -/
structure TaskPattern where
  /-- The definition, with holes and pattern nodes where anything may stand. -/
  computation : Expr
  /-- The nodes of the pattern that must be parameters of the task. -/
  requiredParams : List Expr
  /-- The types of the required parameters, in the same order. -/
  requiredTypes : List Ty
  /-- Whether the task may have further tensor parameters. -/
  allowExtraTensors : Bool
  worker : Worker

namespace TaskPattern

/-- Any task on a grid whose definition is a tensor compute. -/
def anyGridTask : TaskPattern :=
  { computation := .anyCompute none true
    requiredParams := []
    requiredTypes := []
    allowExtraTensors := true
    worker := Worker.anyGrid }

/-- The first fault among the required parameters from the given position on. -/
def paramFault? (declared : List String) : Nat → List Expr → Option PatternFault
  | _, [] => none
  | index, param :: params =>
    match param.nodeName? with
    | none => some (.notANode index)
    | some name =>
      if declared.contains name then paramFault? declared (index + 1) params
      else some (.undeclaredParameter name)

/-- What is inconsistent in a pattern, if anything: there must be a type for each required parameter, and
each required parameter must be a named node of the pattern. -/
def fault? (pattern : TaskPattern) : Option PatternFault :=
  if pattern.requiredParams.length != pattern.requiredTypes.length then
    some (.typeCount pattern.requiredParams.length pattern.requiredTypes.length)
  else
    paramFault? (pattern.computation.preorder.filterMap Expr.nodeName?) 0 pattern.requiredParams

end TaskPattern

end TensorCompiler
