import TensorCompiler.Graph.Algebra
import TensorCompiler.Graph.Folding
import TensorCompiler.Graph.Fusion
import TensorCompiler.Graph.Printer

/-! # Graph passes

The passes over a graph by their names, and a run of several passes. A run is a value: it records the graph
before the first pass and after each one, so that what an observer sees of it (notifications, snapshots) is
read off the run and cannot influence it.
-/

namespace TensorCompiler

/-- A transform of graphs that keeps their inputs and outputs. -/
inductive GraphPass where
  | constFold
  | patternTransform
  | fuseUnary
  | fuseEpilogue
  | fusePrologue
  deriving Repr, DecidableEq

namespace GraphPass

def name : GraphPass → String
  | constFold => "const_fold"
  | patternTransform => "pattern_transform"
  | fuseUnary => "fuse_unary"
  | fuseEpilogue => "fuse_epilogue"
  | fusePrologue => "fuse_prologue"

/-- Every pass, in the order of the pipeline. -/
def pipeline : List GraphPass :=
  [constFold, patternTransform, fuseUnary, fuseEpilogue, fusePrologue]

/-- The pass of the given name. -/
def ofName? (name : String) : Option GraphPass :=
  pipeline.find? fun pass => pass.name == name

/-- Transforms a graph. A pass with nothing to do gives its input back. -/
def run [FloatOps] (pass : GraphPass) (g : Graph) : Except Error Graph :=
  match pass with
  | constFold => g.foldConstants
  | patternTransform => g.simplifyAlgebra
  | fuseUnary => g.fuseAll .unary
  | fuseEpilogue => g.fuseAll .epilogue
  | fusePrologue => g.fuseAll .prologue

end GraphPass

/-- A run of passes over a graph. -/
structure PassRun where
  /-- The graph in normal form, before the first pass. -/
  start : Graph
  /-- The passes in the order of the run, each with the graph after it. -/
  steps : List (GraphPass × Graph)
  /-- The graph in normal form after the last pass. -/
  result : Graph

namespace PassRun

/-- The passes with the graphs after them, and the graph after the last. -/
def runSteps [FloatOps] (g : Graph) : List GraphPass → Except Error (List (GraphPass × Graph) × Graph)
  | [] => .ok ([], g)
  | pass :: passes => do
    let after ← pass.run g
    let (steps, last) ← runSteps after passes
    pure ((pass, after) :: steps, last)

/-- Runs passes over the normal form of a graph. -/
def run [FloatOps] (passes : List GraphPass) (g : Graph) : Except Error PassRun := do
  let start ← g.normalize
  let (steps, last) ← runSteps start passes
  pure ⟨start, steps, ← last.normalize⟩

/-! ## What an observer sees -/

/-- A moment of a run at which observers are notified. -/
inductive Event where
  | started
  | beforePass (pass : GraphPass)
  | afterPass (pass : GraphPass)
  | finished
  deriving Repr, DecidableEq

/-- The notifications of a run up to its last pass, each with the graph of the moment. -/
def passEvents (before : Graph) : List (GraphPass × Graph) → List (Event × Graph)
  | [] => []
  | (pass, after) :: steps => (.beforePass pass, before) :: (.afterPass pass, after) :: passEvents after steps

/-- The notifications of several observers: at each moment in the order in which they registered, at the end
in the opposite one. -/
def notifications {α : Type} (run : PassRun) (observers : List α) : List (α × Event × Graph) :=
  ((.started, run.start) :: passEvents run.start run.steps).flatMap
      (fun moment => observers.map fun observer => (observer, moment)) ++
    observers.reverse.map fun observer => (observer, .finished, run.result)

/-- The text files that show the graph before the first pass and after each one, with their names. -/
def snapshots (run : PassRun) : List (String × String) :=
  ("0_origin.txt", run.start.render) :: run.steps.zipIdx.map fun ((pass, after), k) =>
    (toString (k + 1) ++ "_" ++ pass.name ++ ".txt", after.render)

end PassRun

/-- The graph after all passes of the pipeline. -/
def Graph.optimize [FloatOps] (g : Graph) : Except Error Graph := do
  return (← PassRun.run GraphPass.pipeline g).result

end TensorCompiler
