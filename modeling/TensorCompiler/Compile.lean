import TensorCompiler.Codegen.Registry
import TensorCompiler.Graph.Pass
import TensorCompiler.Lowering.Pipeline

/-! # Compilation of graphs

A graph is optimized, its tasks are launched on grids of the wanted block size and handed to the registry one
by one, and the modules that come back are merged and lowered. Any failure ends the compilation.
-/

namespace TensorCompiler

/-- What can be chosen about a compilation. -/
structure CompileOptions where
  /-- The number of threads of a block. -/
  blockSize : UInt32 := Worker.defaultBlockSize
  /-- Whether the merged module is lowered. -/
  lower : Bool := true

/-- The result of a compilation. -/
structure Compiled where
  /-- The run of the graph passes. -/
  run : PassRun
  /-- The names of the tasks, in the order of their functions. -/
  tasks : List String
  module : Module

/-- The task on a grid of the wanted block size, if it runs on a grid at all. -/
def Task.resize (blockSize : UInt32) (task : Task) : Task :=
  match task.worker, task.computation.numElements? with
  | .grid .., some count => { task with worker := .launch count blockSize }
  | _, _ => task

namespace Graph

/-- The tasks of the nodes, launched with the given block size. -/
def launchTasks (g : Graph) (blockSize : UInt32) : List Task :=
  g.tasks.map (Task.resize blockSize)

/-- Generates the functions of tasks into one module. -/
def dispatchAll (registry : Registry) (tasks : List Task) : Except Error Module :=
  tasks.foldlM (fun m task => do m.merge (← registry.dispatch task)) {}

/-- Compiles a graph. -/
def compile [FloatOps] (g : Graph) (registry : Registry) (options : CompileOptions) : Except Error Compiled := do
  let run ← PassRun.run GraphPass.pipeline g
  let tasks := run.result.launchTasks options.blockSize
  let m ← dispatchAll registry tasks
  let m ← if options.lower then Lowerer.canonical.run m else pure m
  pure ⟨run, tasks.map Task.name, m⟩

end Graph

end TensorCompiler
