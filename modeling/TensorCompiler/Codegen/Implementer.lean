import TensorCompiler.Program.Module
import TensorCompiler.Task.Match

/-! # Implementers

An implementer generates code for the tasks that its pattern accepts.
-/

namespace TensorCompiler

/-- A code generator. -/
structure Implementer where
  /-- The name under which it is registered. -/
  key : String
  /-- Where several implementers match, the greatest priority wins. -/
  priority : Int := 0
  /-- The tasks that it accepts. -/
  pattern : TaskPattern
  /-- A module with a function that has the name of the task and runs on its worker. -/
  implement : Task → Binding → Except Error Module

end TensorCompiler
