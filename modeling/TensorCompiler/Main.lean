import TensorCompiler.CommandLine.Run

/-! # The command line

Reads the arguments, carries out the plan and gives back its exit code.
-/

namespace TensorCompiler.CommandLine

/-- The number of microseconds that each pass takes on a graph. -/
def passTimes (g : Graph) : IO (List Nat) := do
  let mut current := g
  let mut times := #[]
  for pass in GraphPass.pipeline do
    let started ← IO.monoNanosNow
    match pass.run current with
    | .ok after => current := after
    | .error _ => pure ()
    times := times.push (((← IO.monoNanosNow) - started) / 1000)
  pure times.toList

/-- Carries out one action. The result tells whether the run can go on. -/
def Action.perform : Action → IO Bool
  | .say text => do
    IO.print text
    pure true
  | .note text => do
    IO.eprint text
    pure true
  | .makeDirectory path => do
    try IO.FS.createDir path catch _ => pure ()
    pure true
  | .keep path content => do
    try IO.FS.writeFile path content catch _ => pure ()
    pure true
  | .write path content => do
    try
      IO.FS.writeFile path content
      pure true
    catch e =>
      IO.eprintln s!"Error: failed to write: {e}"
      pure false

/-- Carries out actions up to the first that fails the run. -/
def performAll : List Action → IO Bool
  | [] => pure true
  | action :: rest => do
    if ← action.perform then performAll rest else pure false

/-- The times of the passes, where a report is wanted. -/
def timesFor (args : List String) : IO (List Nat) :=
  match Options.ofArguments args with
  | .ok o =>
    match o.profile, o.graph? with
    | true, some (.ok g) => passTimes g
    | _, _ => pure []
  | .error _ => pure []

end TensorCompiler.CommandLine

open TensorCompiler.CommandLine in
/-- Runs the program. -/
def main (args : List String) : IO UInt32 := do
  let plan := planOf args (← timesFor args)
  if ← performAll plan.actions then pure plan.exitCode else pure 1
