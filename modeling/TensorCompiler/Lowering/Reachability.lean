import TensorCompiler.Program.Module

/-! # Functions reachable from the host

A function is reachable when the host can invoke it, or when a reachable function calls it. A module without
any function for the host is a library for devices and keeps all of its functions.
-/

namespace TensorCompiler

/-- A name with the names that it leads to. -/
abbrev CallEdges := List (String × List String)

/-- The names that one step from the given names leads to and that are not among them. -/
def CallEdges.frontier (edges : CallEdges) (reached : List String) : List String :=
  let next := edges.flatMap fun (caller, callees) => if reached.contains caller then callees else []
  firstOccurrences (next.filter fun name => !reached.contains name)

/-- The names reached from the given ones in at most `steps` steps. -/
def CallEdges.closure (edges : CallEdges) : (steps : Nat) → (reached : List String) → List String
  | 0, reached => reached
  | steps + 1, reached =>
    match edges.frontier reached with
    | [] => reached
    | found => CallEdges.closure edges steps (reached ++ found)

namespace Module

/-- The functions that the host can invoke. -/
def entries (m : Module) : List Function :=
  m.functions.filter fun f => f.worker.isHostCallable

/-- Each function with the functions of the module that it calls. -/
def callEdges (m : Module) : CallEdges :=
  m.functions.map fun f => (f.name, f.callees.filter m.contains)

/-- The names of the functions that the host can reach. Every step but the last reaches a new function, so
there are no more steps than functions. -/
def reachable (m : Module) : List String :=
  m.callEdges.closure m.functions.length (m.entries.map Function.name)

/-- Drops the functions that the host cannot reach. -/
def dropUnreachable (m : Module) : Module :=
  if m.entries.isEmpty then m
  else
    let reachable := m.reachable
    m.filter fun f => reachable.contains f.name

end Module

end TensorCompiler
