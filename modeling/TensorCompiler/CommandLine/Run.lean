import TensorCompiler.CommandLine.Demo
import TensorCompiler.CommandLine.Help
import TensorCompiler.CommandLine.Path
import TensorCompiler.Compile

/-! # A run of the program

What a run does to the world is a list of actions, found without doing any of them. `Main` carries them
out.
-/

namespace TensorCompiler.CommandLine

/-- One action of a run. -/
inductive Action where
  /-- Writes to standard output. -/
  | say (text : String)
  /-- Writes to standard error. -/
  | note (text : String)
  /-- Makes a directory in one that is there; a failure is passed over. -/
  | makeDirectory (path : String)
  /-- Writes a file; a failure is passed over. -/
  | keep (path content : String)
  /-- Writes a file; a failure fails the run. -/
  | write (path content : String)
  deriving Repr, DecidableEq

/-- The actions of a run and the exit code if none of them fails. -/
structure Plan where
  actions : List Action
  exitCode : UInt32 := 0

namespace Plan

/-- A plan that ends in a failure. -/
def fail (context reason : String) : Plan :=
  { actions := [.note ("Error: " ++ context ++ ": " ++ reason ++ "\n")], exitCode := 1 }

/-- Actions before a plan. -/
def after (actions : List Action) (plan : Plan) : Plan :=
  { plan with actions := actions ++ plan.actions }

/-- The plan of what stops the program before it runs. -/
def ofStop (stop : Stop) : Plan :=
  match stop with
  | .help _ | .version => { actions := [.say stop.describe] }
  | _ => { actions := [.note stop.describe], exitCode := 2 }

end Plan

/-! ## Comparing a graph with its optimized form -/

/-- The input of the comparison for a shape: thirteen values around zero, repeated in a fixed order. -/
def checkInput (shape : List Int64) : NDArray :=
  let extents := shape.map Int64.toNatClampNeg
  let value (k : Nat) : Float := Float.ofNat (k * 7 % 13) / 13.0 - 0.5
  ⟨extents, Array.ofFn fun k : Fin (extents.foldl (· * ·) 1) => value k⟩

/-- The inputs of the comparison, by the names of the inputs of the graph. -/
def checkInputs (g : Graph) : Tensors :=
  g.tensors.filterMap fun (_, info) => info.inputName?.map fun name => (name, checkInput info.shape)

/-- The greatest difference between elements at the same place. -/
def maxDifference (expected actual : List NDArray) : Float :=
  let pairs := expected.zip actual |>.flatMap fun (e, a) => e.data.toList.zip a.data.toList
  pairs.foldl (fun greatest (x, y) => FloatOps.max greatest (FloatOps.abs (FloatOps.sub x y))) 0.0

/-- Evaluates a graph before and after optimization. The number of outputs, if they agree. -/
def checkGraph (g : Graph) : Except String Nat := do
  let inputs := checkInputs g
  let values : Except Error (List NDArray × List NDArray) := do
    let expected ← g.evaluate inputs
    let optimized ← g.optimize
    pure (expected, ← optimized.evaluate inputs)
  match values with
  | .error e => throw e.message
  | .ok (expected, actual) =>
    let difference := maxDifference expected actual
    if FloatOps.lt 1e-6 difference then
      throw ("optimized graph diverges from the original (max abs diff " ++ Value.floatText difference ++ ")")
    else pure expected.length

/-! ## Observing the passes -/

/-- Writes the snapshots of a run of passes into a directory, which is made with those above it. -/
def snapshotActions (directory : String) (run : PassRun) : List Action :=
  (Path.directoriesTo directory).map .makeDirectory ++
    run.snapshots.map fun (file, text) => .keep (Path.inDirectory directory file) text

/-- A number of microseconds as milliseconds with three places, at least ten characters wide. -/
def milliseconds (micros : Nat) : String :=
  let fraction := toString (micros % 1000)
  let text := toString (micros / 1000) ++ "." ++ String.ofList (List.replicate (3 - fraction.length) '0') ++ fraction
  String.ofList (List.replicate (10 - text.length) ' ') ++ text

/-- The report of how long each pass took, in microseconds; a pass without a time took none. -/
def profileReport (run : PassRun) (times : List Nat) : String :=
  String.join <| run.steps.zipIdx.map fun ((pass, _), k) =>
    padTo 20 pass.name ++ " " ++ milliseconds (times.getD k 0) ++ " ms\n"

/-- Shows the report, and keeps it in a file if one is given. -/
def profileActions (log : Option String) (run : PassRun) (times : List Nat) : List Action :=
  let report := profileReport run times
  (log.toList.map fun path => .keep path report) ++ [.say report]

/-! ## The run -/

namespace Options

/-- Gives the text of a module out. -/
def delivery (o : Options) (m : Module) : Action :=
  match o.output with
  | some path => .write path m.render
  | none => .say m.render

/-- The plan for the task of the warp program. -/
def warpPlan (o : Options) : Plan :=
  match Registry.builtin.dispatch warpTask with
  | .error e => .fail "implementation failed" e.message
  | .ok m =>
    let lowered := if o.noLower then .ok m else Lowerer.canonical.run m
    match lowered with
    | .error e => .fail "lowering failed" e.message
    | .ok m => { actions := [o.delivery m] }

/-- The plan for compiling a graph. -/
def compilePlan (o : Options) (g : Graph) (times : List Nat) : Plan :=
  match g.compile .builtin { blockSize := o.blockSize, lower := !o.noLower } with
  | .error e => .fail "compilation failed" e.message
  | .ok compiled =>
    let snapshots := o.saveGraphs.toList.flatMap fun directory => snapshotActions directory compiled.run
    let report := if o.profile then profileActions o.profileLog compiled.run times else []
    let shown := if o.emitGraph then [.note (compiled.run.result.render ++ "\n")] else []
    { actions := snapshots ++ report ++ shown ++ [o.delivery compiled.module] }

/-- The plan for a graph. -/
def graphPlan (o : Options) (g : Graph) (times : List Nat) : Plan :=
  if o.check then
    match checkGraph g with
    | .error reason => .fail "check failed" reason
    | .ok outputs =>
      (o.compilePlan g times).after
        [.note ("check: optimized graph matches (" ++ toString outputs ++ " outputs)\n")]
  else o.compilePlan g times

/-- The graph to be compiled, for the programs that have one. -/
def graph? (o : Options) : Option (Except Error Graph) :=
  match o.demo with
  | .mlp => some (builtGraph denseLayer)
  | .conv => some (builtGraph convolution)
  | .warp => none

/-- The plan for the options, given how long the passes take. -/
def plan (o : Options) (times : List Nat) : Plan :=
  match o.graph? with
  | none => o.warpPlan
  | some (.error e) => .fail "failed to build the demo graph" e.message
  | some (.ok g) => o.graphPlan g times

end Options

/-- The plan for the arguments of the program, given how long the passes take. -/
def planOf (args : List String) (times : List Nat) : Plan :=
  match Options.ofArguments args with
  | .error stop => .ofStop stop
  | .ok o => o.plan times

end TensorCompiler.CommandLine
