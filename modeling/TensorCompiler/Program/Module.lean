import TensorCompiler.Error
import TensorCompiler.Program.Function

/-! # Modules

A module is a collection of functions with distinct names, in the order in which they were added.
-/

namespace TensorCompiler

/-- Functions in the order of their addition. -/
structure Module where
  functions : List Function := []

namespace Module

/-- The function of the given name. -/
def get? (m : Module) (name : String) : Option Function :=
  m.functions.find? fun f => f.name == name

def contains (m : Module) (name : String) : Bool :=
  (m.get? name).isSome

def names (m : Module) : List String :=
  m.functions.map Function.name

/-- The module with a function added at the end; a name that is present is refused. -/
def add (m : Module) (f : Function) : Except Error Module :=
  if m.contains f.name then .error (.duplicateFunction f.name)
  else .ok ⟨m.functions ++ [f]⟩

/-- Adds functions one by one up to the first that is refused, and reports it beside the module reached. -/
def addAll (m : Module) : List Function → Module × Option Error
  | [] => (m, none)
  | f :: fs =>
    match m.add f with
    | .ok added => addAll added fs
    | .error error => (m, some error)

/-- The module of the given functions, unless two of them have one name. -/
def ofFunctions (functions : List Function) : Except Error Module :=
  match addAll {} functions with
  | (m, none) => .ok m
  | (_, some error) => .error error

/-- The module with the functions of another one added at the end. -/
def merge (m other : Module) : Except Error Module :=
  match m.addAll other.functions with
  | (merged, none) => .ok merged
  | (_, some error) => .error error

/-- The functions that satisfy a test, in order. -/
def filter (m : Module) (keep : Function → Bool) : Module :=
  ⟨m.functions.filter keep⟩

/-- The module with every function replaced by its image. -/
def map (m : Module) (f : Function → Function) : Module :=
  ⟨m.functions.map f⟩

/-- The text of a module: its functions, separated by blank lines. -/
def render (m : Module) : String :=
  "\n".intercalate (m.functions.map Function.render)

end Module

end TensorCompiler
