import TensorCompiler.Stmt.Printer
import TensorCompiler.Stmt.Traversal
import TensorCompiler.Task.Worker

/-! # Functions

A function of the compiled program: its parameters, local variables and body, and the attributes that every
lowering keeps.
-/

namespace TensorCompiler

/-- A function. -/
structure Function where
  name : String
  /-- Where the function runs and how it is launched. -/
  worker : Worker
  /-- The parameters, in calling order. -/
  params : List Var := []
  retType : Ty := .void
  /-- Variables declared for the whole body. -/
  locals : List Var := []
  body : Stmt := .seq []
  /-- For a packed wrapper, the entry that it forwards to. -/
  packed : Option String := none
  /-- Free text, such as the key of the implementer that made the function. -/
  label : Option String := none

namespace Function

/-- The names of the functions and primitives called in the body, in the order of their first use. -/
def callees (f : Function) : List String :=
  firstOccurrences <| f.body.exprNodes.filterMap fun node =>
    match node with
    | .call func _ => some func
    | _ => none

/-- A variable and its type. -/
def declaration (v : Var) : String :=
  v.name ++ ": " ++ v.ty.render

/-- The text of a function. -/
def render (f : Function) : String :=
  let clause (name : String) : Option String → String
    | some text => " " ++ name ++ "=" ++ text
    | none => ""
  "def " ++ f.name ++ "(" ++ Text.listed (f.params.map declaration) ++ ") -> " ++ f.retType.render ++
    " [" ++ f.worker.render ++ "]" ++ clause "packed" f.packed ++ clause "label" f.label ++ "\n" ++
    String.join (f.locals.map fun v => Stmt.line 4 ("declare " ++ declaration v)) ++ f.body.renderAt 4

end Function

/-! ## Building a function -/

/-- The name `hint`, or the first of `hint_1`, `hint_2`, … that is not taken. Of one more candidates than
names taken at least one is free. -/
def freshName (taken : List String) (hint : String) : String :=
  if taken.contains hint then
    let candidates := (List.range taken.length).map fun k => hint ++ "_" ++ toString (k + 1)
    (candidates.find? fun name => !taken.contains name).getD hint
  else hint

/-- A function under construction and the names taken within it. -/
structure FunctionBuilder where
  function : Function
  taken : List String := []

/-- Steps that build a function. -/
abbrev BuildM := StateM FunctionBuilder

namespace FunctionBuilder

/-- An empty function without a result. -/
def new (name : String) (worker : Worker) : FunctionBuilder :=
  { function := { name, worker } }

/-- Takes a name like `hint` that is free. -/
def fresh (hint : String) : BuildM String := do
  let name := freshName (← get).taken hint
  modify fun b => { b with taken := name :: b.taken }
  pure name

/-- A variable with a free name; a statement has to bind it. -/
def freshVar (hint : String) (ty : Ty) : BuildM Var := do
  pure ⟨← fresh hint, ty⟩

/-- Appends a parameter with a free name. -/
def param (hint : String) (ty : Ty) : BuildM Var := do
  let v ← freshVar hint ty
  modify fun b => { b with function := { b.function with params := b.function.params ++ [v] } }
  pure v

/-- Appends parameters that have their names already, and takes these names. -/
def extendParams (vars : List Var) : BuildM Unit :=
  modify fun b =>
    { function := { b.function with params := b.function.params ++ vars }
      taken := vars.map Var.name ++ b.taken }

/-- Declares a local variable with a free name. -/
def declareLocal (hint : String) (ty : Ty) : BuildM Var := do
  let v ← freshVar hint ty
  modify fun b => { b with function := { b.function with locals := b.function.locals ++ [v] } }
  pure v

def setRetType (ty : Ty) : BuildM Unit :=
  modify fun b => { b with function := { b.function with retType := ty } }

def setLabel (label : String) : BuildM Unit :=
  modify fun b => { b with function := { b.function with label := some label } }

def setBody (body : Stmt) : BuildM Unit :=
  modify fun b => { b with function := { b.function with body } }

end FunctionBuilder

end TensorCompiler
