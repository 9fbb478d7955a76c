import TensorCompiler.Expr.Primitive
import TensorCompiler.Expr.Typing
import TensorCompiler.Program.Function
import TensorCompiler.Proofs.Scalar.Typing

/-! # Running the body of a function

What one thread does that runs the body of a function. The machine says which thread it is, how addresses and
memory work and what calls of other functions do; scalar operations are those of the evaluator, and reading memory
at an element type gives a value of that type. A run gives the state at its end and the list of everything that
can be told from outside, in the order in which it happens; it is missing if an operation is undefined.

A strict run also asks that no sum, difference or product of integers leaves the word, and that each literal,
variable and mathematical function gives a value of the type that `inferType` gives it.
-/

namespace TensorCompiler

/-- What a variable holds: a scalar, or the address of a buffer or of an element. -/
inductive Datum (Address : Type) where
  | scalar (v : Value)
  | address (a : Address)

namespace Datum

variable {Address : Type}

def scalar? : Datum Address → Option Value
  | scalar v => some v
  | address _ => none

def address? : Datum Address → Option Address
  | scalar _ => none
  | address a => some a

/-- The integer that a datum is. -/
def int? : Datum Address → Option Int64
  | scalar (.int n) => some n
  | _ => none

/-- Whether a datum has the form of the type of an expression: a value of its element type, or an address where
it is no scalar. -/
def fits (e : Expr) : Datum Address → Bool
  | scalar v => e.knownDType?.any fun d => decide (v.HasType d)
  | address _ => e.knownDType?.isNone

/-- A datum as the value of an expression, which a strict run checks. -/
def guarded (strict : Bool) (e : Expr) (δ : Datum Address) : Option (Datum Address) :=
  if strict && !δ.fits e then none else some δ

/-- A datum that memory holds, read at the type of an expression. -/
def readAs (e : Expr) (δ : Datum Address) : Option (Datum Address) :=
  match e.knownDType?, δ with
  | some d, scalar v => some (scalar (v.cast d))
  | none, address a => some (address a)
  | _, _ => none

/-- A datum cast to a type: a scalar to an element type, an address to a type of addresses. -/
def castTo (target : Ty) : Datum Address → Option (Datum Address)
  | scalar v =>
    match target with
    | .scalar (.known dtype) => some (scalar (v.cast dtype))
    | _ => none
  | address a =>
    match target with
    | .pointer _ | .reference _ | .tensorPointer _ => some (address a)
    | _ => none

end Datum

/-- The variables in scope, innermost first, and what they hold. -/
abbrev Vars (Address : Type) := List (String × Datum Address)

/-- The variables with what the innermost one of a name holds replaced, if there is one. -/
def Vars.set? {Address : Type} (name : String) (δ : Datum Address) : Vars Address → Option (Vars Address)
  | [] => none
  | (x, old) :: vars => if x = name then some ((x, δ) :: vars) else (set? name δ vars).map ((x, old) :: ·)

/-- The thread that runs, and the memory and the other functions that it sees. -/
structure Machine (Address Memory : Type) where
  threadIdx : Int64
  blockIdx : Int64
  blockDim : Int64
  /-- The address of the element at the given indices. -/
  element : Address → List Int64 → Address
  load : Memory → Address → Option (Datum Address)
  store : Memory → Address → Value → Option Memory
  invoke : String → List (Datum Address) → Memory → Option Memory

/-- Whether a sum, a difference or a product of two integers stays within the word. -/
def BinaryOp.isExact : BinaryOp → Value → Value → Bool
  | .add, .int x, .int y => (x + y).toInt == x.toInt + y.toInt
  | .sub, .int x, .int y => (x - y).toInt == x.toInt - y.toInt
  | .mul, .int x, .int y => (x * y).toInt == x.toInt * y.toInt
  | _, _, _ => true

variable {Address Memory : Type}

namespace Machine

/-- The value of a hardware index. -/
def index? (M : Machine Address Memory) (name : String) : Option Int64 :=
  if name = Primitive.threadIdxName then some M.threadIdx
  else if name = Primitive.blockIdxName then some M.blockIdx
  else if name = Primitive.blockDimName then some M.blockDim
  else none

end Machine

/-! ## Expressions -/

section

variable [FloatOps] (M : Machine Address Memory) (strict : Bool) (memory : Memory)

mutual

/-- What an expression gives. -/
def Expr.run (vars : Vars Address) : Expr → Option (Datum Address)
  | .var v => (vars.lookup v.name).bind (Datum.guarded strict (.var v))
  | .const value dtype => Datum.guarded strict (.const value dtype) (.scalar value)
  | .unary op arg => do
    let a ← (← arg.run vars).scalar?
    (op.eval? a).map .scalar
  | .binary op lhs rhs => do
    let a ← (← lhs.run vars).scalar?
    let b ← (← rhs.run vars).scalar?
    if strict && !op.isExact a b then none else (op.eval? a b).map .scalar
  | .letIn v value body => do
    let δ ← value.run vars
    body.run ((v.name, δ) :: vars)
  | .ite cond thenE elseE => do
    let c ← (← cond.run vars).scalar?
    if c.truthy then thenE.run vars else elseE.run vars
  | .element base indices => do
    let a ← (← base.run vars).address?
    let is ← Expr.runIndices vars indices
    (M.load memory (M.element a is)).bind (Datum.readAs (.element base indices))
  | .deref arg => do
    let a ← (← arg.run vars).address?
    (M.load memory a).bind (Datum.readAs (.deref arg))
  | .addr (.element base indices) | .ref (.element base indices) => do
    let a ← (← base.run vars).address?
    let is ← Expr.runIndices vars indices
    some (.address (M.element a is))
  | .addr (.deref arg) | .ref (.deref arg) => do
    let a ← (← arg.run vars).address?
    some (.address a)
  | .call func args =>
    if Primitive.isHardwareIndex func then
      if args.isEmpty then (M.index? func).map fun n => .scalar (.int n) else none
    else do
      let values ← Expr.runScalars vars args
      (Intrinsic.eval? func values).bind fun v => Datum.guarded strict (.call func args) (.scalar v)
  | .cast target arg => do
    let δ ← arg.run vars
    δ.castTo target
  | _ => none

/-- What several expressions give that are indices. -/
def Expr.runIndices (vars : Vars Address) : List Expr → Option (List Int64)
  | [] => some []
  | e :: es => do
    let n ← (← e.run vars).int?
    let ns ← Expr.runIndices vars es
    some (n :: ns)

/-- What several expressions give that are scalars. -/
def Expr.runScalars (vars : Vars Address) : List Expr → Option (List Value)
  | [] => some []
  | e :: es => do
    let v ← (← e.run vars).scalar?
    let vs ← Expr.runScalars vars es
    some (v :: vs)

end

theorem Expr.run_var (vars : Vars Address) (v : Var) :
    (Expr.var v).run M strict memory vars = (vars.lookup v.name).bind (Datum.guarded strict (.var v)) := by
  rw [Expr.run]

/-- What several expressions give. -/
def Expr.runAll (vars : Vars Address) (es : List Expr) : Option (List (Datum Address)) :=
  es.mapM fun e => e.run M strict memory vars

end

/-! ## Statements -/

/-- Something that can be told from outside. -/
inductive Event (Address : Type) where
  | assign (name : String) (δ : Datum Address)
  | store (buffer : Address) (indices : List Int64) (v : Value)
  | call (func : String) (args : List (Datum Address))

/-- Why a run ends before the end of the body. -/
inductive Halt (Address : Type) where
  | returned (δ : Option (Datum Address))
  | failed (message : String)

structure State (Address Memory : Type) where
  vars : Vars Address
  memory : Memory

/-- What a run leaves: the state at its end, what happened, and why it ended early if it did. -/
structure Run (Address Memory : Type) where
  state : State Address Memory
  events : List (Event Address) := []
  halt : Option (Halt Address) := none

namespace State

/-- The state inside the scope of a variable. -/
def bind (s : State Address Memory) (name : String) (δ : Datum Address) : State Address Memory :=
  { s with vars := (name, δ) :: s.vars }

end State

namespace Run

/-- The run followed by what comes after it, unless it ended early. -/
def andThen (r : Run Address Memory) (next : State Address Memory → Option (Run Address Memory)) :
    Option (Run Address Memory) :=
  match r.halt with
  | some _ => some r
  | none => (next r.state).map fun r' => { r' with events := r.events ++ r'.events }

/-- The run seen from outside the scope of its innermost variable. -/
def leave (r : Run Address Memory) : Run Address Memory :=
  { r with state := { r.state with vars := r.state.vars.tail } }

end Run

/-- The values of a loop variable below an extent. -/
def iterations (extent : Int64) : List Int64 :=
  (List.range extent.toNatClampNeg).map Int64.ofNat

/-- The runs of a loop body for the given values of the loop variable, one after the other. -/
def runLoop (body : Int64 → State Address Memory → Option (Run Address Memory)) :
    List Int64 → State Address Memory → Option (Run Address Memory)
  | [], s => some { state := s }
  | i :: is, s => (body i s).bind fun r => r.andThen (runLoop body is)

section

variable [FloatOps] (M : Machine Address Memory) (strict : Bool)

/-- A statement that only evaluates an expression. A call of a function that is no primitive acts on memory. -/
def Stmt.execEval (e : Expr) (s : State Address Memory) : Option (Run Address Memory) :=
  match e with
  | .call func args =>
    if Primitive.isPrimitive func then (e.run M strict s.memory s.vars).map fun _ => { state := s }
    else do
      let δs ← Expr.runAll M strict s.memory s.vars args
      let memory ← M.invoke func δs s.memory
      some { state := { s with memory }, events := [.call func δs] }
  | e => (e.run M strict s.memory s.vars).map fun _ => { state := s }

mutual

/-- The run of a statement. -/
def Stmt.exec : Stmt → State Address Memory → Option (Run Address Memory)
  | .eval e, s => Stmt.execEval M strict e s
  | .assign v value, s => do
    let δ ← value.run M strict s.memory s.vars
    let vars ← s.vars.set? v.name δ
    some { state := { s with vars }, events := [.assign v.name δ] }
  | .store buf indices value, s => do
    let a ← (← buf.run M strict s.memory s.vars).address?
    let is ← Expr.runIndices M strict s.memory s.vars indices
    let v ← (← value.run M strict s.memory s.vars).scalar?
    let memory ← M.store s.memory (M.element a is) v
    some { state := { s with memory }, events := [.store a is v] }
  | .letIn v value body, s => do
    let δ ← value.run M strict s.memory s.vars
    let r ← body.exec (s.bind v.name δ)
    some r.leave
  | .forRange v extent _ body, s => do
    let n ← (← extent.run M strict s.memory s.vars).int?
    runLoop (fun i s => (body.exec (s.bind v.name (.scalar (.int i)))).map Run.leave) (iterations n) s
  | .ite cond thenS none, s => do
    let c ← (← cond.run M strict s.memory s.vars).scalar?
    if c.truthy then thenS.exec s else some { state := s }
  | .ite cond thenS (some elseS), s => do
    let c ← (← cond.run M strict s.memory s.vars).scalar?
    if c.truthy then thenS.exec s else elseS.exec s
  | .assert cond message, s => do
    let c ← (← cond.run M strict s.memory s.vars).scalar?
    some { state := s, halt := if c.truthy then none else some (.failed message) }
  | .ret none, s => some { state := s, halt := some (.returned none) }
  | .ret (some e), s => do
    let δ ← e.run M strict s.memory s.vars
    some { state := s, halt := some (.returned (some δ)) }
  | .seq stmts, s => Stmt.execAll stmts s
  | .asm .., _ | .raw .., _ => none

/-- The run of several statements, one after the other. -/
def Stmt.execAll : List Stmt → State Address Memory → Option (Run Address Memory)
  | [], s => some { state := s }
  | stmt :: stmts, s => (stmt.exec s).bind fun r => r.andThen (Stmt.execAll stmts)

end

theorem Stmt.exec_seq (stmts : List Stmt) (s : State Address Memory) :
    (Stmt.seq stmts).exec M strict s = Stmt.execAll M strict stmts s := by
  rw [Stmt.exec]

end

end TensorCompiler
