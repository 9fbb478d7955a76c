import TensorCompiler.Program.Module

/-! # Packed wrappers

A host program calls an entry through a wrapper with one calling convention for all entries: the number of
arguments, their type codes and pointers to the arguments. The wrapper checks the number and the codes,
unpacks the arguments and calls the entry.
-/

namespace TensorCompiler

/-- The code of a scalar type in a packed call. -/
def DType.packedCode : DType → Int64
  | .int32 => 1
  | .float32 => 2
  | .bool => 4
  | .int64 => 5
  | .float16 => 6
  | .float64 => 7

/-- The code of the type of a packed argument. Whatever is passed by address has one code. -/
def Ty.packedCode? : Ty → Option Int64
  | .scalar (.known dtype) => some dtype.packedCode
  | .tensor _ | .tensorPointer _ | .pointer _ => some 3
  | _ => none

namespace PackedCall

/-- The number of arguments. -/
def numArgs : Var := ⟨"num_args", .ofDType .int32⟩

/-- The type codes of the arguments. -/
def argTypes : Var := ⟨"arg_types", .pointer (.ofDType .int32)⟩

/-- The addresses of the arguments. -/
def args : Var := ⟨"args", .pointer (.pointer .void)⟩

/-- The name of the wrapper of an entry. -/
def wrapperName (entry : String) : String :=
  entry ++ "_packed"

/-- Checks the number of arguments. -/
def countCheck (entry : String) (count : Nat) : Stmt :=
  .assert ((Expr.var numArgs).equals (Expr.int (Int64.ofNat count)))
    (entry ++ " expects " ++ toString count ++ " arguments")

/-- Checks the type code of an argument. -/
def codeCheck (entry : String) (index : Nat) (code : Int64) : Stmt :=
  .assert ((Expr.element (.var argTypes) [Expr.int (Int64.ofNat index)]).equals (Expr.int code))
    ("argument " ++ toString index ++ " of " ++ entry ++ " must have type code " ++ toString code)

/-- The argument at a position: an address cast to the type of the parameter, or what an address points to
for a scalar. -/
def unpack (index : Nat) (ty : Ty) : Expr :=
  let raw := Expr.element (.var args) [Expr.int (Int64.ofNat index)]
  match ty with
  | .tensor type | .tensorPointer type => .cast (.pointer (.scalar type.dtype)) raw
  | .pointer base => .cast (.pointer base) raw
  | scalar => .deref (.cast (.pointer scalar) raw)

/-- The check of the type of each parameter, the first of them at position `index`. -/
def codeChecks (entry : String) : (index : Nat) → List Var → Except Error (List Stmt)
  | _, [] => .ok []
  | index, param :: params =>
    match param.ty.packedCode? with
    | none => .error (.invalidOperand (.notPackable param.name entry param.ty))
    | some code => do
      let checks ← codeChecks entry (index + 1) params
      pure (codeCheck entry index code :: checks)

/-- The wrapper of an entry. -/
def wrapper (entry : Function) : Except Error Function := do
  let checks ← codeChecks entry.name 0 entry.params
  let arguments := entry.params.zipIdx.map fun (param, index) => unpack index param.ty
  let call := Stmt.eval (.call entry.name arguments)
  pure {
    name := wrapperName entry.name
    worker := .host
    params := [numArgs, argTypes, args]
    body := Stmt.block (countCheck entry.name entry.params.length :: checks ++ [call])
    packed := some entry.name }

end PackedCall

namespace Module

/-- Whether a function is an entry that still lacks a wrapper. -/
def needsWrapper (m : Module) (f : Function) : Bool :=
  f.worker.isHostCallable && f.packed.isNone && !m.contains (PackedCall.wrapperName f.name)

/-- Adds a wrapper for each entry that lacks one. -/
def addWrappers (m : Module) : Except Error Module := do
  let wrappers ← (m.functions.filter m.needsWrapper).mapM PackedCall.wrapper
  m.merge ⟨wrappers⟩

end Module

end TensorCompiler
