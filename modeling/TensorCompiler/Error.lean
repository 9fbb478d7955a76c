import TensorCompiler.Expr.Printer
import TensorCompiler.Task.Worker

/-! # Errors

Every failure of the library is a value of `Error`: a constructor for each cause, with the data that the
message shows. `Error.kind` names the class of a failure and `Error.message` words it.
-/

namespace TensorCompiler

/-- The number of a tensor within a graph. -/
abbrev TensorId := Nat

/-- The name of a graph tensor inside the definitions of tasks. -/
def TensorId.name (id : TensorId) : String :=
  "t" ++ toString id

/-- What was still open where a known value is needed. -/
inductive Unresolved where
  /-- A pattern node was asked for its type. -/
  | wildcardType
  /-- The extents of a graph tensor are not literals. -/
  | shapeOf (tensor : TensorId)
  /-- The value of a definition is not a scalar of known type. -/
  | elementTypeOf (name : String)
  /-- A value inside a definition is not a scalar of known type. -/
  | scalarTypeOf (value : Expr) (found : Ty)
  /-- The number of values of an average is not known. -/
  | averageExtent
  /-- The definition of a task. -/
  | computationOf (task : String)
  /-- The type of a parameter of a task. -/
  | parameterTypeOf (index : Nat) (task : String)

namespace Unresolved

/-- What is unresolved, in words. -/
def describe : Unresolved → String
  | wildcardType => "pattern wildcard has no type"
  | shapeOf tensor => "shape of " ++ tensor.name
  | elementTypeOf name => "element type of `" ++ name ++ "`"
  | scalarTypeOf value found => "scalar type of `" ++ value.render ++ "` (" ++ found.render ++ ")"
  | averageExtent => "extent of an average reduction"
  | computationOf task => "computation of task `" ++ task ++ "`"
  | parameterTypeOf index task =>
    "type of parameter " ++ toString index ++ " of task `" ++ task ++ "`"

end Unresolved

/-- What is wrong with an operand. -/
inductive OperandFault where
  | notScalar (found : Ty)
  | notIndexable (found : Ty)
  | notPointer (found : Ty)
  | wrongRank (op : String) (expected : Nat) (shape : List Int64)
  | axisOutOfRange (axis : Nat) (shape : List Int64)
  /-- An entry function has a parameter that a packed call cannot carry. -/
  | notPackable (param entry : String) (ty : Ty)
  /-- A task parameter is neither an input nor a compute node. -/
  | unnamedParameter (param : Expr) (task : String)
  /-- A definition reads a tensor that is no parameter of its task. -/
  | notAParameter (name : String)
  /-- A tensor compute inside the value of another. -/
  | nestedCompute (name : String)

namespace OperandFault

/-- The fault in words. -/
def describe : OperandFault → String
  | notScalar found => "expected a scalar, found " ++ found.render
  | notIndexable found => "cannot index a value of type " ++ found.render
  | notPointer found => "cannot dereference a value of type " ++ found.render
  | wrongRank op expected shape =>
    op ++ " expects rank " ++ toString expected ++ ", got shape " ++ RegisterTile.extents shape
  | axisOutOfRange axis shape =>
    "reduce axis " ++ toString axis ++ " out of range for shape " ++ RegisterTile.extents shape
  | notPackable param entry ty =>
    "parameter `" ++ param ++ "` of `" ++ entry ++ "` has type " ++ ty.render ++ " which cannot be packed"
  | unnamedParameter param task => "parameter `" ++ param.render ++ "` of task `" ++ task ++ "`"
  | notAParameter name => "`" ++ name ++ "` is not a task parameter"
  | nestedCompute name => "nested tensor compute `" ++ name ++ "`"

end OperandFault

/-- Why an expression or a graph has no value. -/
inductive EvalFault where
  | unboundVariable (name : String)
  /-- A node that is not evaluated, or an operator without a result for its operand. -/
  | undefined (e : Expr)
  /-- A binary operator without a result for its operands. -/
  | undefinedBinary (e : Expr) (lhs rhs : Value)
  | undefinedCall (e : Expr)
  | notATensor (base : Expr)
  | missingTensor (name : String)
  | outOfBounds (indices : List Nat) (name : String)
  | negativeIndex (index : Int64) (e : Expr)
  | nonIntegerIndex (index : Value) (e : Expr)
  | castTarget (target : Ty)
  | symbolicExtent
  | undefinedCombine
  | symbolicShape (name : String)
  | negativeExtent (name : String)
  | missingInput (name : String)
  | missingOutput (tensor : TensorId)

namespace EvalFault

/-- The fault in words. -/
def describe : EvalFault → String
  | unboundVariable name => "unbound variable `" ++ name ++ "`"
  | undefined e => "cannot evaluate `" ++ e.render ++ "`"
  | undefinedBinary e lhs rhs =>
    "cannot evaluate `" ++ e.render ++ "` (" ++ lhs.render ++ ", " ++ rhs.render ++ ")"
  | undefinedCall e => "cannot evaluate call `" ++ e.render ++ "`"
  | notATensor base => "cannot index `" ++ base.render ++ "`"
  | missingTensor name => "no value for tensor `" ++ name ++ "`"
  | outOfBounds indices name =>
    "index " ++ Text.bracketed (indices.map toString) ++ " out of bounds for `" ++ name ++ "`"
  | negativeIndex index e => "negative index " ++ toString index ++ " in `" ++ e.render ++ "`"
  | nonIntegerIndex index e => "non-integer index " ++ index.render ++ " in `" ++ e.render ++ "`"
  | castTarget target => "cannot cast to " ++ target.render
  | symbolicExtent => "reduction with symbolic extent"
  | undefinedCombine => "reduction combine failed"
  | symbolicShape name => "`" ++ name ++ "` has a symbolic shape"
  | negativeExtent name => "`" ++ name ++ "` has a negative extent"
  | missingInput name => "missing graph input `" ++ name ++ "`"
  | missingOutput tensor => "output " ++ tensor.name ++ " was never computed"

end EvalFault

/-- What is inconsistent in a pattern. -/
inductive PatternFault where
  | typeCount (params types : Nat)
  | undeclaredParameter (name : String)
  | notANode (index : Nat)

namespace PatternFault

/-- The fault in words. -/
def describe : PatternFault → String
  | typeCount params types =>
    toString params ++ " required parameters but " ++ toString types ++ " parameter types"
  | undeclaredParameter name =>
    "required parameter `" ++ name ++ "` does not occur in the compute pattern"
  | notANode index => "required parameter " ++ toString index ++ " is not a compute node"

end PatternFault

/-- Why the module of an implementer does not define its task. -/
inductive OutputFault where
  | missingFunction (name : String)
  | wrongWorker (name : String) (found expected : Worker)

namespace OutputFault

/-- The fault in words. -/
def describe : OutputFault → String
  | missingFunction name => "no function named `" ++ name ++ "`"
  | wrongWorker name found expected =>
    "function `" ++ name ++ "` runs on " ++ found.render ++ " but the task targets " ++ expected.render

end OutputFault

/-- Why an implementer generated no code for a task it accepted. -/
inductive CodegenFault where
  | dynamicShape (task : String)
  | unboundOutput (task : String)
  | dynamicTile
  | notInRegisters
  | invalidTile (tile : RegisterTile)
  | tileMismatch (covered tile : List Int64)
  | openElementTypes
  /-- A reason of an implementer from outside the library. -/
  | declined (reason : String)

namespace CodegenFault

/-- The fault in words. -/
def describe : CodegenFault → String
  | dynamicShape task => "task `" ++ task ++ "` has a dynamic shape"
  | unboundOutput task => "task `" ++ task ++ "` does not bind its output"
  | dynamicTile => "tile shape is not static"
  | notInRegisters => "output is not held in registers"
  | invalidTile tile => "invalid register layout " ++ tile.render
  | tileMismatch covered tile =>
    "register layout covers " ++ RegisterTile.extents covered ++ " but the shared tile is " ++
      RegisterTile.extents tile
  | openElementTypes => "element types are unresolved"
  | declined reason => reason

end CodegenFault

/-- A failure of the library. -/
inductive Error where
  /-- Two operands disagree in their element type. -/
  | typeMismatch (op : String) (lhs rhs : DType)
  | unresolved (what : Unresolved)
  /-- The shapes of two operands do not fit. -/
  | shapeMismatch (op : String) (lhs rhs : List Int64)
  | invalidOperand (fault : OperandFault)
  /-- A module already holds a function of that name. -/
  | duplicateFunction (name : String)
  /-- The tensor does not belong to the graph. -/
  | unknownTensor (tensor : TensorId)
  /-- The operators of the graph form a cycle through the node of that task. -/
  | cyclicGraph (node : String)
  | eval (fault : EvalFault)
  /-- A lowering transform was placed after one of a later stage. -/
  | outOfOrder (transform after : String)
  /-- No registered implementer accepts the task. -/
  | noImplementer (task : String) (worker : Worker)
  | duplicateRegistration (key : String)
  | malformedPattern (key : String) (fault : PatternFault)
  | invalidOutput (key : String) (fault : OutputFault)
  | codegen (key : String) (fault : CodegenFault)

namespace Error

/-- The class of the failure. -/
def kind : Error → String
  | typeMismatch .. => "TypeMismatch"
  | unresolved _ => "Unresolved"
  | shapeMismatch .. => "ShapeMismatch"
  | invalidOperand _ => "InvalidOperand"
  | duplicateFunction _ => "DuplicateFunction"
  | unknownTensor _ => "UnknownTensor"
  | cyclicGraph _ => "CyclicGraph"
  | eval _ => "Eval"
  | outOfOrder .. => "OutOfOrder"
  | noImplementer .. => "NoImplementerFound"
  | duplicateRegistration _ => "DuplicateRegistration"
  | malformedPattern .. => "MalformedPattern"
  | invalidOutput .. => "InvalidOutput"
  | codegen .. => "Codegen"

/-- The failure in words. -/
def message : Error → String
  | typeMismatch op lhs rhs => "type mismatch in `" ++ op ++ "`: " ++ lhs.name ++ " vs " ++ rhs.name
  | unresolved what => "unresolved " ++ what.describe
  | shapeMismatch op lhs rhs =>
    "shape mismatch in " ++ op ++ ": " ++ RegisterTile.extents lhs ++ " vs " ++ RegisterTile.extents rhs
  | invalidOperand fault => "invalid operand: " ++ fault.describe
  | duplicateFunction name => "duplicate function `" ++ name ++ "` in module"
  | unknownTensor tensor => "unknown tensor " ++ tensor.name
  | cyclicGraph node => "flow graph contains a cycle through `" ++ node ++ "`"
  | eval fault => "constant evaluation failed: " ++ fault.describe
  | outOfOrder transform after =>
    "lowering transform `" ++ transform ++ "` cannot run after `" ++ after ++ "`"
  | noImplementer task worker =>
    "no implementer found for task `" ++ task ++ "` on " ++ worker.render
  | duplicateRegistration key => "implementer `" ++ key ++ "` is already registered"
  | malformedPattern key fault => "malformed pattern for implementer `" ++ key ++ "`: " ++ fault.describe
  | invalidOutput key fault =>
    "implementer `" ++ key ++ "` produced an invalid module: " ++ fault.describe
  | codegen key fault => "implementer `" ++ key ++ "` failed: " ++ fault.describe

end Error

end TensorCompiler
