import TensorCompiler.Codegen.Coordinates
import TensorCompiler.Codegen.GridKernel
import TensorCompiler.Codegen.Implementer
import TensorCompiler.Codegen.Registry
import TensorCompiler.Codegen.ValueLowering
import TensorCompiler.Codegen.WarpTransfer
import TensorCompiler.CommandLine.Demo
import TensorCompiler.CommandLine.FileTree
import TensorCompiler.CommandLine.Help
import TensorCompiler.CommandLine.Options
import TensorCompiler.CommandLine.Path
import TensorCompiler.CommandLine.Run
import TensorCompiler.Compile
import TensorCompiler.Error
import TensorCompiler.Expr.Basic
import TensorCompiler.Expr.Equality
import TensorCompiler.Expr.Eval
import TensorCompiler.Expr.Folding
import TensorCompiler.Expr.Interval
import TensorCompiler.Expr.LaneIndex
import TensorCompiler.Expr.Memory
import TensorCompiler.Expr.Primitive
import TensorCompiler.Expr.Printer
import TensorCompiler.Expr.Traversal
import TensorCompiler.Expr.Typing
import TensorCompiler.Graph.Algebra
import TensorCompiler.Graph.Basic
import TensorCompiler.Graph.Broadcast
import TensorCompiler.Graph.Eval
import TensorCompiler.Graph.Folding
import TensorCompiler.Graph.Fusion
import TensorCompiler.Graph.Kind
import TensorCompiler.Graph.Normal
import TensorCompiler.Graph.Operators
import TensorCompiler.Graph.Pass
import TensorCompiler.Graph.Printer
import TensorCompiler.Lowering.Bounds
import TensorCompiler.Lowering.Flatten
import TensorCompiler.Lowering.Packed
import TensorCompiler.Lowering.Pipeline
import TensorCompiler.Lowering.Reachability
import TensorCompiler.Main
import TensorCompiler.Number.Binary64
import TensorCompiler.Number.Decimal
import TensorCompiler.Program.Function
import TensorCompiler.Program.Module
import TensorCompiler.Proofs.Codegen.Accesses
import TensorCompiler.Proofs.Codegen.CallingConvention
import TensorCompiler.Proofs.Codegen.Compile
import TensorCompiler.Proofs.Codegen.Coordinates
import TensorCompiler.Proofs.Codegen.Coverage
import TensorCompiler.Proofs.Codegen.Dispatch
import TensorCompiler.Proofs.Codegen.Grid
import TensorCompiler.Proofs.Codegen.Guard
import TensorCompiler.Proofs.Codegen.Hoisting
import TensorCompiler.Proofs.Codegen.HoleFree
import TensorCompiler.Proofs.Codegen.IndexArithmetic
import TensorCompiler.Proofs.Codegen.Kernel
import TensorCompiler.Proofs.Codegen.KernelNames
import TensorCompiler.Proofs.Codegen.KernelTyped
import TensorCompiler.Proofs.Codegen.Lowers
import TensorCompiler.Proofs.Codegen.ParameterNames
import TensorCompiler.Proofs.Codegen.Reduction
import TensorCompiler.Proofs.Codegen.ReductionStart
import TensorCompiler.Proofs.Codegen.RegisterTile
import TensorCompiler.Proofs.Codegen.Resolved
import TensorCompiler.Proofs.Codegen.RowMajor
import TensorCompiler.Proofs.Codegen.Selection
import TensorCompiler.Proofs.Codegen.Thread
import TensorCompiler.Proofs.Codegen.ValueTyped
import TensorCompiler.Proofs.Codegen.WarpTransfer
import TensorCompiler.Proofs.Expr.Agreement
import TensorCompiler.Proofs.Expr.Eval
import TensorCompiler.Proofs.Expr.FoldEval
import TensorCompiler.Proofs.Expr.FoldRange
import TensorCompiler.Proofs.Expr.FoldRules
import TensorCompiler.Proofs.Expr.FoldTyping
import TensorCompiler.Proofs.Expr.HoleFree
import TensorCompiler.Proofs.Expr.Inside
import TensorCompiler.Proofs.Expr.Interval
import TensorCompiler.Proofs.Expr.Points
import TensorCompiler.Proofs.Expr.Rebuild
import TensorCompiler.Proofs.Expr.Substitution
import TensorCompiler.Proofs.Expr.Totality
import TensorCompiler.Proofs.Expr.Traversal
import TensorCompiler.Proofs.Expr.TypeSoundness
import TensorCompiler.Proofs.Expr.Typing
import TensorCompiler.Proofs.Expr.TypingRules
import TensorCompiler.Proofs.Graph.Algebra
import TensorCompiler.Proofs.Graph.Broadcasting
import TensorCompiler.Proofs.Graph.Build
import TensorCompiler.Proofs.Graph.Convolution
import TensorCompiler.Proofs.Graph.DeadOperators
import TensorCompiler.Proofs.Graph.Edges
import TensorCompiler.Proofs.Graph.Element
import TensorCompiler.Proofs.Graph.FixedPoint
import TensorCompiler.Proofs.Graph.Folding
import TensorCompiler.Proofs.Graph.Functions
import TensorCompiler.Proofs.Graph.Fusion
import TensorCompiler.Proofs.Graph.Inline
import TensorCompiler.Proofs.Graph.InputLists
import TensorCompiler.Proofs.Graph.Interface
import TensorCompiler.Proofs.Graph.Liveness
import TensorCompiler.Proofs.Graph.Names
import TensorCompiler.Proofs.Graph.Needed
import TensorCompiler.Proofs.Graph.Normal
import TensorCompiler.Proofs.Graph.NormalForm
import TensorCompiler.Proofs.Graph.OperandTypes
import TensorCompiler.Proofs.Graph.Operators
import TensorCompiler.Proofs.Graph.Optimize
import TensorCompiler.Proofs.Graph.Order
import TensorCompiler.Proofs.Graph.Padding
import TensorCompiler.Proofs.Graph.Pass
import TensorCompiler.Proofs.Graph.Pipeline
import TensorCompiler.Proofs.Graph.Refusal
import TensorCompiler.Proofs.Graph.RepeatedFusion
import TensorCompiler.Proofs.Graph.Rewiring
import TensorCompiler.Proofs.Graph.Substitution
import TensorCompiler.Proofs.Graph.Table
import TensorCompiler.Proofs.Graph.Totality
import TensorCompiler.Proofs.Graph.Value
import TensorCompiler.Proofs.Graph.WellFormed
import TensorCompiler.Proofs.Kernel.Eval
import TensorCompiler.Proofs.Kernel.Exec
import TensorCompiler.Proofs.Kernel.Frame
import TensorCompiler.Proofs.Kernel.Launch
import TensorCompiler.Proofs.Kernel.Machine
import TensorCompiler.Proofs.Lowering.Bounds
import TensorCompiler.Proofs.Lowering.BoundsExpr
import TensorCompiler.Proofs.Lowering.Flatten
import TensorCompiler.Proofs.Lowering.FlattenTyped
import TensorCompiler.Proofs.Lowering.Frame
import TensorCompiler.Proofs.Lowering.Idempotent
import TensorCompiler.Proofs.Lowering.Integral
import TensorCompiler.Proofs.Lowering.Packed
import TensorCompiler.Proofs.Lowering.Positions
import TensorCompiler.Proofs.Lowering.Reachability
import TensorCompiler.Proofs.Lowering.Settled
import TensorCompiler.Proofs.Lowering.SimplifyResolved
import TensorCompiler.Proofs.Lowering.SimplifyTyped
import TensorCompiler.Proofs.Lowering.WellTyped
import TensorCompiler.Proofs.Lowering.WrapperRun
import TensorCompiler.Proofs.Lowering.Wrappers
import TensorCompiler.Proofs.Number.Binary64
import TensorCompiler.Proofs.Program.Calls
import TensorCompiler.Proofs.Program.WellTyped
import TensorCompiler.Proofs.Result
import TensorCompiler.Proofs.Scalar.Int32
import TensorCompiler.Proofs.Scalar.Typing
import TensorCompiler.Proofs.Stmt.Branches
import TensorCompiler.Proofs.Stmt.Nesting
import TensorCompiler.Proofs.Stmt.Rebuild
import TensorCompiler.Proofs.Stmt.Scoping
import TensorCompiler.Proofs.Stmt.Traversal
import TensorCompiler.Proofs.Task.Instance
import TensorCompiler.Proofs.Task.Match
import TensorCompiler.Proofs.Task.Placeholders
import TensorCompiler.Proofs.Task.RenamedMatch
import TensorCompiler.Proofs.Task.RenamedTask
import TensorCompiler.Proofs.Task.Renaming
import TensorCompiler.Scalar.Arithmetic
import TensorCompiler.Scalar.DType
import TensorCompiler.Scalar.Value
import TensorCompiler.Stmt.Basic
import TensorCompiler.Stmt.Builder
import TensorCompiler.Stmt.Folding
import TensorCompiler.Stmt.Printer
import TensorCompiler.Stmt.Traversal
import TensorCompiler.Task.Basic
import TensorCompiler.Task.Match
import TensorCompiler.Task.Pattern
import TensorCompiler.Task.Worker
import TensorCompiler.Text.Invisible
import TensorCompiler.Text.Quoted
