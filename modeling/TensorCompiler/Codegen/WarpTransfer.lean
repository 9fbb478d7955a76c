import TensorCompiler.Codegen.Coordinates
import TensorCompiler.Codegen.Implementer
import TensorCompiler.Expr.LaneIndex
import TensorCompiler.Expr.Primitive

/-! # From shared memory to registers

A warp copies a tile of two dimensions from shared memory into its registers: each lane loads, for every
register that it holds, the element that the layout assigns to it.
-/

namespace TensorCompiler.WarpTransfer

/-- The name of the implementer. -/
def key : String := "cuda_warp_transfer_s2r_implementer"

/-! ## The pattern

The holes of the pattern, in the order in which they are met. -/

/-- The extents of the tile. -/
def shapeHoles : List Expr := [.any 0, .any 1]

/-- The strides of the tile in shared memory. -/
def strideHoles : List Expr := [.any 2, .any 3]

/-- The element type of the tensor that the definition reads. -/
def inputHole : Hole := 4

/-- The element type in shared memory. -/
def sharedType : ScalarType := .hole 5

/-- The element type in the registers. -/
def registerType : ScalarType := .hole 6

/-- The registers. -/
def registers : MemoryScope := .register (.hole 7)

/-- The tensor that is copied. -/
def source : TensorInput := ⟨"in", .hole inputHole, none⟩

/-- The copy. -/
def copy : TensorCompute :=
  let axes := [Var.int "i", Var.int "j"]
  ⟨"out", shapeHoles, axes, source.elementAt (axes.map .var)⟩

/-- A warp that copies a tensor of two dimensions from shared memory to registers. -/
def pattern : TaskPattern where
  computation := copy.toExpr
  requiredParams := [source.toExpr, copy.toExpr]
  requiredTypes :=
    [.tensor ⟨.known .shared, sharedType, none, some strideHoles⟩,
      .tensor ⟨.known registers, registerType, none, none⟩]
  allowExtraTensors := false
  worker := .warp

/-! ## The code -/

/-- What the binding of a task says about the transfer. -/
structure Transfer where
  shape : List Int64
  tile : RegisterTile
  shared : DType
  register : DType

/-- Reads the transfer off a binding and refuses registers that do not hold the tile. -/
def Transfer.ofBinding (b : Binding) : Except Error Transfer := do
  let refuse (fault : CodegenFault) : Except Error Transfer := throw (.codegen key fault)
  match shapeHoles.mapM b.int?, b.tile? registers with
  | none, _ => refuse .dynamicTile
  | some _, none => refuse .notInRegisters
  | some shape, some tile =>
    if !tile.isValid then refuse (.invalidTile tile)
    else if tile.globalShape != shape then refuse (.tileMismatch tile.globalShape shape)
    else
      match b.dtype? sharedType, b.dtype? registerType with
      | some shared, some register => pure ⟨shape, tile, shared, register⟩
      | _, _ => refuse .openElementTypes

/-- The lane of the thread. -/
def lane : Var := ⟨"lane_id", .ofDType .int32⟩

/-- The load of one register. -/
def load (t : Transfer) (shared registers : Var) (position : List Int64) : Stmt :=
  let element := Expr.element (.var shared) (t.tile.globalIndices (.var lane) position)
  let value := if t.shared = t.register then element else .cast (.ofDType t.register) element
  .store (.var registers) (position.map Expr.int) value

/-- The type of the tile in shared memory: that of the parameter that the pattern has met. -/
def sharedTileType (task : Task) (b : Binding) (t : Transfer) : Ty :=
  ((b.param? 0).bind fun i => task.paramTypes[i]?).getD (.tensor (.ofShape .shared t.shared t.shape))

/-- The type of the registers of a lane. -/
def registerTileType (t : Transfer) : Ty :=
  .tensor (.ofShape (.register (.known t.tile)) t.register t.tile.localShape)

/-- The function that copies the tile of a task. -/
def function (task : Task) (b : Binding) : Except Error Function := do
  let t ← Transfer.ofBinding b
  let shared : Var := ⟨"smem", sharedTileType task b t⟩
  let registers : Var := ⟨"regs", registerTileType t⟩
  pure {
    name := task.name
    worker := task.worker
    params := [shared, registers]
    body := .letIn lane Primitive.laneId (.block ((indices t.tile.localShape).map (load t shared registers)))
    label := some key }

/-- The implementer. -/
def implementer : Implementer where
  key
  pattern
  implement task b := do return ⟨[← function task b]⟩

end TensorCompiler.WarpTransfer
