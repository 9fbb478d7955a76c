/-! # Workers

A worker is the part of the machine that a task or a function runs on. An open dimension accepts any value
when a pattern is matched.
-/

namespace TensorCompiler

/-- The execution scope of a task or a function. -/
inductive Worker where
  | host
  | grid (gridDim blockDim : Option UInt32)
  | threadBlock (blockDim : Option UInt32)
  | warp
  | thread
  deriving Repr, DecidableEq

namespace Worker

/-- A grid with both dimensions open. -/
def anyGrid : Worker := grid none none

/-- Whether a pattern dimension accepts the dimension of a task. -/
def acceptsDim (pattern task : Option UInt32) : Bool :=
  pattern.isNone || pattern == task

/-- Whether a pattern on the first worker may serve a task on the second. -/
def accepts : Worker → Worker → Bool
  | host, host | warp, warp | thread, thread => true
  | grid patternGrid patternBlock, grid taskGrid taskBlock =>
    acceptsDim patternGrid taskGrid && acceptsDim patternBlock taskBlock
  | threadBlock pattern, threadBlock task => acceptsDim pattern task
  | _, _ => false

/-- Threads per block, where known. A warp reports its own width. -/
def blockDim? : Worker → Option UInt32
  | grid _ blockDim => blockDim
  | threadBlock blockDim => blockDim
  | warp => some 32
  | host | thread => none

/-- Host functions and grid kernels can be invoked from the host. -/
def isHostCallable : Worker → Bool
  | host | grid .. => true
  | _ => false

/-- The text of a dimension. -/
def dimText : Option UInt32 → String
  | none => "None"
  | some dim => toString dim.toNat

/-- The text of a worker. -/
def render : Worker → String
  | host => "Host"
  | grid gridDim blockDim => "Grid(" ++ dimText gridDim ++ ", " ++ dimText blockDim ++ ")"
  | threadBlock blockDim => "ThreadBlock(" ++ dimText blockDim ++ ")"
  | warp => "Warp"
  | thread => "Thread"

/-- Threads per block of a launch that no one sized. -/
def defaultBlockSize : UInt32 := 256

/-- The grid with one thread for each of `count` elements, in blocks of `blockSize` threads. A grid has at
least one block, and no more than its dimension can hold. -/
def launch (count : Int64) (blockSize : UInt32) : Worker :=
  let block := max blockSize 1
  let threads : Int64 := Int64.ofNat block.toNat
  let blocks := (max count 1 + threads - 1) / threads
  let most := UInt32.size - 1
  let gridDim := if 0 ≤ blocks then min blocks.toNatClampNeg most else most
  grid (some (UInt32.ofNat gridDim)) (some block)

end Worker

end TensorCompiler
