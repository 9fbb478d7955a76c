import TensorCompiler.Proofs.Codegen.Compile
import TensorCompiler.Proofs.Codegen.Grid

/-! # A thread for each element

A launch divides the elements among blocks of threads and rounds the number of blocks up, so every element has a thread and
less than one block of threads is left over. But the number of blocks is bounded by the dimension of a grid. A launch that
would need more has as many as there can be: then the elements behind the last block have no thread, and a kernel with a
thread for each element leaves them unwritten.
-/

namespace TensorCompiler

/-! ## Machine arithmetic -/

theorem toNat_max_one (n : UInt32) : (max n 1).toNat = max n.toNat 1 := by
  have hmax : max n 1 = if n ≤ 1 then 1 else n := rfl
  rw [hmax]
  split_ifs with hle
  · exact (max_eq_right (UInt32.le_iff_toNat_le.mp hle)).symm
  · exact (max_eq_left (Nat.le_of_not_le (mt UInt32.le_iff_toNat_le.mpr hle))).symm

theorem max_one_eq_ofNat {n : Int64} (hn : 0 ≤ n) : max n 1 = Int64.ofNat (max n.toNatClampNeg 1) := by
  have hmax : max n 1 = if n ≤ 1 then 1 else n := rfl
  have hnat := coe_toNatClampNeg hn
  rw [hmax]
  split_ifs with hle
  · rw [Int64.le_iff_toInt_le, Int64.toInt_one] at hle
    rw [max_eq_right (by omega)]
    rfl
  · rw [Int64.le_iff_toInt_le, Int64.toInt_one] at hle
    rw [max_eq_left (by omega), Int64.ofNat_toNatClampNeg n hn]

namespace Worker

variable {count : Int64} {blockSize : UInt32}

/-! ## The dimensions of a launch -/

/-- The number of threads of the largest grid with blocks of a size. -/
def mostThreads (blockSize : UInt32) : Nat :=
  (UInt32.size - 1) * (max blockSize 1).toNat

/-- Within the word a launch has as many blocks as its elements need, rounded up, as far as there can be as many. -/
theorem launch_eq (hcount : 0 ≤ count) (hword : count.toInt + blockSize.toNat < 2 ^ 63) {b : Nat}
    (hb : (max blockSize 1).toNat = b + 1) :
    launch count blockSize =
      .grid (some (UInt32.ofNat (min ((max count.toNatClampNeg 1 + b) / (b + 1)) (UInt32.size - 1))))
        (some (max blockSize 1)) := by
  have hnat := coe_toNatClampNeg hcount
  have hb' := hb
  rw [toNat_max_one] at hb'
  have hsmall : max count.toNatClampNeg 1 + b < 2 ^ 63 := by
    have := count.toNatClampNeg_lt
    have := blockSize.toNat_lt
    omega
  have hsum : max count 1 + Int64.ofNat (b + 1) - 1 = Int64.ofNat (max count.toNatClampNeg 1 + b) := by
    rw [max_one_eq_ofNat hcount, Int64.ofNat_add, Int64.ofNat_add, ← Int64.add_assoc]
    exact Int64.add_sub_cancel _ _
  have hquotient : (max count.toNatClampNeg 1 + b) / (b + 1) < 2 ^ 63 :=
    Nat.lt_of_le_of_lt (Nat.div_le_self _ _) hsmall
  have hblocks : (max count 1 + Int64.ofNat (b + 1) - 1) / Int64.ofNat (b + 1) =
      Int64.ofNat ((max count.toNatClampNeg 1 + b) / (b + 1)) := by
    rw [hsum, Int64.ofNat_div hsmall (by omega)]
  have hpos : 0 ≤ Int64.ofNat ((max count.toNatClampNeg 1 + b) / (b + 1)) := by
    rw [Int64.le_iff_toInt_le, Int64.toInt_ofNat_of_lt hquotient, Int64.toInt_zero]
    exact Int.natCast_nonneg _
  simp only [launch, hb, hblocks, if_pos hpos, Int64.toNatClampNeg_ofNat_of_lt hquotient]

/-- A launch has less than one block of threads too many, and a thread for each element exactly if the largest grid has. -/
theorem exists_launch_eq (hcount : 0 ≤ count) (hword : count.toInt + blockSize.toNat < 2 ^ 63) :
    ∃ gridDim, launch count blockSize = .grid (some gridDim) (some (max blockSize 1)) ∧
      gridDim.toNat * (max blockSize 1).toNat < max count.toNatClampNeg 1 + (max blockSize 1).toNat ∧
      (count.toNatClampNeg ≤ gridDim.toNat * (max blockSize 1).toNat ↔ count.toNatClampNeg ≤ mostThreads blockSize) := by
  obtain ⟨b, hb⟩ : ∃ b, (max blockSize 1).toNat = b + 1 := by
    rw [toNat_max_one]
    exact Nat.exists_eq_succ_of_ne_zero (by omega)
  refine ⟨_, launch_eq hcount hword hb, ?_⟩
  generalize count.toNatClampNeg = n
  have hlower : (max n 1 + b) / (b + 1) * (b + 1) ≤ max n 1 + b := Nat.div_mul_le_self _ _
  have hupper : max n 1 + b < (max n 1 + b) / (b + 1) * (b + 1) + (b + 1) := Nat.lt_div_mul_add (Nat.succ_pos b)
  generalize (max n 1 + b) / (b + 1) = blocks at *
  have hgrid : (UInt32.ofNat (min blocks (UInt32.size - 1))).toNat = min blocks (UInt32.size - 1) :=
    UInt32.toNat_ofNat_of_lt' (Nat.lt_of_le_of_lt (Nat.min_le_right _ _) (by decide))
  rw [mostThreads, hgrid, hb]
  rcases Nat.le_total blocks (UInt32.size - 1) with hle | hle
  · -- there can be as many blocks as are needed
    have hmost : blocks * (b + 1) ≤ (UInt32.size - 1) * (b + 1) := Nat.mul_le_mul_right _ hle
    rw [Nat.min_eq_left hle]
    exact ⟨by omega, iff_of_true (by omega) (by omega)⟩
  · have hmost : (UInt32.size - 1) * (b + 1) ≤ blocks * (b + 1) := Nat.mul_le_mul_right _ hle
    rw [Nat.min_eq_right hle]
    exact ⟨by omega, Iff.rfl⟩

end Worker

/-! ## What is written -/

/-- An operator has as many elements as it evaluates to. -/
theorem Operator.Computes.numElements_eq [FloatOps] {k : ElementKind} {T : TensorTable} {op : Operator} {d : DType}
    {shape : List Int64} {tensors : Tensors} {a : NDArray} (h : op.Computes k T d shape)
    (heval : op.computation.evaluate tensors = .ok a) : numElements shape = Int64.ofNat a.data.size := by
  obtain ⟨_, vs, hshape, hextents, hvs, rfl⟩ := TensorCompute.evaluate_eq_ok_iff.mp heval
  cases h.defines.constShape?_eq.symm.trans hshape
  rw [points_eq_grid] at hvs
  rw [numElements_eq_ofNat hextents, List.size_toArray, List.length_map, hvs.length_eq]

namespace Graph

/-- A launch has at most one block of threads more than its elements need, and a thread for each element as long as there
are no more elements than the largest grid has threads. Exactly as long, a kernel of which the threads share out the elements
writes all of them, and the kernel of every operator over integers writes what the evaluator gives for the operator. -/
theorem exists_launch_covers [FloatOps] {count : Int64} {blockSize : UInt32} (hcount : 0 ≤ count)
    (hword : count.toInt + blockSize.toNat < 2 ^ 63) :
    ∃ gridDim blockDim, Worker.launch count blockSize = .grid (some gridDim) (some blockDim) ∧
      ((gridDim.toNat : Int) - 1) * blockDim.toNat < max count.toInt 1 ∧
      (count.toInt ≤ gridDim.toNat * blockDim.toNat ↔ count.toInt ≤ Worker.mostThreads blockSize) ∧
      (∀ (f : Function) (P : Buffers → Prop) (buffer : String) (shape : List Int64) (value : List Int64 → Value),
        ((grid shape).length : Int) = count.toInt → f.SharesOut gridDim blockDim P buffer shape value →
          f.Launches gridDim blockDim P fun stores =>
            Writes stores buffer (GridKernel.arrayOf shape value) ↔ count.toInt ≤ Worker.mostThreads blockSize) ∧
      ∀ (steps : List BuildStep) (g : Graph) (op : Operator) (tensors : Tensors) (a : NDArray),
        (∀ step ∈ steps, step.hasKind .integer) →
        (∀ op ∈ (build steps).nodes, (ElementKind.numbers .integer).HasExtents op.computation.value) →
        g = build steps ∨ (build steps).optimize = .ok g → op ∈ g.nodes → op.computation.evaluate tensors = .ok a →
        (a.data.size : Int) = count.toInt →
          (op.task.resize blockSize).worker = Worker.launch count blockSize ∧
          ∃ f, GridKernel.kernel (op.task.resize blockSize) = .ok f ∧
            f.Launches gridDim blockDim (fun memory => memory.HoldsAll tensors op.inputs) fun stores =>
              Writes stores op.output.name a ↔ count.toInt ≤ Worker.mostThreads blockSize := by
  obtain ⟨gridDim, hlaunch, hupper, hcovers⟩ := Worker.exists_launch_eq hcount hword
  have hnat := coe_toNatClampNeg hcount
  have hblock := toNat_max_one blockSize
  have hword' : gridDim.toNat * (max blockSize 1).toNat < 2 ^ 63 := by
    have := count.toNatClampNeg_lt
    have := blockSize.toNat_lt
    omega
  have hcovers' : count.toInt ≤ gridDim.toNat * (max blockSize 1).toNat ↔ count.toInt ≤ Worker.mostThreads blockSize := by
    rw [← hnat]
    exact_mod_cast hcovers
  refine ⟨gridDim, _, hlaunch, ?_, hcovers', ?_, ?_⟩
  · rw [Int.sub_mul, ← hnat]
    have hupper' : (gridDim.toNat : Int) * (max blockSize 1).toNat <
        (max count.toNatClampNeg 1 : Nat) + ((max blockSize 1).toNat : Int) := by
      exact_mod_cast hupper
    omega
  · intro f P buffer shape value hlength hshares
    refine hshares.launches.imp fun stores hwrites => ?_
    rw [hwrites, ← hcovers', ← hlength]
    exact_mod_cast Iff.rfl
  · intro steps g op tensors a hsteps hextents hg hop heval hsize
    have hwell := wellFormed_integer hsteps hextents hg
    obtain ⟨d, shape, hcomputes⟩ := hwell.computed op hop
    have helements : numElements shape = count := by
      have hsize' : a.data.size = count.toNatClampNeg := by omega
      rw [hcomputes.numElements_eq heval, hsize', Int64.ofNat_toNatClampNeg count hcount]
    obtain ⟨f, hkernel, hlaunches⟩ := hcomputes.exists_launches (hwell.output_not_mem_inputs hop) hword' heval
      (by have := count.toNatClampNeg_lt; omega)
    have hresize := hcomputes.resize_eq blockSize
    rw [helements, hlaunch] at hresize
    rw [hresize, hlaunch]
    refine ⟨rfl, f, hkernel, hlaunches.imp fun stores hwrites => ?_⟩
    rw [hwrites, ← hcovers', ← hsize]
    exact_mod_cast Iff.rfl

/-- The means of two rows on two blocks with one thread each. -/
theorem exists_launch_covers_rowMean :
    Worker.launch 2 1 = .grid (some 2) (some 1) ∧
    ∃ op ∈ (build rowMeanSteps).nodes, ∃ f, GridKernel.kernel (op.task.resize 1) = .ok f ∧
      f.Launches 2 1 (fun memory => memory.HoldsAll [("t1", ⟨[2, 2], #[1.0, 2.0, -3.0, -8.0]⟩)] op.inputs) fun stores =>
        Writes stores op.output.name ⟨[2], #[1.0, -5.0]⟩ := by
  have hextents : ∀ op ∈ (build rowMeanSteps).nodes,
      (ElementKind.numbers .integer).acceptsExtents op.computation.value := by decide
  obtain ⟨op, hop, heval⟩ : ∃ op ∈ (build rowMeanSteps).nodes,
      op.computation.evaluate [("t1", ⟨[2, 2], #[1.0, 2.0, -3.0, -8.0]⟩)] = .ok ⟨[2], #[1.0, -5.0]⟩ :=
    ⟨_, List.mem_cons_of_mem _ List.mem_cons_self, rfl⟩
  obtain ⟨gridDim, blockDim, hlaunch, -, -, -, hkernels⟩ :=
    exists_launch_covers (show (0 : Int64) ≤ 2 by decide)
      (show (2 : Int64).toInt + (1 : UInt32).toNat < 2 ^ 63 by decide)
  cases hlaunch
  obtain ⟨-, f, hkernel, hlaunches⟩ := hkernels rowMeanSteps _ op _ _ (by decide)
    (fun op hop => ElementKind.hasExtents_of_acceptsExtents (hextents op hop)) (Or.inl rfl) hop heval rfl
  exact ⟨rfl, op, hop, f, hkernel, hlaunches.imp fun stores hwrites => hwrites.mpr (by decide)⟩

/-- One thread for each block does not reach the last of 4294967296 elements, and no kernel with a thread for each of them
writes it. -/
theorem exists_launch_short : ∃ gridDim blockDim,
    Worker.launch 4294967296 1 = .grid (some gridDim) (some blockDim) ∧ gridDim.toNat * blockDim.toNat < 4294967296 ∧
      ∀ (f : Function) (P : Buffers → Prop) (buffer : String) (shape : List Int64) (value : List Int64 → Value),
        (grid shape).length = 4294967296 → f.SharesOut gridDim blockDim P buffer shape value →
          f.Launches gridDim blockDim P fun stores => ¬ Writes stores buffer (GridKernel.arrayOf shape value) := by
  refine ⟨4294967295, 1, rfl, by decide, fun f P buffer shape value hlength hshares => ?_⟩
  refine hshares.launches.imp fun stores hwrites => ?_
  rw [hwrites, hlength]
  decide

end Graph

end TensorCompiler
