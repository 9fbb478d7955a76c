import Mathlib.Algebra.Group.Int.Defs
import TensorCompiler.Proofs.Expr.Inside
import TensorCompiler.Proofs.Graph.Build

/-! # The windows of a convolution

A convolution moves a kernel over a padded image. The number of its positions along a dimension is one more than a quotient
that is rounded toward zero. Where the kernel is no greater than the padded image, each of the windows lies inside. Where the
kernel is greater by less than the stride, the quotient is zero as well: the convolution is accepted with one position, and
the last taps of the kernel lie outside of the image.
-/

namespace TensorCompiler

/-! ## One dimension -/

/-- What decides about the windows of a convolution along one dimension. -/
structure WindowDim where
  image : Int64
  kernel : Int64
  stride : Int64
  padding : Int64

namespace WindowDim

/-- The number of windows that a convolution has. -/
def count (dim : WindowDim) : Int64 :=
  windowCount dim.image dim.kernel dim.stride dim.padding

/-- The extent of the padded image, as a number. -/
def paddedExtent (dim : WindowDim) : Int :=
  dim.image.toInt + 2 * dim.padding.toInt

/-- Whether the number of windows is computed without an overflow. -/
def InWord (dim : WindowDim) : Prop :=
  -2 ^ 63 ≤ dim.paddedExtent - dim.kernel.toInt ∧ dim.paddedExtent - dim.kernel.toInt < 2 ^ 63 ∧
    (dim.paddedExtent - dim.kernel.toInt).tdiv dim.stride.toInt + 1 < 2 ^ 63

/-- Whether the kernel is no greater than the padded image, or has no tap at all. -/
def KernelFits (dim : WindowDim) : Prop :=
  dim.kernel.toInt ≤ 0 ∨ dim.kernel.toInt ≤ dim.paddedExtent

/-- Whether each tap of the kernel lies inside the padded image at each position. -/
def WindowsInside (dim : WindowDim) : Prop :=
  ∀ i k : Int, 0 ≤ i → i < dim.count.toInt → 0 ≤ k → k < dim.kernel.toInt →
    0 ≤ i * dim.stride.toInt + k ∧ i * dim.stride.toInt + k < dim.paddedExtent

/-- The rows of an image and of a kernel. -/
def rows (image kernel : List Int64) (stride padding : Int64 × Int64) : WindowDim :=
  ⟨image.getD 2 0, kernel.getD 2 0, stride.1, padding.1⟩

/-- The columns of an image and of a kernel. -/
def columns (image kernel : List Int64) (stride padding : Int64 × Int64) : WindowDim :=
  ⟨image.getD 3 0, kernel.getD 3 0, stride.2, padding.2⟩

variable {dim : WindowDim}

theorem toInt_count (hword : dim.InWord) (hstride : 0 < dim.stride.toInt) :
    dim.count.toInt = (dim.paddedExtent - dim.kernel.toInt).tdiv dim.stride.toInt + 1 := by
  obtain ⟨hlower, hupper, hquotient⟩ := hword
  have hnumerator : dim.image + 2 * dim.padding - dim.kernel = Int64.ofInt (dim.paddedExtent - dim.kernel.toInt) := by
    rw [paddedExtent, Int64.ofInt_sub, Int64.ofInt_add, Int64.ofInt_mul, Int64.ofInt_toInt, Int64.ofInt_toInt,
      Int64.ofInt_toInt]
    rfl
  have hcount : dim.count = Int64.ofInt ((dim.paddedExtent - dim.kernel.toInt).tdiv dim.stride.toInt + 1) := by
    have hleast := dim.stride.le_toInt
    have hgreatest := dim.stride.toInt_lt
    rw [count, windowCount, hnumerator, Int64.ofInt_add, Int64.ofInt_tdiv, Int64.ofInt_toInt]
    · rfl
    all_goals
      simp only [Int64.toInt_minValue, Int64.toInt_maxValue]
      omega
  -- a quotient is no greater in amount than its numerator
  have hamount := Int.natAbs_tdiv (dim.paddedExtent - dim.kernel.toInt) dim.stride.toInt
  have hle : ((dim.paddedExtent - dim.kernel.toInt).tdiv dim.stride.toInt).natAbs ≤
      (dim.paddedExtent - dim.kernel.toInt).natAbs := hamount ▸ Nat.div_le_self _ _
  rw [hcount, Int64.toInt_ofInt_of_le (by omega) hquotient]

/-- The windows lie inside the padded image exactly if the kernel is no greater than that, where there are windows. -/
theorem windowsInside_iff (hword : dim.InWord) (hstride : 1 ≤ dim.stride) (hcount : 1 ≤ dim.count) :
    dim.WindowsInside ↔ dim.KernelFits := by
  rw [Int64.le_iff_toInt_le, Int64.toInt_one] at hstride hcount
  have hrows := toInt_count hword hstride
  have hnumerator := Int.mul_tdiv_add_tmod (dim.paddedExtent - dim.kernel.toInt) dim.stride.toInt
  constructor
  · intro hinside
    by_contra hnot
    obtain ⟨htaps, hgreater⟩ := not_or.mp hnot
    have hlast := (hinside 0 (dim.kernel.toInt - 1) (by omega) (by omega) (by omega) (by omega)).2
    omega
  · rintro hfits i k hi hcount hk htap
    have hle : dim.kernel.toInt ≤ dim.paddedExtent := hfits.resolve_left (by omega)
    have hrest := Int.tmod_nonneg dim.stride.toInt (a := dim.paddedExtent - dim.kernel.toInt) (by omega)
    have hlower : 0 ≤ i * dim.stride.toInt := Int.mul_nonneg hi (by omega)
    have hupper : dim.stride.toInt * i ≤
        dim.stride.toInt * (dim.paddedExtent - dim.kernel.toInt).tdiv dim.stride.toInt :=
      Int.mul_le_mul_of_nonneg_left (by omega) (by omega)
    rw [Int.mul_comm] at hupper
    constructor
    · omega
    · omega

/-- A kernel that is greater than the padded image has one position if any, and is greater by less than the stride. -/
theorem count_eq_one (hword : dim.InWord) (hstride : 1 ≤ dim.stride) (hcount : 1 ≤ dim.count)
    (hgreater : ¬ dim.KernelFits) : dim.count = 1 ∧ dim.kernel.toInt < dim.paddedExtent + dim.stride.toInt := by
  rw [Int64.le_iff_toInt_le, Int64.toInt_one] at hstride hcount
  rw [KernelFits, not_or] at hgreater
  have hrows := toInt_count hword (by omega)
  have hexcess := Int.mul_tdiv_add_tmod (dim.kernel.toInt - dim.paddedExtent) dim.stride.toInt
  have hrest := Int.tmod_lt_of_pos (dim.kernel.toInt - dim.paddedExtent) (b := dim.stride.toInt) (by omega)
  have hnonneg : 0 ≤ (dim.kernel.toInt - dim.paddedExtent).tdiv dim.stride.toInt :=
    Int.tdiv_nonneg (by omega) (by omega)
  rw [← Int.neg_sub, Int.neg_tdiv] at hrows
  -- neither the quotient nor its opposite is negative
  have hzero : (dim.kernel.toInt - dim.paddedExtent).tdiv dim.stride.toInt = 0 := by omega
  rw [hzero] at hrows hexcess
  exact ⟨Int64.toInt_inj.mp (hrows.trans Int64.toInt_one.symm), by omega⟩

/-- Where the windows of an image without padding lie inside, so does each tap. -/
theorem WindowsInside.lt_image {image kernel stride : Int64} (h : WindowsInside ⟨image, kernel, stride, 0⟩)
    (hstride : 0 ≤ stride) {i k : Nat} (hi : i < (count ⟨image, kernel, stride, 0⟩).toNatClampNeg)
    (hk : k < kernel.toNatClampNeg) : i * stride.toNatClampNeg + k < image.toNatClampNeg := by
  have hinside := (h i k (Int.natCast_nonneg i) (Int.lt_toNat.mp hi) (Int.natCast_nonneg k) (Int.lt_toNat.mp hk)).2
  simp only [paddedExtent, Int64.toInt_zero] at hinside
  refine Int.lt_toNat.mpr ?_
  rw [Int.natCast_add, Int.natCast_mul, coe_toNatClampNeg hstride]
  omega

end WindowDim

/-! ## Reads -/

section

variable [FloatOps] {tensors : Tensors} {env : Env}

/-- Under the axes of a result and of a reduction in it each axis has its coordinate. -/
theorem forall₂_eval_axes (tensors : Tensors) (id : TensorId) (point tap : List Int64) :
    let env := (Env.bind [] (axisVars (axisName id.name) point.length) (point.map .int)).bind
      (axisVars (reductionAxisName id.name) tap.length) (tap.map .int)
    List.Forall₂ (fun v n => (Expr.var v).eval tensors env = .ok (.int n))
        (axisVars (axisName id.name) point.length) point ∧
      List.Forall₂ (fun v n => (Expr.var v).eval tensors env = .ok (.int n))
        (axisVars (reductionAxisName id.name) tap.length) tap := by
  have hlength (name : String) (values : List Int64) :
      (axisVars name values.length).length = (values.map Value.int).length := by
    simp [axisVars]
  have houter := Env.forall₂_lookup_bind (nodup_names_axisVars (axisName id.name) point.length)
    (hlength _ point) []
  have hinner := Env.forall₂_lookup_bind (nodup_names_axisVars (reductionAxisName id.name) tap.length)
    (hlength _ tap) (Env.bind [] (axisVars (axisName id.name) point.length) (point.map .int))
  rw [List.forall₂_map_right_iff] at houter hinner
  refine ⟨forall₂_imp_of_mem houter fun v hv n hn => Expr.eval_var_eq_ok_iff.mpr ?_,
    hinner.imp fun v n hn => Expr.eval_var_eq_ok_iff.mpr hn⟩
  rw [Env.lookup_bind_of_not_mem, hn]
  intro hmem
  obtain ⟨w, hw, hname⟩ := List.mem_map.mp hmem
  exact (isResultAxis_of_mem_axisVars hv).not_isReductionAxis (hname ▸ isReductionAxis_of_mem_axisVars hw)

/-- A tap reads at its place behind the start of the window, from where the padding starts. -/
theorem eval_tapCoordinate_eq {axis tap : Expr} {i k : Nat} {stride : Int64} (hstride : 0 ≤ stride) (padding : Int64)
    (haxis : axis.eval tensors env = .ok (.int (Int64.ofNat i)))
    (htap : tap.eval tensors env = .ok (.int (Int64.ofNat k))) :
    (TensorCompute.tapCoordinate axis tap stride padding).eval tensors env =
      .ok (.int (Int64.ofNat (i * stride.toNatClampNeg + k) - padding)) := by
  have hmul : (axis * Expr.int stride).eval tensors env = .ok (.int (Int64.ofNat i * stride)) :=
    Expr.eval_binary_eq_ok_iff.mpr ⟨_, _, haxis, Expr.eval_const tensors env _ _, rfl⟩
  have hadd : (axis * Expr.int stride + tap).eval tensors env = .ok (.int (Int64.ofNat i * stride + Int64.ofNat k)) :=
    Expr.eval_binary_eq_ok_iff.mpr ⟨_, _, hmul, htap, rfl⟩
  rw [Int64.ofNat_add, Int64.ofNat_mul, Int64.ofNat_toNatClampNeg stride hstride]
  exact Expr.eval_binary_eq_ok_iff.mpr ⟨_, _, hadd, Expr.eval_const tensors env _ _, rfl⟩

/-- Without padding a tap reads the pixel at its place behind the start of the window. -/
theorem eval_tapCoordinate {axis tap : Expr} {i k : Nat} {stride : Int64} (hstride : 0 ≤ stride)
    (haxis : axis.eval tensors env = .ok (.int (Int64.ofNat i)))
    (htap : tap.eval tensors env = .ok (.int (Int64.ofNat k))) :
    (TensorCompute.tapCoordinate axis tap stride 0).eval tensors env =
      .ok (.int (Int64.ofNat (i * stride.toNatClampNeg + k))) := by
  rw [eval_tapCoordinate_eq hstride 0 haxis htap, Int64.sub_zero]

namespace TensorCompute

variable {x w : TensorId} {d dw : DType} {batch channels height width filters kernelHeight kernelWidth : Int64}
  {stride : Int64 × Int64}

/-- A convolution without padding stays inside of the arrays that it is evaluated on, if its windows lie inside. -/
theorem staysInside_evaluate_conv2d (id : TensorId) (hstride : 0 ≤ stride.1 ∧ 0 ≤ stride.2)
    (hrows : WindowDim.WindowsInside ⟨height, kernelHeight, stride.1, 0⟩)
    (hcolumns : WindowDim.WindowsInside ⟨width, kernelWidth, stride.2, 0⟩)
    (hx : ∀ a, tensors.lookup x.name = some a → a.HasShape [batch, channels, height, width])
    (hw : ∀ a, tensors.lookup w.name = some a → a.HasShape [filters, channels, kernelHeight, kernelWidth]) :
    StaysInside ((conv2d (.ofShape x.name d [batch, channels, height, width])
      (.ofShape w.name dw [filters, channels, kernelHeight, kernelWidth]) d [batch, channels, height, width]
      [filters, channels, kernelHeight, kernelWidth] stride (0, 0)
      (WindowDim.count ⟨height, kernelHeight, stride.1, 0⟩) (WindowDim.count ⟨width, kernelWidth, stride.2, 0⟩)
      id.name).evaluate tensors) := by
  refine staysInside_evaluate (Expr.constShape?_ofShape _) fun point hpoint =>
    Expr.staysInside_eval_reduce fun tap htap => ?_
  rw [points_eq_grid] at hpoint htap
  obtain ⟨index, hindex, rfl⟩ := exists_inShape_of_mem_grid hpoint
  obtain ⟨offset, hoffset, rfl⟩ := exists_inShape_of_mem_grid htap
  obtain ⟨b, _, hb, h₁, rfl⟩ := List.forall₂_cons_right_iff.mp hindex
  obtain ⟨f, _, hf, h₂, rfl⟩ := List.forall₂_cons_right_iff.mp h₁
  obtain ⟨i, _, hi, h₃, rfl⟩ := List.forall₂_cons_right_iff.mp h₂
  obtain ⟨j, _, hj, h₄, rfl⟩ := List.forall₂_cons_right_iff.mp h₃
  obtain rfl := List.forall₂_nil_right_iff.mp h₄
  obtain ⟨c, _, hc, h₅, rfl⟩ := List.forall₂_cons_right_iff.mp hoffset
  obtain ⟨u, _, hu, h₆, rfl⟩ := List.forall₂_cons_right_iff.mp h₅
  obtain ⟨v, _, hv, h₇, rfl⟩ := List.forall₂_cons_right_iff.mp h₆
  obtain rfl := List.forall₂_nil_right_iff.mp h₇
  obtain ⟨haxes, htaps⟩ :=
    forall₂_eval_axes tensors id ([b, f, i, j].map Int64.ofNat) ([c, u, v].map Int64.ofNat)
  change List.Forall₂ _ (axisVars (axisName id.name) 4) _ at haxes
  change List.Forall₂ _ (axisVars (reductionAxisName id.name) 3) _ at htaps
  simp only [axisVars, List.range, List.range.loop, List.map_cons, List.map_nil, List.forall₂_cons] at haxes htaps
  obtain ⟨hb', hf', hi', hj', -⟩ := haxes
  obtain ⟨hc', hu', hv', -⟩ := htaps
  have hrow := hrows.lt_image hstride.1 hi hu
  have hcolumn := hcolumns.lt_image hstride.2 hj hv
  have hi'' := eval_tapCoordinate hstride.1 hi' hu'
  have hj'' := eval_tapCoordinate hstride.2 hj' hv'
  refine Expr.staysInside_eval_binary ?_ ?_
  · rw [if_pos rfl]
    exact Expr.staysInside_eval_element hx (.cons hb' (.cons hc' (.cons hi'' (.cons hj'' .nil))))
      (.cons hb (.cons hc (.cons hrow (.cons hcolumn .nil))))
  · exact Expr.staysInside_eval_element hw (.cons hf' (.cons hc' (.cons hu' (.cons hv' .nil))))
      (.cons hf (.cons hc (.cons hu (.cons hv .nil))))

end TensorCompute

end

/-! ## Convolutions that are accepted -/

theorem exists_of_convolutionSize? {image kernel : List Int64} {stride padding size : Int64 × Int64}
    (h : convolutionSize? image kernel stride padding = some size) :
    ∃ batch channels height width filters kernelHeight kernelWidth, image = [batch, channels, height, width] ∧
      kernel = [filters, channels, kernelHeight, kernelWidth] ∧ 1 ≤ stride.1 ∧ 1 ≤ stride.2 ∧
      size =
        ((WindowDim.rows image kernel stride padding).count, (WindowDim.columns image kernel stride padding).count) ∧
      1 ≤ size.1 ∧ 1 ≤ size.2 := by
  unfold convolutionSize? at h
  split at h
  · rw [Option.ite_none_left_eq_some] at h
    obtain ⟨hoperands, h⟩ := h
    rw [Option.ite_none_left_eq_some] at h
    obtain ⟨hsize, h⟩ := h
    cases h
    simp only [not_or, not_not, Int64.not_lt] at hoperands hsize
    obtain ⟨rfl, hstride, hstride', -, -⟩ := hoperands
    exact ⟨_, _, _, _, _, _, _, rfl, rfl, hstride, hstride', rfl, hsize⟩
  · cases h

namespace Graph

variable {g g' : Graph} {x w t : TensorId} {stride padding : Int64 × Int64}

/-- What an accepted convolution appends. -/
theorem exists_of_run_conv2d (h : (GraphM.conv2d x w stride padding).run g = .ok t g') :
    ∃ image kernel size op, g.tensor x = .ok image ∧ g.tensor w = .ok kernel ∧
      convolutionSize? image.shape kernel.shape stride padding = some size ∧
      g'.nodes = g.nodes ++ [op] ∧ op.output = t ∧
      op.computation = TensorCompute.conv2d (GraphM.asInput x image) (GraphM.asInput w kernel) image.dtype image.shape
        kernel.shape stride padding size.1 size.2 t.name := by
  obtain ⟨image, himage, h⟩ := GraphM.run_tensor_bind_eq_ok_iff.mp h
  obtain ⟨kernel, hkernel, h⟩ := GraphM.run_tensor_bind_eq_ok_iff.mp h
  obtain ⟨_, -, h⟩ := GraphM.run_ofExcept_bind_eq_ok_iff.mp h
  obtain ⟨_, -, h⟩ := GraphM.run_ofExcept_bind_eq_ok_iff.mp h
  split at h
  · cases h
  · rename_i size hsize
    obtain ⟨rfl, op, grown, hop, rfl⟩ := GraphM.exists_of_run_addOperator h
    obtain ⟨d, shape, args, task, -, -, -, htask, rfl, rfl⟩ := operator_eq_ok_iff.mp hop
    obtain ⟨d', -, rfl⟩ := Task.ofCompute_eq_ok_iff.mp htask
    exact ⟨image, kernel, _, _, himage, hkernel, hsize, rfl, rfl, rfl⟩

/-- The windows of an accepted convolution lie inside the padded image exactly if the kernel is no greater than that, in
rows and in columns. Without padding, a convolution of such a kernel stays inside of the arrays of its operands. -/
theorem windows_of_run_conv2d [FloatOps] (hrun : (GraphM.conv2d x w stride padding).run g = .ok t g') :
    ∃ image kernel op, g.tensor x = .ok image ∧ g.tensor w = .ok kernel ∧ g'.nodes = g.nodes ++ [op] ∧ op.output = t ∧
      let rows := WindowDim.rows image.shape kernel.shape stride padding
      let columns := WindowDim.columns image.shape kernel.shape stride padding
      op.computation.constShape? = some [image.shape.getD 0 0, kernel.shape.getD 0 0, rows.count, columns.count] ∧
      (rows.InWord → (rows.WindowsInside ↔ rows.KernelFits)) ∧
      (columns.InWord → (columns.WindowsInside ↔ columns.KernelFits)) ∧
      (padding = (0, 0) → rows.InWord → columns.InWord → rows.KernelFits → columns.KernelFits → ∀ tensors : Tensors,
        (∀ a, tensors.lookup x.name = some a → a.HasShape image.shape) →
        (∀ a, tensors.lookup w.name = some a → a.HasShape kernel.shape) →
        StaysInside (op.computation.evaluate tensors)) := by
  obtain ⟨image, kernel, size, op, himage, hkernel, hsize, hnodes, houtput, hcomputation⟩ := exists_of_run_conv2d hrun
  obtain ⟨_, _, _, _, _, _, _, hdims, hdims', hstride, hstride', rfl, hrows, hcolumns⟩ :=
    exists_of_convolutionSize? hsize
  refine ⟨image, kernel, op, himage, hkernel, hnodes, houtput, ?_,
    fun hword => WindowDim.windowsInside_iff hword hstride hrows,
    fun hword => WindowDim.windowsInside_iff hword hstride' hcolumns, ?_⟩
  · rw [hcomputation]
    exact Expr.constShape?_ofShape _
  · rintro rfl hword hword' hfits hfits' tensors hx hw
    have hinside := (WindowDim.windowsInside_iff hword hstride hrows).mpr hfits
    have hinside' := (WindowDim.windowsInside_iff hword' hstride' hcolumns).mpr hfits'
    rw [hcomputation, GraphM.asInput, GraphM.asInput]
    rw [hdims, hdims'] at hinside hinside' ⊢
    have hnonneg : 0 ≤ stride.1 ∧ 0 ≤ stride.2 :=
      ⟨Int64.le_trans (by decide) hstride, Int64.le_trans (by decide) hstride'⟩
    exact TensorCompute.staysInside_evaluate_conv2d t hnonneg hinside hinside' (hdims ▸ hx) (hdims' ▸ hw)

theorem windows_of_run_conv2d_rowPairs : ∃ g',
    (GraphM.conv2d 0 1 (2, 1) (0, 0)).run
        (build [.input "image" .float32 [1, 1, 4, 3], .input "kernel" .float32 [1, 1, 2, 3]]) = .ok 2 g' ∧
      WindowDim.WindowsInside ⟨4, 2, 2, 0⟩ ∧ WindowDim.WindowsInside ⟨3, 3, 1, 0⟩ ∧
      ∃ op ∈ g'.nodes, StaysInside (op.computation.evaluate
        [("t0", ⟨[1, 1, 4, 3], Array.replicate 12 1.0⟩), ("t1", ⟨[1, 1, 2, 3], Array.replicate 6 1.0⟩)]) := by
  obtain ⟨image, kernel, op, himage, hkernel, hnodes, -, -, hrows, hcolumns, hinside⟩ := windows_of_run_conv2d
    (show (GraphM.conv2d 0 1 (2, 1) (0, 0)).run
      (build [.input "image" .float32 [1, 1, 4, 3], .input "kernel" .float32 [1, 1, 2, 3]]) = .ok 2 _ from rfl)
  cases himage
  cases hkernel
  have hword : WindowDim.InWord ⟨4, 2, 2, 0⟩ ∧ WindowDim.InWord ⟨3, 3, 1, 0⟩ := by
    refine ⟨⟨?_, ?_, ?_⟩, ?_, ?_, ?_⟩ <;> decide
  have hfits : WindowDim.KernelFits ⟨4, 2, 2, 0⟩ ∧ WindowDim.KernelFits ⟨3, 3, 1, 0⟩ :=
    ⟨Or.inr (by decide), Or.inr (by decide)⟩
  refine ⟨_, rfl, (hrows hword.1).mpr hfits.1, (hcolumns hword.2).mpr hfits.2, op, ?_,
    hinside rfl hword.1 hword.2 hfits.1 hfits.2 _ ?_ ?_⟩
  · rw [hnodes]
    exact List.mem_append_right _ (List.mem_singleton_self op)
  · rintro _ ⟨⟩
    exact ⟨rfl, rfl⟩
  · rintro _ ⟨⟩
    exact ⟨rfl, rfl⟩

/-- A kernel of two rows is accepted on an image of one row with the stride 2, and its second row lies below that. -/
theorem exists_run_conv2d_outside : ∃ g',
    (GraphM.conv2d 0 1 (2, 1) (0, 0)).run
        (build [.input "image" .float32 [1, 1, 1, 1], .input "kernel" .float32 [1, 1, 2, 1]]) = .ok 2 g' ∧
      ¬ WindowDim.WindowsInside ⟨1, 2, 2, 0⟩ ∧
      ∃ op ∈ g'.nodes, op.computation.evaluate [("t0", ⟨[1, 1, 1, 1], #[3.0]⟩), ("t1", ⟨[1, 1, 2, 1], #[1.0, 1.0]⟩)] =
        .error (.eval (.outOfBounds [0, 0, 1, 0] "t0")) := by
  refine ⟨_, rfl, fun hinside => ?_, _, List.mem_cons_self, rfl⟩
  have hlast := (hinside 0 1 (by decide) (by decide) (by decide) (by decide)).2
  revert hlast
  decide

end Graph

end TensorCompiler
