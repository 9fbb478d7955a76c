import TensorCompiler.Proofs.Graph.Convolution
import TensorCompiler.Proofs.Graph.OperandTypes
import TensorCompiler.Proofs.Graph.Totality

/-! # Padding

A convolution with padding takes zero for a tap that lies outside of the image, by a test of its coordinates. It gives the
array that the convolution without padding gives for the images surrounded by zeros: both have the same windows, and at
each tap both multiply the same pixel.
-/

namespace TensorCompiler

/-! ## Images surrounded by zeros -/

namespace NDArray

variable {shape : List Int64} {f : List Nat → Float} {index : List Nat}

/-- The array of a shape with the given element at each index. -/
def tabulate (shape : List Int64) (f : List Nat → Float) : NDArray :=
  ⟨extentsOf shape, ((grid shape).map fun point => f (point.map Int64.toNatClampNeg)).toArray⟩

theorem get?_tabulate (h : InShape (extentsOf shape) index) : (tabulate shape f).get? index = some (f index) := by
  obtain ⟨k, hk⟩ := h.exists_position?
  rw [get?, tabulate, hk, Option.bind_some, List.getElem?_toArray, List.getElem?_map, getElem?_grid hk, Option.map_some,
    map_toNatClampNeg_map_ofNat h.lt_word]

/-- The pixels of images that are surrounded by zeros. -/
def paddedPixel (a : NDArray) (height width rows columns : Nat) : List Nat → Float
  | [b, c, i, j] =>
    if rows ≤ i ∧ i < rows + height ∧ columns ≤ j ∧ j < columns + width then
      (a.get? [b, c, i - rows, j - columns]).getD 0.0
    else 0.0
  | _ => 0.0

end NDArray

/-- The shape of images of a shape that are surrounded by `padding` pixels on each side of their rows and columns. -/
def paddedShape (image : List Int64) (padding : Int64 × Int64) : List Int64 :=
  match image with
  | [batch, channels, height, width] => [batch, channels, height + 2 * padding.1, width + 2 * padding.2]
  | other => other

/-- Images of a shape, surrounded by zeros. -/
def NDArray.zeroPad (a : NDArray) (image : List Int64) (padding : Int64 × Int64) : NDArray :=
  tabulate (paddedShape image padding)
    (a.paddedPixel (image.getD 2 0).toNatClampNeg (image.getD 3 0).toNatClampNeg padding.1.toNatClampNeg
      padding.2.toNatClampNeg)

example : NDArray.zeroPad ⟨[1, 1, 1, 2], #[1.0, 2.0]⟩ [1, 1, 1, 2] (1, 0) =
    ⟨[1, 1, 3, 2], #[0.0, 0.0, 1.0, 2.0, 0.0, 0.0]⟩ := by rfl

/-! ## One dimension -/

namespace WindowDim

/-- The same windows in the image that is surrounded by its padding. -/
def padded (dim : WindowDim) : WindowDim :=
  ⟨dim.image + 2 * dim.padding, dim.kernel, dim.stride, 0⟩

/-- Whether a kernel fits into the padded image, and all numbers are within the word. -/
structure Fits (dim : WindowDim) : Prop where
  image : 0 ≤ dim.image
  kernel : 0 ≤ dim.kernel
  stride : 1 ≤ dim.stride
  padding : 0 ≤ dim.padding
  kernel_le : dim.kernel.toInt ≤ dim.paddedExtent
  inWord : dim.paddedExtent + 1 < 2 ^ 63

variable {dim : WindowDim}

theorem count_padded (dim : WindowDim) : dim.padded.count = dim.count := by
  simp [count, padded, windowCount]

namespace Fits

theorem toInt_image_padded (h : dim.Fits) : dim.padded.image.toInt = dim.paddedExtent := by
  have hsum : dim.padded.image = Int64.ofInt dim.paddedExtent := by
    rw [paddedExtent, Int64.ofInt_add, Int64.ofInt_mul, Int64.ofInt_toInt, Int64.ofInt_toInt]
    rfl
  have himage := Int64.le_iff_toInt_le.mp h.image
  have hpadding := Int64.le_iff_toInt_le.mp h.padding
  have hword := h.inWord
  rw [Int64.toInt_zero] at himage hpadding
  rw [hsum, Int64.toInt_ofInt_of_le]
  · rw [paddedExtent]
    omega
  · omega

theorem padded (h : dim.Fits) : dim.padded.Fits := by
  have hextent : dim.padded.paddedExtent = dim.paddedExtent := by
    rw [paddedExtent, h.toInt_image_padded]
    change _ + 2 * (0 : Int64).toInt = _
    rw [Int64.toInt_zero]
    omega
  have hnonneg : 0 ≤ dim.paddedExtent := Int.le_trans (Int64.le_iff_toInt_le.mp h.kernel) h.kernel_le
  refine ⟨?_, h.kernel, h.stride, Int64.le_refl 0, ?_, ?_⟩
  · rw [Int64.le_iff_toInt_le, h.toInt_image_padded]
    exact hnonneg
  · rw [hextent]
    exact h.kernel_le
  · rw [hextent]
    exact h.inWord

theorem inWord_count (h : dim.Fits) : dim.InWord := by
  have hkernel := Int64.le_iff_toInt_le.mp h.kernel
  have hle := h.kernel_le
  have hword := h.inWord
  rw [Int64.toInt_zero] at hkernel
  refine ⟨by omega, by omega, ?_⟩
  have hquotient := Int.tdiv_le_self dim.stride.toInt (a := dim.paddedExtent - dim.kernel.toInt) (by omega)
  omega

theorem one_le_count (h : dim.Fits) : 1 ≤ dim.count := by
  have hstride := Int64.le_iff_toInt_le.mp h.stride
  have hle := h.kernel_le
  rw [Int64.toInt_one] at hstride
  have hquotient : 0 ≤ (dim.paddedExtent - dim.kernel.toInt).tdiv dim.stride.toInt :=
    Int.tdiv_nonneg (by omega) (by omega)
  rw [Int64.le_iff_toInt_le, Int64.toInt_one, toInt_count h.inWord_count (by omega)]
  omega

/-- Each tap of each window lies in the padded image. -/
theorem lt_image_padded (h : dim.Fits) {i k : Nat} (hi : i < dim.count.toNatClampNeg)
    (hk : k < dim.kernel.toNatClampNeg) :
    i * dim.stride.toNatClampNeg + k < dim.padded.image.toNatClampNeg := by
  have hinside : dim.padded.WindowsInside :=
    (windowsInside_iff h.padded.inWord_count h.padded.stride h.padded.one_le_count).mpr (Or.inr h.padded.kernel_le)
  refine WindowsInside.lt_image hinside (Int64.le_trans (by decide) h.stride) ?_ hk
  exact (count_padded dim).symm ▸ hi

/-- The coordinate of a pixel of the padded image, as it is tested. -/
theorem coordinate (h : dim.Fits) {r : Nat} (hr : r < dim.padded.image.toNatClampNeg) :
    (0 ≤ Int64.ofNat r - dim.padding ↔ dim.padding.toNatClampNeg ≤ r) ∧
      (Int64.ofNat r - dim.padding < dim.image ↔
        r < dim.padding.toNatClampNeg + dim.image.toNatClampNeg) ∧
      (dim.padding.toNatClampNeg ≤ r → Int64.ofNat r - dim.padding = Int64.ofNat (r - dim.padding.toNatClampNeg)) := by
  have hpadding := coe_toNatClampNeg h.padding
  have himage := coe_toNatClampNeg h.image
  have hextent := coe_toNatClampNeg h.padded.image
  rw [h.toInt_image_padded] at hextent
  have hword := h.inWord
  have hdifference : Int64.ofNat r - dim.padding = Int64.ofInt ((r : Int) - dim.padding.toInt) := by
    rw [Int64.ofInt_sub, Int64.ofInt_toInt]
    rfl
  have htoInt : (Int64.ofNat r - dim.padding).toInt = (r : Int) - dim.padding.toInt := by
    have hgreatest := dim.padding.toInt_lt
    rw [hdifference, Int64.toInt_ofInt_of_le] <;> omega
  rw [Int64.le_iff_toInt_le, Int64.lt_iff_toInt_lt, htoInt, Int64.toInt_zero]
  refine ⟨by omega, by omega, fun hle => ?_⟩
  rw [hdifference, ← hpadding, ← Int.ofNat_sub hle]
  rfl

end Fits

end WindowDim

/-- Operands of a convolution whose kernel fits are accepted. -/
theorem convolutionSize?_eq (batch channels filters : Int64) {height width kernelHeight kernelWidth : Int64}
    {stride padding : Int64 × Int64} (hrows : WindowDim.Fits ⟨height, kernelHeight, stride.1, padding.1⟩)
    (hcolumns : WindowDim.Fits ⟨width, kernelWidth, stride.2, padding.2⟩) :
    convolutionSize? [batch, channels, height, width] [filters, channels, kernelHeight, kernelWidth] stride padding =
      some (WindowDim.count ⟨height, kernelHeight, stride.1, padding.1⟩,
        WindowDim.count ⟨width, kernelWidth, stride.2, padding.2⟩) := by
  have hstride := hrows.stride
  have hstride' := hcolumns.stride
  have hpadding := hrows.padding
  have hpadding' := hcolumns.padding
  have hcount := hrows.one_le_count
  have hcount' := hcolumns.one_le_count
  simp only [WindowDim.count] at hcount hcount'
  rw [convolutionSize?, if_neg, if_neg]
  · rfl
  · simp only [not_or, Int64.not_lt]
    exact ⟨hcount, hcount'⟩
  · simp only [not_or, Int64.not_lt, not_not]
    exact ⟨trivial, hstride, hstride', hpadding, hpadding'⟩

/-! ## Pixels -/

section

variable [FloatOps] {V : Tensors} {env : Env}

theorem BinaryOp.eval?_le_int (a b : Int64) : BinaryOp.le.eval? (.int a) (.int b) = some (.bool (a ≤ b)) := by
  have hcompare : (compare a b != .gt) = decide (a ≤ b) := by
    rw [Bool.eq_iff_iff, bne_iff_ne, decide_eq_true_iff, ← Std.isLE_compare, Ordering.isLE_iff_ne_gt]
  simp only [BinaryOp.eval?, Value.compare?, Value.discrete?, Option.map_some, hcompare]

theorem BinaryOp.eval?_lt_int (a b : Int64) : BinaryOp.lt.eval? (.int a) (.int b) = some (.bool (a < b)) := by
  have hcompare : (compare a b == .lt) = decide (a < b) := by
    rw [Bool.eq_iff_iff, beq_iff_eq, decide_eq_true_iff, Std.compare_eq_lt]
  simp only [BinaryOp.eval?, Value.compare?, Value.discrete?, Option.map_some, hcompare]

/-- The test of a pixel is that of its coordinates. -/
theorem eval_insideImage {row column : Expr} {r q : Int64} (height width : Int64)
    (hrow : row.eval V env = .ok (.int r)) (hcolumn : column.eval V env = .ok (.int q)) :
    (TensorCompute.insideImage row column height width).eval V env =
      .ok (.bool (0 ≤ r ∧ r < height ∧ 0 ≤ q ∧ q < width)) := by
  have hle {e : Expr} {n : Int64} (he : e.eval V env = .ok (.int n)) :
      ((Expr.int 0).le e).eval V env = .ok (.bool (0 ≤ n)) :=
    Expr.eval_binary_eq_ok_iff.mpr ⟨_, _, Expr.eval_const _ _ _ _, he, BinaryOp.eval?_le_int 0 n⟩
  have hlt {e : Expr} {n : Int64} (he : e.eval V env = .ok (.int n)) (m : Int64) :
      (e.lt (Expr.int m)).eval V env = .ok (.bool (n < m)) :=
    Expr.eval_binary_eq_ok_iff.mpr ⟨_, _, he, Expr.eval_const _ _ _ _, BinaryOp.eval?_lt_int n m⟩
  have hand {e e' : Expr} {p p' : Bool} (he : e.eval V env = .ok (.bool p)) (he' : e'.eval V env = .ok (.bool p')) :
      (e.and e').eval V env = .ok (.bool (p && p')) := Expr.eval_binary_eq_ok_iff.mpr ⟨_, _, he, he', rfl⟩
  have htest := hand (hand (hand (hle hrow) (hlt hrow height)) (hle hcolumn)) (hlt hcolumn width)
  rw [TensorCompute.insideImage]
  simpa only [Bool.decide_and, Bool.and_assoc] using htest

/-- The pixel of a convolution with padding is that of the images surrounded by zeros. -/
theorem exists_pixel {V₀ : Tensors} {env₀ : Env} {x x₀ : TensorId} {d d₀ : DType} {a : NDArray}
    {batch channels height width kernelHeight kernelWidth : Int64} {stride padding : Int64 × Int64}
    (hd : d.isFloat) (hd₀ : d₀.isFloat)
    (hrows : WindowDim.Fits ⟨height, kernelHeight, stride.1, padding.1⟩)
    (hcolumns : WindowDim.Fits ⟨width, kernelWidth, stride.2, padding.2⟩)
    (ha : V.lookup x.name = some a) (hshape : a.HasShape [batch, channels, height, width])
    (ha₀ : V₀.lookup x₀.name = some (a.zeroPad [batch, channels, height, width] padding))
    {e e₀ c c₀ row row₀ column column₀ : Expr} {b k r q : Nat}
    (hinside : InShape (extentsOf (paddedShape [batch, channels, height, width] padding)) [b, k, r, q])
    (he : e.eval V env = .ok (.int (Int64.ofNat b))) (hc : c.eval V env = .ok (.int (Int64.ofNat k)))
    (hrow : row.eval V env = .ok (.int (Int64.ofNat r - padding.1)))
    (hcolumn : column.eval V env = .ok (.int (Int64.ofNat q - padding.2)))
    (hindex₀ : Expr.HaveIndex V₀ env₀ [e₀, c₀, row₀, column₀] [b, k, r, q]) :
    ∃ y,
      (if padding = (0, 0) then (TensorInput.ofShape x.name d [batch, channels, height, width]).elementAt [e, c, row, column]
        else .ite (TensorCompute.insideImage row column height width)
          ((TensorInput.ofShape x.name d [batch, channels, height, width]).elementAt [e, c, row, column])
          (Expr.zero d)).eval V env = .ok (.float y) ∧
      ((TensorInput.ofShape x₀.name d₀ (paddedShape [batch, channels, height, width] padding)).elementAt
        [e₀, c₀, row₀, column₀]).eval V₀ env₀ = .ok (.float y) := by
  obtain ⟨-, -, hb, h₁, ⟨⟩⟩ := List.forall₂_cons_left_iff.mp hinside
  obtain ⟨-, -, hk, h₂, ⟨⟩⟩ := List.forall₂_cons_left_iff.mp h₁
  obtain ⟨-, -, hr, h₃, ⟨⟩⟩ := List.forall₂_cons_left_iff.mp h₂
  obtain ⟨-, -, hq, -, ⟨⟩⟩ := List.forall₂_cons_left_iff.mp h₃
  obtain ⟨hlower, hupper, hback⟩ := hrows.coordinate hr
  obtain ⟨hlower', hupper', hback'⟩ := hcolumns.coordinate hq
  have hpadded := Expr.eval_elementAt (paddedShape [batch, channels, height, width] padding) hd₀ ha₀
    (NDArray.get?_tabulate hinside) hindex₀ hinside
  by_cases hpixel : padding.1.toNatClampNeg ≤ r ∧ r < padding.1.toNatClampNeg + height.toNatClampNeg ∧
    padding.2.toNatClampNeg ≤ q ∧ q < padding.2.toNatClampNeg + width.toNatClampNeg
  · have hinner : InShape (extentsOf [batch, channels, height, width])
        [b, k, r - padding.1.toNatClampNeg, q - padding.2.toNatClampNeg] :=
      .cons hb (.cons hk (.cons (by omega) (.cons (by omega) .nil)))
    obtain ⟨y, hy⟩ := hshape.exists_get? hinner
    have hread := Expr.eval_elementAt [batch, channels, height, width] hd ha hy
      (.cons he (.cons hc (.cons (hback hpixel.1 ▸ hrow) (.cons (hback' hpixel.2.2.1 ▸ hcolumn) .nil)))) hinner
    have hsame : a.paddedPixel height.toNatClampNeg width.toNatClampNeg padding.1.toNatClampNeg padding.2.toNatClampNeg
        [b, k, r, q] = y := by
      rw [NDArray.paddedPixel, if_pos hpixel, hy]
      rfl
    refine ⟨y, ?_, hsame ▸ hpadded⟩
    split_ifs with hzero
    · exact hread
    · refine Expr.eval_ite_eq_ok_iff.mpr ⟨_, eval_insideImage height width hrow hcolumn, ?_⟩
      rw [Value.truthy, if_pos]
      · exact hread
      · exact decide_eq_true ⟨hlower.mpr hpixel.1, hupper.mpr hpixel.2.1, hlower'.mpr hpixel.2.2.1,
          hupper'.mpr hpixel.2.2.2⟩
  · have hsame : a.paddedPixel height.toNatClampNeg width.toNatClampNeg padding.1.toNatClampNeg padding.2.toNatClampNeg
        [b, k, r, q] = 0.0 := if_neg hpixel
    have hzero : padding ≠ (0, 0) := by
      rintro rfl
      have hheight : (WindowDim.padded ⟨height, kernelHeight, stride.1, 0⟩).image = height := by simp [WindowDim.padded]
      have hwidth : (WindowDim.padded ⟨width, kernelWidth, stride.2, 0⟩).image = width := by simp [WindowDim.padded]
      refine hpixel ⟨Nat.zero_le _, ?_, Nat.zero_le _, ?_⟩
      · exact (Nat.zero_add _).symm ▸ hheight ▸ hr
      · exact (Nat.zero_add _).symm ▸ hwidth ▸ hq
    refine ⟨0.0, ?_, hsame ▸ hpadded⟩
    rw [if_neg hzero]
    refine Expr.eval_ite_eq_ok_iff.mpr ⟨_, eval_insideImage height width hrow hcolumn, ?_⟩
    rw [Value.truthy, if_neg]
    · exact Expr.eval_literal_zero hd
    · rw [decide_eq_true_iff]
      rintro ⟨h₁, h₂, h₃, h₄⟩
      exact hpixel ⟨hlower.mp h₁, hupper.mp h₂, hlower'.mp h₃, hupper'.mp h₄⟩

/-! ## Taps -/

/-- The value of an axis is the coordinate at its place. -/
theorem Expr.HaveIndex.eval_axis {name : String} {rank : Nat} {index : List Nat}
    (h : Expr.HaveIndex V env ((axisVars name rank).map .var) index) {k n : Nat} (hk : index[k]? = some n) :
    (Expr.var (Var.axis name k)).eval V env = .ok (.int (Int64.ofNat n)) := by
  obtain ⟨hlt, rfl⟩ := List.getElem?_eq_some_iff.mp hk
  have hvalue := h.get (h.length_eq ▸ hlt) hlt
  simpa [axisVars] using hvalue

namespace TensorCompute

/-- What a convolution adds up for a tap: the pixel, or zero outside of the image, by the weight. -/
def convolutionTap (x w : TensorInput) (dtype : DType) (image : List Int64) (stride padding : Int64 × Int64)
    (out : String) : Expr :=
  let axis (k : Nat) : Expr := .var (Var.axis (axisName out) k)
  let tap (k : Nat) : Expr := .var (Var.axis (reductionAxisName out) k)
  let row := tapCoordinate (axis 2) (tap 1) stride.1 padding.1
  let column := tapCoordinate (axis 3) (tap 2) stride.2 padding.2
  let read := x.elementAt [axis 0, tap 0, row, column]
  (if padding = (0, 0) then read
    else .ite (insideImage row column (image.getD 2 0) (image.getD 3 0)) read (Expr.zero dtype)) *
    w.elementAt [axis 1, tap 0, tap 1, tap 2]

omit [FloatOps] in
theorem conv2d_eq_define (x w : TensorInput) (dtype : DType) (image kernel : List Int64)
    (stride padding : Int64 × Int64) (height width : Int64) (out : String) :
    conv2d x w dtype image kernel stride padding height width out =
      define out [image.getD 0 0, kernel.getD 0 0, height, width] (axisName out) fun _ =>
        Expr.reduceOver (kernel.drop 1) (reductionAxisName out) .sum fun _ =>
          convolutionTap x w dtype image stride padding out := rfl

variable {V₀ : Tensors} {env₀ : Env} {x w x₀ w₀ : TensorId} {d d₀ : DType} {a weights : NDArray}
  {batch channels height width filters kernelHeight kernelWidth : Int64} {stride padding : Int64 × Int64}

/-- At each tap of each window a convolution with padding adds up what the one without padding does for the images
surrounded by zeros. -/
theorem exists_convolutionTap (hd : d.isFloat) (hd₀ : d₀.isFloat)
    (hrows : WindowDim.Fits ⟨height, kernelHeight, stride.1, padding.1⟩)
    (hcolumns : WindowDim.Fits ⟨width, kernelWidth, stride.2, padding.2⟩)
    (ha : V.lookup x.name = some a) (hshape : a.HasShape [batch, channels, height, width])
    (ha₀ : V₀.lookup x₀.name = some (a.zeroPad [batch, channels, height, width] padding))
    (hw : V.lookup w.name = some weights) (hw₀ : V₀.lookup w₀.name = some weights)
    (hkernel : weights.HasShape [filters, channels, kernelHeight, kernelWidth])
    {id id₀ : TensorId} {index tap : List Nat}
    (hindex : InShape (extentsOf [batch, filters, WindowDim.count ⟨height, kernelHeight, stride.1, padding.1⟩,
      WindowDim.count ⟨width, kernelWidth, stride.2, padding.2⟩]) index)
    (htap : InShape (extentsOf [channels, kernelHeight, kernelWidth]) tap)
    (haxes : Expr.HaveIndex V env ((axisVars (axisName id.name) 4).map .var) index)
    (htaps : Expr.HaveIndex V env ((axisVars (reductionAxisName id.name) 3).map .var) tap)
    (haxes₀ : Expr.HaveIndex V₀ env₀ ((axisVars (axisName id₀.name) 4).map .var) index)
    (htaps₀ : Expr.HaveIndex V₀ env₀ ((axisVars (reductionAxisName id₀.name) 3).map .var) tap) :
    ∃ y,
      (convolutionTap (.ofShape x.name d [batch, channels, height, width])
        (.ofShape w.name d [filters, channels, kernelHeight, kernelWidth]) d [batch, channels, height, width] stride
        padding id.name).eval V env = .ok (.float y) ∧
      (convolutionTap (.ofShape x₀.name d₀ (paddedShape [batch, channels, height, width] padding))
        (.ofShape w₀.name d₀ [filters, channels, kernelHeight, kernelWidth]) d₀
        (paddedShape [batch, channels, height, width] padding) stride (0, 0) id₀.name).eval V₀ env₀ =
          .ok (.float y) := by
  obtain ⟨b, _, hb, h₁, rfl⟩ := List.forall₂_cons_right_iff.mp hindex
  obtain ⟨f, _, hf, h₂, rfl⟩ := List.forall₂_cons_right_iff.mp h₁
  obtain ⟨i, _, hi, h₃, rfl⟩ := List.forall₂_cons_right_iff.mp h₂
  obtain ⟨j, _, hj, h₄, rfl⟩ := List.forall₂_cons_right_iff.mp h₃
  obtain rfl := List.forall₂_nil_right_iff.mp h₄
  obtain ⟨k, _, hk, h₅, rfl⟩ := List.forall₂_cons_right_iff.mp htap
  obtain ⟨u, _, hu, h₆, rfl⟩ := List.forall₂_cons_right_iff.mp h₅
  obtain ⟨v, _, hv, h₇, rfl⟩ := List.forall₂_cons_right_iff.mp h₆
  obtain rfl := List.forall₂_nil_right_iff.mp h₇
  have hstride : 0 ≤ stride.1 ∧ 0 ≤ stride.2 :=
    ⟨Int64.le_trans (by decide) hrows.stride, Int64.le_trans (by decide) hcolumns.stride⟩
  -- the place of the tap in the padded image
  have hinside : InShape (extentsOf (paddedShape [batch, channels, height, width] padding))
      [b, k, i * stride.1.toNatClampNeg + u, j * stride.2.toNatClampNeg + v] :=
    .cons hb (.cons hk (.cons (hrows.lt_image_padded hi hu) (.cons (hcolumns.lt_image_padded hj hv) .nil)))
  have hplace₀ : Expr.HaveIndex V₀ env₀
      [.var (Var.axis (axisName id₀.name) 0), .var (Var.axis (reductionAxisName id₀.name) 0),
        tapCoordinate (.var (Var.axis (axisName id₀.name) 2)) (.var (Var.axis (reductionAxisName id₀.name) 1)) stride.1 0,
        tapCoordinate (.var (Var.axis (axisName id₀.name) 3)) (.var (Var.axis (reductionAxisName id₀.name) 2)) stride.2 0]
      [b, k, i * stride.1.toNatClampNeg + u, j * stride.2.toNatClampNeg + v] :=
    .cons (haxes₀.eval_axis rfl) (.cons (htaps₀.eval_axis rfl)
      (.cons (eval_tapCoordinate hstride.1 (haxes₀.eval_axis rfl) (htaps₀.eval_axis rfl))
        (.cons (eval_tapCoordinate hstride.2 (haxes₀.eval_axis rfl) (htaps₀.eval_axis rfl)) .nil)))
  obtain ⟨y, hpixel, hpixel₀⟩ := exists_pixel hd hd₀ hrows hcolumns ha hshape ha₀ hinside
    (haxes.eval_axis (k := 0) rfl) (htaps.eval_axis (k := 0) rfl)
    (eval_tapCoordinate_eq hstride.1 padding.1 (haxes.eval_axis (k := 2) rfl) (htaps.eval_axis (k := 1) rfl))
    (eval_tapCoordinate_eq hstride.2 padding.2 (haxes.eval_axis (k := 3) rfl) (htaps.eval_axis (k := 2) rfl)) hplace₀
  have hweight : InShape (extentsOf [filters, channels, kernelHeight, kernelWidth]) [f, k, u, v] := .cons hf htap
  obtain ⟨z, hz⟩ := hkernel.exists_get? hweight
  have hread := Expr.eval_elementAt [filters, channels, kernelHeight, kernelWidth] hd hw hz
    (.cons (haxes.eval_axis (k := 1) rfl) htaps) hweight
  have hread₀ := Expr.eval_elementAt [filters, channels, kernelHeight, kernelWidth] hd₀ hw₀ hz
    (.cons (haxes₀.eval_axis (k := 1) rfl) htaps₀) hweight
  exact ⟨FloatOps.mul y z, Expr.eval_binary_eq_ok_iff.mpr ⟨_, _, hpixel, hread, rfl⟩,
    Expr.eval_binary_eq_ok_iff.mpr ⟨_, _, hpixel₀, hread₀, rfl⟩⟩

/-- The definition of a convolution with padding gives what the one without padding gives for the images surrounded by
zeros. -/
theorem exists_evaluate_conv2d (hd : d.isFloat) (hd₀ : d₀.isFloat) (id id₀ : TensorId)
    (hextents : ∀ n ∈ [batch, filters], 0 ≤ n)
    (hrows : WindowDim.Fits ⟨height, kernelHeight, stride.1, padding.1⟩)
    (hcolumns : WindowDim.Fits ⟨width, kernelWidth, stride.2, padding.2⟩)
    (ha : V.lookup x.name = some a) (hshape : a.HasShape [batch, channels, height, width])
    (ha₀ : V₀.lookup x₀.name = some (a.zeroPad [batch, channels, height, width] padding))
    (hw : V.lookup w.name = some weights) (hw₀ : V₀.lookup w₀.name = some weights)
    (hkernel : weights.HasShape [filters, channels, kernelHeight, kernelWidth]) :
    ∃ out,
      (conv2d (.ofShape x.name d [batch, channels, height, width])
        (.ofShape w.name d [filters, channels, kernelHeight, kernelWidth]) d [batch, channels, height, width]
        [filters, channels, kernelHeight, kernelWidth] stride padding
        (WindowDim.count ⟨height, kernelHeight, stride.1, padding.1⟩)
        (WindowDim.count ⟨width, kernelWidth, stride.2, padding.2⟩) id.name).evaluate V = .ok out ∧
      (conv2d (.ofShape x₀.name d₀ (paddedShape [batch, channels, height, width] padding))
        (.ofShape w₀.name d₀ [filters, channels, kernelHeight, kernelWidth]) d₀
        (paddedShape [batch, channels, height, width] padding) [filters, channels, kernelHeight, kernelWidth] stride (0, 0)
        (WindowDim.count ⟨height, kernelHeight, stride.1, padding.1⟩)
        (WindowDim.count ⟨width, kernelWidth, stride.2, padding.2⟩) id₀.name).evaluate V₀ = .ok out := by
  have hnonneg : ∀ n ∈ [batch, filters, WindowDim.count ⟨height, kernelHeight, stride.1, padding.1⟩,
      WindowDim.count ⟨width, kernelWidth, stride.2, padding.2⟩], 0 ≤ n := by
    simp only [List.forall_mem_cons, List.not_mem_nil, false_implies, implies_true, and_true] at hextents ⊢
    exact ⟨hextents.1, hextents.2, Int64.le_trans (by decide) hrows.one_le_count,
      Int64.le_trans (by decide) hcolumns.one_le_count⟩
  rw [conv2d_eq_define, conv2d_eq_define]
  refine exists_evaluate_of_agree (Expr.constShape?_ofShape _) (Expr.constShape?_ofShape _) hnonneg
    fun point hpoint => Expr.exists_eval_reduce_of_agree fun offset hoffset => ?_
  rw [points_eq_grid] at hpoint hoffset
  obtain ⟨index, hindex, rfl⟩ := exists_inShape_of_mem_grid hpoint
  obtain ⟨tap, htap, rfl⟩ := exists_inShape_of_mem_grid hoffset
  have hrank : index.length = 4 := hindex.length_eq
  have hrank' : tap.length = 3 := htap.length_eq
  exact exists_convolutionTap hd hd₀ hrows hcolumns ha hshape ha₀ hw hw₀ hkernel hindex htap
    ((Expr.haveIndex_bind V [] _ hrank).bind_reductionAxes _ _) (Expr.haveIndex_bind V _ _ hrank')
    ((Expr.haveIndex_bind V₀ [] _ hrank).bind_reductionAxes _ _) (Expr.haveIndex_bind V₀ _ _ hrank')

end TensorCompute

end

/-! ## Convolutions in graphs -/

/-- The taps of operands of one element type have that type. -/
theorem TensorCompute.hasDType_convolutionTap (x w : String) (d : DType) (image image' kernel : List Int64)
    (stride padding : Int64 × Int64) (out : String) :
    (convolutionTap (.ofShape x d image) (.ofShape w d kernel) d image' stride padding out).HasDType d := by
  refine Expr.HasDType.binary .mul ?_ (Expr.hasDType_elementAt _ _ _ _)
  split_ifs
  · exact Expr.hasDType_elementAt _ _ _ _
  · exact Expr.HasDType.ite (Expr.hasDType_elementAt _ _ _ _) (Expr.hasDType_literal _ _)

namespace Graph

variable {g g₀ : Graph} {x w x₀ w₀ : TensorId} {d d₀ : DType}
  {batch channels height width filters kernelHeight kernelWidth : Int64} {stride padding : Int64 × Int64}

/-- A convolution whose kernel fits is appended to a graph that has its operands, of one element type. -/
theorem exists_run_conv2d (hx : g.tensors.type? x = some (d, [batch, channels, height, width]))
    (hw : g.tensors.type? w = some (d, [filters, channels, kernelHeight, kernelWidth]))
    (hrows : WindowDim.Fits ⟨height, kernelHeight, stride.1, padding.1⟩)
    (hcolumns : WindowDim.Fits ⟨width, kernelWidth, stride.2, padding.2⟩) :
    ∃ g' op, (GraphM.conv2d x w stride padding).run g = .ok op.output g' ∧ g'.nodes = g.nodes ++ [op] ∧
      op.computation = TensorCompute.conv2d (.ofShape x.name d [batch, channels, height, width])
        (.ofShape w.name d [filters, channels, kernelHeight, kernelWidth]) d [batch, channels, height, width]
        [filters, channels, kernelHeight, kernelWidth] stride padding
        (WindowDim.count ⟨height, kernelHeight, stride.1, padding.1⟩)
        (WindowDim.count ⟨width, kernelWidth, stride.2, padding.2⟩) op.output.name := by
  obtain ⟨source, himage⟩ := TensorTable.type?_eq_some_iff.mp hx
  obtain ⟨source', hkernel⟩ := TensorTable.type?_eq_some_iff.mp hw
  rw [← tensor_eq_ok_iff] at himage hkernel
  have hsize := convolutionSize?_eq batch channels filters hrows hcolumns
  have hinputs : ∀ id ∈ [x, w], ∃ info, g.tensor id = .ok info := by
    intro id hid
    rcases List.mem_pair.mp hid with rfl | rfl
    · exact ⟨_, himage⟩
    · exact ⟨_, hkernel⟩
  have hrank (a b c d : Int64) : expectRank "conv2d" [a, b, c, d] 4 = .ok () := rfl
  obtain ⟨op, happended⟩ := @GraphM.run_addOperator_of_hasDType g (.conv2d stride padding) [x, w] _ d
    (TensorCompute.conv2d (.ofShape x.name d [batch, channels, height, width])
      (.ofShape w.name d [filters, channels, kernelHeight, kernelWidth]) d [batch, channels, height, width]
      [filters, channels, kernelHeight, kernelWidth] stride padding
      (WindowDim.count ⟨height, kernelHeight, stride.1, padding.1⟩)
      (WindowDim.count ⟨width, kernelWidth, stride.2, padding.2⟩)) hinputs (Expr.constShape?_ofShape _)
    (TensorCompute.hasDType_convolutionTap x.name w.name d _ _ _ stride padding _)
  obtain ⟨t, g', hrun⟩ : ∃ t g', (GraphM.conv2d x w stride padding).run g = .ok t g' := by
    simp only [GraphM.conv2d, GraphM.run_tensor_bind, himage, hkernel, GraphM.run_ofExcept_bind, hrank, hsize]
    exact ⟨_, _, happended⟩
  obtain ⟨image', kernel', size, op', himage', hkernel', hsize', hnodes, houtput, hcomputation⟩ :=
    exists_of_run_conv2d hrun
  cases himage.symm.trans himage'
  cases hkernel.symm.trans hkernel'
  cases hsize.symm.trans hsize'
  rw [← houtput] at hrun hcomputation
  exact ⟨_, op', hrun, hnodes, hcomputation⟩

/-- Padding is a convolution of images that are surrounded by zeros: where the kernel fits, a convolution with padding and
the one without padding of the surrounded images are both appended, and evaluate to the same array. -/
theorem conv2d_eq_conv2d_zeroPad [FloatOps] (hd : d.isFloat) (hd₀ : d₀.isFloat)
    (hx : g.tensors.type? x = some (d, [batch, channels, height, width]))
    (hw : g.tensors.type? w = some (d, [filters, channels, kernelHeight, kernelWidth]))
    (hx₀ : g₀.tensors.type? x₀ = some (d₀, paddedShape [batch, channels, height, width] padding))
    (hw₀ : g₀.tensors.type? w₀ = some (d₀, [filters, channels, kernelHeight, kernelWidth]))
    (hextents : ∀ n ∈ [batch, filters], 0 ≤ n)
    (hrows : WindowDim.Fits ⟨height, kernelHeight, stride.1, padding.1⟩)
    (hcolumns : WindowDim.Fits ⟨width, kernelWidth, stride.2, padding.2⟩) :
    ∃ g' op g₀' op₀,
      (GraphM.conv2d x w stride padding).run g = .ok op.output g' ∧ g'.nodes = g.nodes ++ [op] ∧
      (GraphM.conv2d x₀ w₀ stride (0, 0)).run g₀ = .ok op₀.output g₀' ∧ g₀'.nodes = g₀.nodes ++ [op₀] ∧
      ∀ (V V₀ : Tensors) (images weights : NDArray),
        images.HasShape [batch, channels, height, width] →
        weights.HasShape [filters, channels, kernelHeight, kernelWidth] →
        V.lookup x.name = some images → V.lookup w.name = some weights →
        V₀.lookup x₀.name = some (images.zeroPad [batch, channels, height, width] padding) →
        V₀.lookup w₀.name = some weights →
        ∃ out, op.computation.evaluate V = .ok out ∧ op₀.computation.evaluate V₀ = .ok out := by
  have hrows₀ : WindowDim.Fits ⟨height + 2 * padding.1, kernelHeight, stride.1, ((0, 0) : Int64 × Int64).1⟩ := hrows.padded
  have hcolumns₀ : WindowDim.Fits ⟨width + 2 * padding.2, kernelWidth, stride.2, ((0, 0) : Int64 × Int64).2⟩ :=
    hcolumns.padded
  have hcount : WindowDim.count ⟨height + 2 * padding.1, kernelHeight, stride.1, ((0, 0) : Int64 × Int64).1⟩ =
      WindowDim.count ⟨height, kernelHeight, stride.1, padding.1⟩ :=
    WindowDim.count_padded ⟨height, kernelHeight, stride.1, padding.1⟩
  have hcount' : WindowDim.count ⟨width + 2 * padding.2, kernelWidth, stride.2, ((0, 0) : Int64 × Int64).2⟩ =
      WindowDim.count ⟨width, kernelWidth, stride.2, padding.2⟩ :=
    WindowDim.count_padded ⟨width, kernelWidth, stride.2, padding.2⟩
  obtain ⟨g', op, hrun, hnodes, hcomputation⟩ := exists_run_conv2d hx hw hrows hcolumns
  obtain ⟨g₀', op₀, hrun₀, hnodes₀, hcomputation₀⟩ := exists_run_conv2d hx₀ hw₀ hrows₀ hcolumns₀
  refine ⟨g', op, g₀', op₀, hrun, hnodes, hrun₀, hnodes₀, fun V V₀ images weights hshape hkernel ha hb ha₀ hb₀ => ?_⟩
  rw [hcomputation, hcomputation₀, hcount, hcount']
  exact TensorCompute.exists_evaluate_conv2d hd hd₀ _ _ hextents hrows hcolumns ha hshape ha₀ hb hb₀ hkernel

theorem conv2d_eq_conv2d_zeroPad_wholeImage :
    let images : NDArray := ⟨[1, 1, 2, 2], #[1.0, 2.0, 3.0, 4.0]⟩
    let weights : NDArray := ⟨[1, 1, 3, 3], Array.replicate 9 1.0⟩
    ∃ (g' : Graph) (op : Operator) (g₀' : Graph) (op₀ : Operator),
      (GraphM.conv2d 0 1 (1, 1) (1, 1)).run
        (build [.input "image" .float32 [1, 1, 2, 2], .input "kernel" .float32 [1, 1, 3, 3]]) = .ok op.output g' ∧
      (GraphM.conv2d 0 1 (1, 1) (0, 0)).run
        (build [.input "image" .float32 [1, 1, 4, 4], .input "kernel" .float32 [1, 1, 3, 3]]) = .ok op₀.output g₀' ∧
      ∃ out, op.computation.evaluate [("t0", images), ("t1", weights)] = .ok out ∧
        op₀.computation.evaluate [("t0", images.zeroPad [1, 1, 2, 2] (1, 1)), ("t1", weights)] = .ok out := by
  have hfits : WindowDim.Fits ⟨2, 3, 1, 1⟩ := ⟨by decide, by decide, by decide, by decide, by decide, by decide⟩
  obtain ⟨g', op, g₀', op₀, hrun, -, hrun₀, -, heval⟩ := @conv2d_eq_conv2d_zeroPad
    (build [.input "image" .float32 [1, 1, 2, 2], .input "kernel" .float32 [1, 1, 3, 3]])
    (build [.input "image" .float32 [1, 1, 4, 4], .input "kernel" .float32 [1, 1, 3, 3]])
    0 1 0 1 .float32 .float32 1 1 2 2 1 3 3 (1, 1) (1, 1) _ rfl rfl rfl rfl rfl rfl (by simp) hfits hfits
  exact ⟨g', op, g₀', op₀, hrun, hrun₀, heval _ _ _ _ ⟨rfl, rfl⟩ ⟨rfl, rfl⟩ rfl rfl rfl rfl⟩

end Graph

end TensorCompiler
