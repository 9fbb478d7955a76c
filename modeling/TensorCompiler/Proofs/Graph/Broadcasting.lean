import TensorCompiler.Proofs.Expr.Totality
import TensorCompiler.Proofs.Graph.Operators

/-! # Broadcasting as an operation on shapes

Each operation on shapes comes from the one on two aligned extents, along lists that start at the last dimension. Shapes
that have a common shape in one order have it in the other, and a third shape may join on either side. The rule for the
indices is written apart from the one for the shapes, and agrees with it: at each point of the common shape it gives an
index into the operand.
-/

namespace TensorCompiler

/-! ## Extents -/

theorem broadcastExtent?_comm (x y : Int64) : broadcastExtent? x y = broadcastExtent? y x := by
  unfold broadcastExtent?
  split_ifs <;> simp_all

/-- Two extents have a common one if they are equal or one of them stretches. -/
theorem broadcastExtent?_eq_some_iff {x y n : Int64} :
    broadcastExtent? x y = some n ↔ (x = n ∨ x = 1) ∧ (y = n ∨ y = 1) ∧ (n = x ∨ n = y) := by
  unfold broadcastExtent?
  split_ifs with heq hx hy
  all_goals grind

/-- A third extent may join from the right or from the left. -/
theorem broadcastExtent?_assoc {x y z n m : Int64} (hn : broadcastExtent? x y = some n)
    (hm : broadcastExtent? n z = some m) : ∃ k, broadcastExtent? y z = some k ∧ broadcastExtent? x k = some m := by
  simp only [broadcastExtent?_eq_some_iff] at hn hm ⊢
  refine ⟨if y = 1 then z else y, ?_⟩
  split_ifs with hy
  all_goals grind

/-! ## Shapes from their last dimension on -/

theorem broadcastReversed?_nil_left (b : List Int64) : broadcastReversed? [] b = some b := by
  cases b <;> rfl

theorem broadcastReversed?_nil_right (a : List Int64) : broadcastReversed? a [] = some a := by
  cases a <;> rfl

theorem broadcastReversed?_cons_eq_some_iff {x y : Int64} {a b s : List Int64} :
    broadcastReversed? (x :: a) (y :: b) = some s ↔
      ∃ n r, broadcastExtent? x y = some n ∧ broadcastReversed? a b = some r ∧ s = n :: r := by
  rw [broadcastReversed?]
  simp only [Option.bind_eq_bind, Option.bind_eq_some_iff, Option.pure_def, Option.some.injEq, exists_and_left]
  simp only [eq_comm]

theorem broadcastReversed?_comm (a b : List Int64) : broadcastReversed? a b = broadcastReversed? b a := by
  induction a generalizing b with
  | nil => rw [broadcastReversed?_nil_left, broadcastReversed?_nil_right]
  | cons x a ih =>
    cases b with
    | nil => rfl
    | cons y b => rw [broadcastReversed?, broadcastReversed?, broadcastExtent?_comm, ih]

theorem broadcastReversed?_assoc {a b c s t : List Int64} (hs : broadcastReversed? a b = some s)
    (ht : broadcastReversed? s c = some t) :
    ∃ r, broadcastReversed? b c = some r ∧ broadcastReversed? a r = some t := by
  induction a generalizing b c s t with
  | nil =>
    rw [broadcastReversed?_nil_left, Option.some.injEq] at hs
    subst hs
    exact ⟨t, ht, broadcastReversed?_nil_left t⟩
  | cons x a ih =>
    cases b with
    | nil =>
      rw [broadcastReversed?_nil_right, Option.some.injEq] at hs
      subst hs
      exact ⟨c, broadcastReversed?_nil_left c, ht⟩
    | cons y b =>
      cases c with
      | nil =>
        rw [broadcastReversed?_nil_right, Option.some.injEq] at ht
        subst ht
        exact ⟨y :: b, broadcastReversed?_nil_right _, hs⟩
      | cons z c =>
        obtain ⟨n, s, hn, hrest, rfl⟩ := broadcastReversed?_cons_eq_some_iff.mp hs
        obtain ⟨m, t, hm, hrest', rfl⟩ := broadcastReversed?_cons_eq_some_iff.mp ht
        obtain ⟨k, hk, hxk⟩ := broadcastExtent?_assoc hn hm
        obtain ⟨r, hr, har⟩ := ih hrest hrest'
        exact ⟨k :: r, broadcastReversed?_cons_eq_some_iff.mpr ⟨k, r, hk, hr, rfl⟩,
          broadcastReversed?_cons_eq_some_iff.mpr ⟨m, t, hxk, har, rfl⟩⟩

theorem length_of_broadcastReversed? {a b s : List Int64} (h : broadcastReversed? a b = some s) :
    s.length = max a.length b.length := by
  induction a generalizing b s with
  | nil =>
    rw [broadcastReversed?_nil_left, Option.some.injEq] at h
    simp [h]
  | cons x a ih =>
    cases b with
    | nil =>
      rw [broadcastReversed?_nil_right, Option.some.injEq] at h
      simp [← h]
    | cons y b =>
      obtain ⟨n, r, -, hr, rfl⟩ := broadcastReversed?_cons_eq_some_iff.mp h
      rw [List.length_cons, List.length_cons, List.length_cons, ih hr, Nat.succ_max_succ]

/-- Each extent of an operand is that of the result at the same distance from the end, or stretches to it. -/
theorem forall₂_of_broadcastReversed? {a b s : List Int64} (h : broadcastReversed? a b = some s) :
    List.Forall₂ (fun n m => n = m ∨ n = 1) a (s.take a.length) := by
  induction a generalizing b s with
  | nil => exact .nil
  | cons x a ih =>
    cases b with
    | nil =>
      rw [broadcastReversed?_nil_right, Option.some.injEq] at h
      rw [← h, List.take_length]
      exact List.forall₂_same.mpr fun n _ => Or.inl rfl
    | cons y b =>
      obtain ⟨n, r, hn, hr, rfl⟩ := broadcastReversed?_cons_eq_some_iff.mp h
      exact .cons (broadcastExtent?_eq_some_iff.mp hn).1 (ih hr)

theorem forall_mem_broadcastReversed? {p : Int64 → Prop} {a b s : List Int64} (h : broadcastReversed? a b = some s)
    (ha : ∀ n ∈ a, p n) (hb : ∀ n ∈ b, p n) : ∀ n ∈ s, p n := by
  induction a generalizing b s with
  | nil =>
    rw [broadcastReversed?_nil_left, Option.some.injEq] at h
    exact h ▸ hb
  | cons x a ih =>
    cases b with
    | nil =>
      rw [broadcastReversed?_nil_right, Option.some.injEq] at h
      exact h ▸ ha
    | cons y b =>
      obtain ⟨n, r, hn, hr, rfl⟩ := broadcastReversed?_cons_eq_some_iff.mp h
      rw [List.forall_mem_cons] at ha hb ⊢
      refine ⟨?_, ih hr ha.2 hb.2⟩
      rcases (broadcastExtent?_eq_some_iff.mp hn).2.2 with rfl | rfl
      · exact ha.1
      · exact hb.1

/-! ## Shapes -/

/-- The part of a list that is aligned with a shape. -/
def aligned {α : Type} (shape : List Int64) (xs : List α) : List α :=
  xs.drop (xs.length - shape.length)

theorem broadcastShape?_comm (a b : List Int64) : broadcastShape? a b = broadcastShape? b a := by
  rw [broadcastShape?, broadcastReversed?_comm, broadcastShape?]

theorem broadcastShape?_assoc {a b c s t : List Int64} (hs : broadcastShape? a b = some s)
    (ht : broadcastShape? s c = some t) : ∃ r, broadcastShape? b c = some r ∧ broadcastShape? a r = some t := by
  obtain ⟨s, hreversed, rfl⟩ := Option.map_eq_some_iff.mp hs
  obtain ⟨t, hreversed', rfl⟩ := Option.map_eq_some_iff.mp ht
  rw [List.reverse_reverse] at hreversed'
  obtain ⟨r, hr, har⟩ := broadcastReversed?_assoc hreversed hreversed'
  refine ⟨r.reverse, Option.map_eq_some_iff.mpr ⟨r, hr, rfl⟩, Option.map_eq_some_iff.mpr ⟨t, ?_, rfl⟩⟩
  rwa [List.reverse_reverse]

/-- Three shapes have the same common shape, or none, whichever two are taken first. -/
theorem broadcastShape?_bind_assoc (a b c : List Int64) :
    (broadcastShape? a b).bind (broadcastShape? · c) = (broadcastShape? b c).bind (broadcastShape? a ·) := by
  refine Option.ext fun t => ?_
  rw [Option.bind_eq_some_iff, Option.bind_eq_some_iff]
  constructor
  · rintro ⟨s, hs, ht⟩
    exact broadcastShape?_assoc hs ht
  · rintro ⟨s, hs, ht⟩
    rw [broadcastShape?_comm] at hs ht
    obtain ⟨r, hr, hcr⟩ := broadcastShape?_assoc hs ht
    exact ⟨r, by rwa [broadcastShape?_comm], by rwa [broadcastShape?_comm]⟩

theorem length_of_broadcastShape? {a b shape : List Int64} (h : broadcastShape? a b = some shape) :
    shape.length = max a.length b.length := by
  obtain ⟨s, hs, rfl⟩ := Option.map_eq_some_iff.mp h
  simpa using length_of_broadcastReversed? hs

theorem forall₂_of_broadcastShape? {a b shape operand : List Int64} (h : broadcastShape? a b = some shape)
    (hoperand : operand ∈ [a, b]) :
    List.Forall₂ (fun n m => n = m ∨ n = 1) operand (aligned operand shape) := by
  have hleft {a b shape : List Int64} (h : broadcastShape? a b = some shape) :
      List.Forall₂ (fun n m => n = m ∨ n = 1) a (aligned a shape) := by
    obtain ⟨s, hs, rfl⟩ := Option.map_eq_some_iff.mp h
    have hreversed := forall₂_of_broadcastReversed? hs
    rw [List.length_reverse] at hreversed
    rw [aligned, List.length_reverse, ← List.reverse_take, ← List.forall₂_reverse_iff, List.reverse_reverse]
    exact hreversed
  rcases List.mem_pair.mp hoperand with rfl | rfl
  · exact hleft h
  · exact hleft ((broadcastShape?_comm _ _).trans h)

/-- The extents of the common shape are extents of the operands. -/
theorem forall_mem_broadcastShape? {p : Int64 → Prop} {a b shape : List Int64} (h : broadcastShape? a b = some shape)
    (ha : ∀ n ∈ a, p n) (hb : ∀ n ∈ b, p n) : ∀ n ∈ shape, p n := by
  obtain ⟨s, hs, rfl⟩ := Option.map_eq_some_iff.mp h
  refine fun n hn => forall_mem_broadcastReversed? hs (fun m hm => ha m (List.mem_reverse.mp hm))
    (fun m hm => hb m (List.mem_reverse.mp hm)) n (List.mem_reverse.mp hn)

theorem toOption_broadcastShape (op : String) (a b : List Int64) :
    (broadcastShape op a b).toOption = broadcastShape? a b := by
  rw [broadcastShape]
  cases broadcastShape? a b <;> rfl

/-! ## Indices -/

/-- The index into an operand for a point of the result: zero along a dimension of extent one, the aligned coordinate
elsewhere. -/
def broadcastIndex (operand : List Int64) (point : List Nat) : List Nat :=
  operand.zipWith (fun extent i => if extent = 1 then 0 else i) (aligned operand point)

theorem broadcastIndices_eq {operand shape : List Int64} {axes : List Expr} (haxes : axes.length = shape.length) :
    broadcastIndices operand shape axes =
      operand.zipWith (fun extent pair => if extent = 1 ∧ pair.1 ≠ 1 then Expr.int 0 else pair.2)
        ((aligned operand shape).zip (aligned operand axes)) := by
  rw [aligned, aligned, haxes, List.zip, ← List.drop_zipWith]
  rfl

theorem getElem?_broadcastIndex {operand : List Int64} {point : List Nat} {k : Nat} (hk : k < operand.length)
    (hrank : operand.length ≤ point.length) :
    (broadcastIndex operand point)[k]? =
      if operand[k]? = some 1 then some 0 else point[point.length - operand.length + k]? := by
  have hbound : point.length - operand.length + k < point.length := by omega
  rw [broadcastIndex, List.getElem?_zipWith, aligned, List.getElem?_drop, List.getElem?_eq_getElem hk,
    List.getElem?_eq_getElem hbound]
  simp only [Option.some.injEq]
  split_ifs <;> rfl

section

variable [FloatOps] {tensors : Tensors} {env : Env} {operand shape : List Int64} {axes : List Expr} {point : List Nat}

/-- Along aligned dimensions. Where the result has the extent one, an axis is zero as well. -/
theorem haveIndex_zipWith_of_stretches (hextents : List.Forall₂ (fun n m => n = m ∨ n = 1) operand shape)
    (haxes : Expr.HaveIndex tensors env axes point) (hpoint : InShape (extentsOf shape) point) :
    Expr.HaveIndex tensors env
        (operand.zipWith (fun extent pair => if extent = 1 ∧ pair.1 ≠ 1 then Expr.int 0 else pair.2) (shape.zip axes))
        (operand.zipWith (fun extent i => if extent = 1 then 0 else i) point) ∧
      InShape (extentsOf operand) (operand.zipWith (fun extent i => if extent = 1 then 0 else i) point) := by
  induction hextents generalizing axes point with
  | nil => exact ⟨.nil, .nil⟩
  | @cons n m operand shape hnm _ ih =>
    obtain ⟨i, rest, hi, hrest, rfl⟩ := List.forall₂_cons_right_iff.mp hpoint
    obtain ⟨e, axes, he, haxes', rfl⟩ := List.forall₂_cons_right_iff.mp haxes
    obtain ⟨hvalues, hinside⟩ := ih haxes' hrest
    by_cases hone : n = 1
    · subst hone
      have hzero : (if (1 : Int64) = 1 ∧ m ≠ 1 then Expr.int 0 else e).eval tensors env = .ok (.int (Int64.ofNat 0)) := by
        by_cases hm : m = 1
        · subst hm
          have hi0 : i = 0 := Nat.lt_one_iff.mp hi
          simpa [hi0] using he
        · rw [if_pos ⟨rfl, hm⟩]
          exact Expr.eval_const_eq_ok_iff.mpr rfl
      exact ⟨.cons hzero hvalues, .cons Nat.one_pos hinside⟩
    · obtain rfl := hnm.resolve_right hone
      refine ⟨.cons ?_ hvalues, .cons ?_ hinside⟩
      · simpa [hone] using he
      · simpa [hone] using hi

/-- At a point of the common shape the indices of an operand have values, which lie inside of it. -/
theorem haveIndex_broadcastIndices {a b : List Int64} (hshape : broadcastShape? a b = some shape)
    (hoperand : operand ∈ [a, b]) (hpoint : InShape (extentsOf shape) point)
    (haxes : Expr.HaveIndex tensors env axes point) :
    Expr.HaveIndex tensors env (broadcastIndices operand shape axes) (broadcastIndex operand point) ∧
      InShape (extentsOf operand) (broadcastIndex operand point) := by
  have hlengths : point.length = shape.length := hpoint.length_eq.trans (List.length_map _)
  have hpoint' : InShape (extentsOf (aligned operand shape)) (aligned operand point) := by
    rw [aligned, aligned, hlengths]
    exact hpoint.drop _
  have haxes' : Expr.HaveIndex tensors env (aligned operand axes) (aligned operand point) := by
    rw [aligned, aligned, haxes.length_eq]
    exact haxes.drop _
  rw [broadcastIndices_eq (haxes.length_eq.trans hlengths)]
  exact haveIndex_zipWith_of_stretches (forall₂_of_broadcastShape? hshape hoperand) haxes' hpoint'

end

/-- Broadcasting is commutative and associative where it is defined, and undefined for both orders otherwise. The common
shape has the larger rank, and at each of its points the indices into an operand lie inside of that: zero along its
dimensions of extent one, the aligned coordinate elsewhere. -/
theorem broadcastShape_laws [FloatOps] (op : String) (a b c : List Int64) :
    (broadcastShape op a b).toOption = (broadcastShape op b a).toOption ∧
      (do broadcastShape op (← broadcastShape op a b) c).toOption =
        (do broadcastShape op a (← broadcastShape op b c)).toOption ∧
      ∀ shape, broadcastShape op a b = .ok shape →
        shape.length = max a.length b.length ∧
          ∀ operand ∈ [a, b], ∀ (tensors : Tensors) (env : Env) (axes : List Expr) (point : List Nat),
            InShape (extentsOf shape) point → Expr.HaveIndex tensors env axes point →
              ∃ index, Expr.evalIndices tensors env (broadcastIndices operand shape axes) = .ok index ∧
                InShape (extentsOf operand) index ∧ ∀ k < operand.length,
                  index[k]? = if operand[k]? = some 1 then some 0 else point[shape.length - operand.length + k]? := by
  have hbind (x : Except Error (List Int64)) (f : List Int64 → Except Error (List Int64)) :
      (x >>= f).toOption = x.toOption.bind fun s => (f s).toOption := by
    cases x <;> rfl
  refine ⟨?_, ?_, fun shape hshape => ?_⟩
  · rw [toOption_broadcastShape, toOption_broadcastShape, broadcastShape?_comm]
  · simp only [hbind, toOption_broadcastShape]
    exact broadcastShape?_bind_assoc a b c
  · rw [broadcastShape_eq_ok_iff] at hshape
    refine ⟨length_of_broadcastShape? hshape, fun operand hoperand tensors env axes point hpoint haxes => ?_⟩
    obtain ⟨hvalues, hinside⟩ := haveIndex_broadcastIndices hshape hoperand hpoint haxes
    refine ⟨_, hvalues.evalIndices_eq hinside, hinside, fun k hk => ?_⟩
    have hlengths : point.length = shape.length := hpoint.length_eq.trans (List.length_map _)
    have hrank : operand.length ≤ point.length := by
      rw [hlengths, length_of_broadcastShape? hshape]
      rcases List.mem_pair.mp hoperand with rfl | rfl
      · exact Nat.le_max_left _ _
      · exact Nat.le_max_right _ _
    rw [getElem?_broadcastIndex hk hrank, hlengths]

theorem broadcastShape_laws_bias :
    broadcastShape "add" [4, 1] [3] = .ok [4, 3] ∧
      (do broadcastShape "add" [4, 1] (← broadcastShape "add" [3] [2, 1, 1])).toOption = some [2, 4, 3] ∧
      ∃ index, Expr.evalIndices [] [("i", .int 2), ("j", .int 1)]
          (broadcastIndices [4, 1] [4, 3] [.var (.int "i"), .var (.int "j")]) = .ok index ∧
        index[0]? = some 2 ∧ index[1]? = some 0 := by
  obtain ⟨-, hassoc, hindices⟩ := broadcastShape_laws "add" [4, 1] [3] [2, 1, 1]
  obtain ⟨index, hindex, -, hget⟩ := (hindices [4, 3] rfl).2 [4, 1] (List.mem_cons_self) []
    [("i", .int 2), ("j", .int 1)] [.var (.int "i"), .var (.int "j")] [2, 1]
    (.cons (by decide) (.cons (by decide) .nil)) (.cons rfl (.cons rfl .nil))
  exact ⟨rfl, hassoc.symm.trans rfl, index, hindex, hget 0 (by decide), hget 1 (by decide)⟩

end TensorCompiler
