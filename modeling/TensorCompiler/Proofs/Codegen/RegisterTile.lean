import Mathlib.Data.Set.Function
import TensorCompiler.Expr.LaneIndex
import TensorCompiler.Proofs.Codegen.Coordinates

/-! # How the lanes of a warp tile a tensor

A register tile gives each register of each lane an element of the tensor. Along one dimension a position below `l` and
a lane coordinate below `n` become an index below `l * n`, and each such index comes from one pair: it is split by
division with remainder, by the lanes where they interleave and by the registers where each lane owns a block. So the
lanes of the grid cover the tensor, each element once. A warp has 32 lanes; where the grid is smaller the lanes beyond
it start over.
-/

namespace TensorCompiler

/-! ## Every index of a shape -/

theorem ofNat_div_extent {m : Nat} (hm : m < 2 ^ 63) {extent : Int64} (hextent : 0 < extent) :
    Int64.ofNat m / extent = Int64.ofNat (m / extent.toNatClampNeg) := by
  rw [Int64.ofNat_div hm extent.toNatClampNeg_lt, Int64.ofNat_toNatClampNeg extent (Int64.le_of_lt hextent)]

/-- The index that a rule gives along each dimension. The rule is told the number of registers, the number of lanes, the
position of a register and the coordinate of a lane. -/
def combineIndex (rule : Nat → Nat → Nat → Nat → Nat) : List Nat → List Nat → List Nat → List Nat → List Nat
  | l :: ls, n :: ns, p :: ps, c :: cs => rule l n p c :: combineIndex rule ls ns ps cs
  | _, _, _, _ => []

/-- The index along a dimension whose lanes interleave. -/
def cyclicRule (_ n p c : Nat) : Nat :=
  p * n + c

/-- The index along a dimension in which each lane owns a block. -/
def blockedRule (l _ p c : Nat) : Nat :=
  c * l + p

/-- Whether the pairs of a register and a lane are the indices of a dimension, each one once. -/
structure IsTiling (rule : Nat → Nat → Nat → Nat → Nat) : Prop where
  lt {l n p c : Nat} (hp : p < l) (hc : c < n) : rule l n p c < l * n
  covers {l n i : Nat} (hi : i < l * n) : ∃ p < l, ∃ c < n, rule l n p c = i
  unique {l n p c p' c' : Nat} (hp : p < l) (hc : c < n) (hp' : p' < l) (hc' : c' < n)
    (h : rule l n p c = rule l n p' c') : p = p' ∧ c = c'

theorem isTiling_cyclicRule : IsTiling cyclicRule where
  lt {l n p c} hp hc := by
    have hnext : (p + 1) * n ≤ l * n := Nat.mul_le_mul_right n hp
    rw [Nat.succ_mul] at hnext
    unfold cyclicRule
    omega
  covers {l n i} hi := by
    have hn : 0 < n := Nat.pos_of_mul_pos_left (Nat.zero_lt_of_lt hi)
    refine ⟨i / n, (Nat.div_lt_iff_lt_mul hn).mpr hi, i % n, Nat.mod_lt i hn, ?_⟩
    rw [cyclicRule, Nat.mul_comm]
    exact Nat.div_add_mod i n
  unique {l n p c p' c'} hp hc hp' hc' h := by
    have hn : 0 < n := Nat.zero_lt_of_lt hc
    have hquotient {q r : Nat} (hr : r < n) : (q * n + r) / n = q ∧ (q * n + r) % n = r := by
      rw [Nat.mul_comm, Nat.mul_add_div hn, Nat.div_eq_of_lt hr, Nat.mul_add_mod, Nat.mod_eq_of_lt hr]
      exact ⟨rfl, rfl⟩
    unfold cyclicRule at h
    refine ⟨?_, ?_⟩
    · rw [← (hquotient (q := p) hc).1, h, (hquotient hc').1]
    · rw [← (hquotient (q := p) hc).2, h, (hquotient hc').2]

/-- Blocks interleave with the parts of registers and lanes exchanged. -/
theorem blockedRule_eq (l n p c : Nat) : blockedRule l n p c = cyclicRule n l c p := rfl

theorem isTiling_blockedRule : IsTiling blockedRule where
  lt {l n p c} hp hc := by
    rw [blockedRule_eq, Nat.mul_comm]
    exact isTiling_cyclicRule.lt hc hp
  covers {l n i} hi := by
    rw [Nat.mul_comm] at hi
    obtain ⟨c, hc, p, hp, heq⟩ := isTiling_cyclicRule.covers hi
    exact ⟨p, hp, c, hc, heq⟩
  unique hp hc hp' hc' h := (isTiling_cyclicRule.unique hc hp hc' hp' h).symm

namespace IsTiling

variable {rule : Nat → Nat → Nat → Nat → Nat} {ls ns ps cs : List Nat}

theorem inShape (h : IsTiling rule) (hlength : ls.length = ns.length) (hps : InShape ls ps) (hcs : InShape ns cs) :
    InShape (ls.zipWith (· * ·) ns) (combineIndex rule ls ns ps cs) := by
  induction hps generalizing ns cs with
  | nil => exact List.Forall₂.nil
  | cons hp _ ih =>
    cases hcs with
    | nil => cases hlength
    | cons hc hcs => exact List.Forall₂.cons (h.lt hp hc) (ih (Nat.succ.inj hlength) hcs)

theorem exists_combineIndex (h : IsTiling rule) {index : List Nat} (hlength : ls.length = ns.length)
    (hindex : InShape (ls.zipWith (· * ·) ns) index) :
    ∃ ps cs, InShape ls ps ∧ InShape ns cs ∧ combineIndex rule ls ns ps cs = index := by
  induction ls generalizing ns index with
  | nil =>
    obtain rfl := List.eq_nil_of_length_eq_zero hlength.symm
    cases hindex
    exact ⟨[], [], .nil, .nil, rfl⟩
  | cons l ls ih =>
    obtain ⟨n, ns, rfl⟩ := List.exists_cons_of_length_eq_add_one hlength.symm
    cases hindex with
    | cons hi hindex =>
      obtain ⟨p, hp, c, hc, rfl⟩ := h.covers hi
      obtain ⟨ps, cs, hps, hcs, rfl⟩ := ih (Nat.succ.inj hlength) hindex
      exact ⟨p :: ps, c :: cs, .cons hp hps, .cons hc hcs, rfl⟩

theorem combineIndex_inj (h : IsTiling rule) {ps' cs' : List Nat} (hlength : ls.length = ns.length) (hps : InShape ls ps)
    (hcs : InShape ns cs) (hps' : InShape ls ps') (hcs' : InShape ns cs')
    (heq : combineIndex rule ls ns ps cs = combineIndex rule ls ns ps' cs') : ps = ps' ∧ cs = cs' := by
  induction hps generalizing ns cs ps' cs' with
  | nil =>
    obtain rfl := List.eq_nil_of_length_eq_zero hlength.symm
    cases hps'
    cases hcs
    cases hcs'
    exact ⟨rfl, rfl⟩
  | cons hp _ ih =>
    cases hcs with
    | nil => cases hlength
    | cons hc hcs =>
      cases hps' with
      | cons hp' hps' =>
        cases hcs' with
        | cons hc' hcs' =>
          obtain ⟨hhead, htail⟩ := List.cons.inj heq
          obtain ⟨rfl, rfl⟩ := h.unique hp hc hp' hc' hhead
          obtain ⟨rfl, rfl⟩ := ih (Nat.succ.inj hlength) hcs hps' hcs' htail
          exact ⟨rfl, rfl⟩

end IsTiling

/-! ## Register tiles -/

namespace RegisterTile

/-- The element of the tensor that a lane holds in the register at a position: the one at the position itself, or along
each dimension `position * lanes + lane` or `lane * registers + position`, for the coordinates of the lane in the
row-major grid of lanes. -/
def image (tile : RegisterTile) (lane : Nat) (position : List Nat) : List Nat :=
  match tile.layout with
  | .identity => position
  | .cyclic lanes => combineIndex cyclicRule (extentsOf tile.localShape) (extentsOf lanes) position (pointAt lane lanes)
  | .blocked lanes =>
    combineIndex blockedRule (extentsOf tile.localShape) (extentsOf lanes) position (pointAt lane lanes)

/-- How the lanes of a warp hold a tensor: what a lane holds is in the tensor, each element is held, and by one register
if there are as many lanes as the warp has. -/
structure Covers (tile : RegisterTile) : Prop where
  within : ∀ lane position, InShape (extentsOf tile.localShape) position →
    InShape (extentsOf tile.globalShape) (tile.image lane position)
  covers : ∀ index, InShape (extentsOf tile.globalShape) index →
    ∃ lane < 32, ∃ position, InShape (extentsOf tile.localShape) position ∧ tile.image lane position = index
  unique : tile.numLanes = 32 → ∀ index, InShape (extentsOf tile.globalShape) index →
    ∃! x : Nat × List Nat, x.1 < 32 ∧ InShape (extentsOf tile.localShape) x.2 ∧ tile.image x.1 x.2 = index

/-- A valid grid of lanes has an extent for each dimension and fits in a warp. -/
structure HasLanes (tile : RegisterTile) (lanes : List Int64) : Prop where
  rank : tile.localShape.length = lanes.length
  pos : ∀ n ∈ lanes, 0 < n
  count : (grid lanes).length ≤ 32
  full : tile.numLanes = 32 → (grid lanes).length = 32
  shape : extentsOf tile.globalShape = (extentsOf tile.localShape).zipWith (· * ·) (extentsOf lanes)

variable {tile : RegisterTile} {lanes : List Int64}

/-- Both layouts of a grid of lanes tile the tensor along each dimension. -/
theorem exists_isTiling (hlanes : tile.lanes? = some lanes) :
    ∃ rule, IsTiling rule ∧ ∀ lane position, tile.image lane position =
      combineIndex rule (extentsOf tile.localShape) (extentsOf lanes) position (pointAt lane lanes) := by
  rw [lanes?] at hlanes
  cases hlayout : tile.layout with
  | identity =>
    rw [hlayout] at hlanes
    cases hlanes
  | cyclic grid =>
    rw [hlayout] at hlanes
    cases hlanes
    exact ⟨cyclicRule, isTiling_cyclicRule, fun lane position => by rw [image, hlayout]⟩
  | blocked grid =>
    rw [hlayout] at hlanes
    cases hlanes
    exact ⟨blockedRule, isTiling_blockedRule, fun lane position => by rw [image, hlayout]⟩

namespace HasLanes

theorem length_eq (h : tile.HasLanes lanes) : (extentsOf tile.localShape).length = (extentsOf lanes).length := by
  rw [extentsOf, extentsOf, List.length_map, List.length_map, h.rank]

/-- What a lane holds is in the tensor, also for a lane beyond the grid. -/
theorem inShape_image (h : tile.HasLanes lanes) (hlanes : tile.lanes? = some lanes) (lane : Nat) {position : List Nat}
    (hposition : InShape (extentsOf tile.localShape) position) :
    InShape (extentsOf tile.globalShape) (tile.image lane position) := by
  obtain ⟨rule, hrule, himage⟩ := exists_isTiling hlanes
  rw [h.shape, himage]
  exact hrule.inShape h.length_eq hposition (inShape_pointAt h.pos lane)

/-- The registers of the lanes of the grid hold each element of the tensor once. -/
theorem bijOn_image (h : tile.HasLanes lanes) (hlanes : tile.lanes? = some lanes) :
    Set.BijOn (fun x : Nat × List Nat => tile.image x.1 x.2)
      {x | x.1 < (grid lanes).length ∧ InShape (extentsOf tile.localShape) x.2}
      {index | InShape (extentsOf tile.globalShape) index} := by
  obtain ⟨rule, hrule, himage⟩ := exists_isTiling hlanes
  refine ⟨fun x hx => h.inShape_image hlanes x.1 hx.2, ?_, fun index hindex => ?_⟩
  · rintro ⟨lane, position⟩ ⟨hlt, hposition⟩ ⟨lane', position'⟩ ⟨hlt', hposition'⟩ heq
    have heq : tile.image lane position = tile.image lane' position' := heq
    rw [himage, himage] at heq
    obtain ⟨hposition, hpoint⟩ := hrule.combineIndex_inj h.length_eq hposition (inShape_pointAt h.pos lane) hposition'
      (inShape_pointAt h.pos lane') heq
    exact Prod.ext (pointAt_injOn h.pos hlt hlt' hpoint) hposition
  · have hindex : InShape (extentsOf tile.globalShape) index := hindex
    rw [h.shape] at hindex
    obtain ⟨position, coordinates, hposition, hcoordinates, rfl⟩ := hrule.exists_combineIndex h.length_eq hindex
    obtain ⟨lane, hlt, rfl⟩ := hcoordinates.exists_pointAt
    exact ⟨(lane, position), ⟨hlt, hposition⟩, himage lane position⟩

/-- A warp has the lanes of the grid, so it covers the tensor, and if it has no others each register holds an element of
its own. -/
theorem covers (h : tile.HasLanes lanes) (hlanes : tile.lanes? = some lanes) : tile.Covers := by
  obtain ⟨-, hinj, hsurj⟩ := h.bijOn_image hlanes
  refine ⟨fun lane position => h.inShape_image hlanes lane, fun index hindex => ?_, fun hfull index hindex => ?_⟩
  · obtain ⟨⟨lane, position⟩, ⟨hlt, hposition⟩, heq⟩ := hsurj hindex
    exact ⟨lane, Nat.lt_of_lt_of_le hlt h.count, position, hposition, heq⟩
  · obtain ⟨⟨lane, position⟩, ⟨hlt, hposition⟩, heq⟩ := hsurj hindex
    rw [h.full hfull] at hlt hinj
    refine ⟨(lane, position), ⟨hlt, hposition, heq⟩, ?_⟩
    rintro x ⟨hlt', hposition', heq'⟩
    exact hinj ⟨hlt', hposition'⟩ ⟨hlt, hposition⟩ (heq'.trans heq.symm)

end HasLanes

end RegisterTile

/-! ## The indices as they are computed -/

namespace Expr.ReadsNat

variable [FloatOps] {R : Expr → Nat → Prop} {lane : Expr} {m : Nat}

/-- The coordinates of a lane: the division by the lanes of the later dimensions, and the remainder. -/
theorem laneCoordinates (h : ReadsNat R) {lanes : List Int64} (hlane : R lane m) (hpos : ∀ n ∈ lanes, 0 < n)
    (hword : (grid lanes).length < 2 ^ 63) :
    List.Forall₂ R (TensorCompiler.laneCoordinates lane (Int64.ofNat (grid lanes).length) lanes) (pointAt m lanes) := by
  induction lanes with
  | nil => exact List.Forall₂.nil
  | cons extent lanes ih =>
    have hextent : 0 < extent := hpos extent List.mem_cons_self
    have hrest : ∀ n ∈ lanes, 0 < n := fun n hn => hpos n (List.mem_cons_of_mem _ hn)
    have hnat : 0 < extent.toNatClampNeg := (Int64.toNatClampNeg_pos_iff extent).mpr hextent
    have hsmall : (grid lanes).length < 2 ^ 63 :=
      Nat.lt_of_le_of_lt (length_grid_cons extent lanes ▸ Nat.le_mul_of_pos_left _ hnat) hword
    have hbelow : Int64.ofNat (grid (extent :: lanes)).length / extent = Int64.ofNat (grid lanes).length := by
      rw [ofNat_div_extent hword hextent, length_grid_cons, Nat.mul_div_cancel_left _ hnat]
    have hbound : R (Expr.int extent) extent.toNatClampNeg := h.int (Int64.le_of_lt hextent)
    rw [TensorCompiler.laneCoordinates, hbelow, pointAt]
    refine List.Forall₂.cons ?_ (ih hrest hsmall)
    by_cases hone : Int64.ofNat (grid lanes).length = 1
    · have hlength : (grid lanes).length = 1 := by
        have hint := congrArg Int64.toInt hone
        rw [Int64.toInt_ofNat_of_lt hsmall, Int64.toInt_one] at hint
        omega
      rw [if_pos hone, hlength, Nat.div_one]
      exact h.mod hlane hbound hnat
    · rw [if_neg hone]
      exact h.mod (h.div hlane (h.literal hsmall) (length_grid_pos hrest)) hbound hnat

end Expr.ReadsNat

namespace RegisterTile

section

variable {R : Expr → Nat → Prop} {tile : RegisterTile} {lane : Expr} {m : Nat}

end

section

variable {Address Memory : Type} [FloatOps] {M : Machine Address Memory} {memory : Memory} {vars : Vars Address}
  {tile : RegisterTile} {lane : Expr} {m : Nat}

end

end RegisterTile

end TensorCompiler
