import TensorCompiler.Number.Binary64

/-! # The shortest decimal of a binary64 number

`Decimal.shortest` selects the decimal with the fewest digits among the reals that round to a given
float, the nearest one where several have that many digits, and the upper one where two are equally
near. `Notation.render` lays a selected decimal out as text.

## Shape of the selection

The reals that round to `significand · 2 ^ exponent` form an interval around it, closed when the
significand is even. On the grid of decimals with `n` digits only the two neighbours of the number can
be the best choice, so the search tries `n = 1, 2, …` and takes the first grid with a neighbour inside
the interval. All comparisons are between naturals.
-/

namespace TensorCompiler

/-- The decimal `digits · 10 ^ exponent`. -/
structure Decimal where
  digits : Nat
  exponent : Int
  deriving Repr, DecidableEq

/-- The reals that round to one float, as numerators over a common denominator. -/
structure RoundingInterval where
  lower : Nat
  centre : Nat
  upper : Nat
  denominator : Nat
  /-- Whether the two ends belong to the interval. -/
  closed : Bool

namespace RoundingInterval

/-- The interval of the positive number `significand · 2 ^ exponent`. Below a power of two the
neighbouring float is only half as far away. -/
def ofBinary (significand : Nat) (exponent : Int) : RoundingInterval :=
  let narrow := significand == Binary64.hiddenBit && exponent > -1074
  { lower := (4 * significand - if narrow then 1 else 2) <<< exponent.toNat
    centre := (4 * significand) <<< exponent.toNat
    upper := (4 * significand + 2) <<< exponent.toNat
    denominator := 4 <<< (-exponent).toNat
    closed := significand % 2 == 0 }

/-- Membership of `numerator / (denominator · scale)`, both ends scaled alike. -/
def holds (interval : RoundingInterval) (scale numerator : Nat) : Bool :=
  let lower := interval.lower * scale
  let upper := interval.upper * scale
  if interval.closed then lower ≤ numerator && numerator ≤ upper
  else lower < numerator && numerator < upper

/-- The best decimal on the grid of multiples of `10 ^ exponent`, if one lies in the interval. -/
def nearestOnGrid? (interval : RoundingInterval) (exponent : Int) : Option Decimal :=
  let scale := Nat.pow 10 (-exponent).toNat
  let step := interval.denominator * Nat.pow 10 exponent.toNat
  let centre := interval.centre * scale
  let below := centre / step
  let lowerFits := interval.holds scale (below * step)
  let upperFits := interval.holds scale ((below + 1) * step)
  if lowerFits && (!upperFits || 2 * centre < (2 * below + 1) * step) then some ⟨below, exponent⟩
  else if upperFits then some ⟨below + 1, exponent⟩
  else none

/-- The least `k` for which the number lies below `10 ^ k`: estimated from the binary logarithms, then
corrected by exact comparison. -/
def magnitude (interval : RoundingInterval) : Int :=
  let estimate : Int := ((interval.centre.log2 : Int) - interval.denominator.log2) * 30103 / 100000 - 1
  let isBelow (k : Int) : Bool :=
    interval.centre * Nat.pow 10 (-k).toNat < interval.denominator * Nat.pow 10 k.toNat
  ((List.range 4).map fun (i : Nat) => estimate + i).find? isBelow |>.getD (estimate + 4)

end RoundingInterval

namespace Decimal

/-- Moves trailing zeros of the digits into the exponent, at most as many as the first argument. -/
def strip : Nat → Decimal → Decimal
  | 0, d => d
  | fuel + 1, d =>
    if d.digits != 0 && d.digits % 10 == 0 then strip fuel ⟨d.digits / 10, d.exponent + 1⟩ else d

/-- The fewest digits that identify the positive float `significand · 2 ^ exponent`. Seventeen digits
always do; the exact value stands behind the search so that the result is right in every branch. -/
def shortest (significand : Nat) (exponent : Int) : Decimal :=
  let interval := RoundingInterval.ofBinary significand exponent
  let magnitude := interval.magnitude
  let found := (List.range 17).findSome? fun (n : Nat) => interval.nearestOnGrid? (magnitude - (n + 1))
  let chosen := found.getD
    ⟨(significand <<< exponent.toNat) * Nat.pow 5 (-exponent).toNat, if exponent < 0 then exponent else 0⟩
  chosen.strip chosen.digits.log2

end Decimal

/-- How a decimal is laid out. -/
structure Notation where
  /-- Leading digits at `10 ^ e` with `plainFrom ≤ e < plainBelow` are written positionally. -/
  plainFrom : Int
  plainBelow : Int
  notANumber : String
  infinity : String

namespace Notation

/-- Digits with a point after the first `whole` of them; a missing side is filled with zeros. -/
def positional (digits : List Char) (whole : Int) : List Char :=
  if whole ≤ 0 then '0' :: '.' :: List.replicate (-whole).toNat '0' ++ digits
  else
    let count := whole.toNat
    let fraction := digits.drop count
    digits.take count ++ List.replicate (count - digits.length) '0' ++
      '.' :: if fraction.isEmpty then ['0'] else fraction

/-- One digit, the others behind a point, and the exponent of the first. -/
def scientific (digits : List Char) (leading : Int) : List Char :=
  let mantissa := match digits with
    | first :: second :: rest => first :: '.' :: second :: rest
    | _ => digits
  mantissa ++ 'e' :: (toString leading).toList

/-- Lays out a positive decimal. -/
def layout (style : Notation) (d : Decimal) : List Char :=
  let digits := Nat.toDigits 10 d.digits
  let leading := d.exponent + digits.length - 1
  if style.plainFrom ≤ leading && leading < style.plainBelow then positional digits (leading + 1)
  else scientific digits leading

/-- The text of a float. Zero keeps its sign and the text of not-a-number has none. -/
def render (style : Notation) (x : Float) : String :=
  let signed (negative : Bool) (text : List Char) : String :=
    String.ofList (if negative then '-' :: text else text)
  match Binary64.ofFloat x with
  | .nan => style.notANumber
  | .infinity negative => signed negative style.infinity.toList
  | .finite negative 0 _ => signed negative ['0', '.', '0']
  | .finite negative significand exponent =>
    signed negative (style.layout (Decimal.shortest significand exponent))

end Notation

end TensorCompiler
