/-! # Binary64 numbers as integers

A finite binary64 number is `± significand · 2 ^ exponent`. This module reads a `Float` in that form
and, on it, computes the operations that have an exact integer description: the conversions between
64-bit integers and floats, and the remainder. Nothing here depends on an opaque operation, so closed
instances evaluate in the kernel.
-/

namespace TensorCompiler

/-- A binary64 number read as sign, significand and exponent. -/
inductive Binary64 where
  | nan
  | infinity (negative : Bool)
  /-- The number `± significand · 2 ^ exponent`. -/
  | finite (negative : Bool) (significand : Nat) (exponent : Int)
  deriving Repr, DecidableEq

namespace Binary64

/-- The leading one of a normal significand, `2 ^ 52`, which the bits of a float leave out. -/
def hiddenBit : Nat := 1 <<< 52

/-- Reads the bits of a float: one sign bit, eleven exponent bits, fifty-two fraction bits. -/
def ofFloat (x : Float) : Binary64 :=
  let bits := x.toBits.toNat
  let negative := bits >>> 63 == 1
  let biased : Nat := (bits >>> 52) % 2048
  let fraction := bits % hiddenBit
  if biased == 2047 then
    if fraction == 0 then .infinity negative else .nan
  else if biased == 0 then .finite negative fraction (-1074)
  else .finite negative (fraction + hiddenBit) ((biased : Int) - 1075)

/-- The float `± significand · 2 ^ exponent`, for a significand below `2 ^ 53` and an exponent of at
least `-1074`; the significand is shifted up until it fills its bits or the exponent reaches the least
one. -/
def toFloat (negative : Bool) (significand : Nat) (exponent : Int) : Float :=
  let sign := if negative then 1 <<< 63 else 0
  if significand == 0 then Float.ofBits (UInt64.ofNat sign)
  else
    let shift := min (52 - significand.log2) (exponent + 1074).toNat
    let full : Nat := significand <<< shift
    let magnitude :=
      if full < hiddenBit then full
      else (exponent - shift + 1075).toNat * hiddenBit + (full - hiddenBit)
    Float.ofBits (UInt64.ofNat (sign + magnitude))

/-- The float nearest to a 64-bit integer. -/
def ofInt64 (n : Int64) : Float :=
  if n < 0 then -(-n).toUInt64.toFloat else n.toUInt64.toFloat

/-- The integer part of a float, kept within 64 bits; a float that is not a number gives zero. -/
def truncate (x : Float) : Int64 :=
  let clamped (negative : Bool) (magnitude : Nat) : Int64 :=
    if negative then
      if 1 <<< 63 ≤ magnitude then Int64.minValue else Int64.ofInt (-magnitude)
    else
      if 1 <<< 63 ≤ magnitude then Int64.maxValue else Int64.ofInt magnitude
  match ofFloat x with
  | .nan => 0
  | .infinity negative => clamped negative (1 <<< 63)
  | .finite negative significand exponent =>
    if 0 ≤ exponent then clamped negative (significand <<< exponent.toNat)
    else clamped negative (significand >>> (-exponent).toNat)

/-- The remainder of a division that rounds toward zero: exact, with the sign of the dividend. -/
def remainder (x y : Float) : Float :=
  match ofFloat x, ofFloat y with
  | .finite negative significand exponent, .finite _ divisor scale =>
    if divisor == 0 then 0.0 / 0.0
    else
      let least := min exponent scale
      let rest := (significand <<< (exponent - least).toNat) % (divisor <<< (scale - least).toNat)
      toFloat negative rest least
  | .finite .., .infinity _ => x
  | _, _ => 0.0 / 0.0

example : remainder 7.5 2.0 = 1.5 := by decide +kernel
example : (remainder (-6.0) 3.0).toBits = (-0.0 : Float).toBits := by decide +kernel
example : truncate (-2.75) = -2 := by decide +kernel
example : truncate 1e300 = Int64.maxValue := by decide +kernel
example : ofInt64 (-3) = -3.0 := by decide +kernel

end Binary64

end TensorCompiler
