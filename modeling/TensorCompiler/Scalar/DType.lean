/-! # Element types and the fields a pattern may leave open

`DType` lists the scalar element types. A field that a pattern may leave open is a `Slot`: a known value,
or a numbered hole that stands for the value met during matching.
-/

namespace TensorCompiler

/-- The number of a placeholder within one pattern. -/
abbrev Hole := Nat

/-- A field that is either known or left open. -/
inductive Slot (α : Type) where
  | known (value : α)
  | hole (id : Hole)
  deriving Repr, DecidableEq

namespace Slot

variable {α : Type}

/-- The value of a known field. -/
def known? : Slot α → Option α
  | known value => some value
  | hole _ => none

/-- The number of an open field. -/
def hole? : Slot α → Option Hole
  | known _ => none
  | hole id => some id

/-- Whether the field is known. -/
def isResolved : Slot α → Bool
  | known _ => true
  | hole _ => false

/-- The text of a hole. -/
def holeText (id : Hole) : String :=
  "?" ++ toString id

/-- The text of a field, given the text of its value. -/
def render (text : α → String) : Slot α → String
  | known value => text value
  | hole id => holeText id

end Slot

/-- A scalar element type. -/
inductive DType where
  | bool
  | int32
  | int64
  | float16
  | float32
  | float64
  deriving Repr, DecidableEq

namespace DType

/-- The name used in dumps. -/
def name : DType → String
  | bool => "bool"
  | int32 => "int32"
  | int64 => "int64"
  | float16 => "float16"
  | float32 => "float32"
  | float64 => "float64"

/-- Every element type. -/
def all : List DType :=
  [bool, int32, int64, float16, float32, float64]

/-- The element type of the given name. -/
def ofName? (text : String) : Option DType :=
  all.find? fun dtype => dtype.name == text

def isFloat : DType → Bool
  | float16 | float32 | float64 => true
  | _ => false

def isInteger : DType → Bool
  | int32 | int64 => true
  | _ => false

/-- Storage width in bytes. -/
def bytes : DType → Nat
  | bool => 1
  | float16 => 2
  | int32 | float32 => 4
  | int64 | float64 => 8

/-- The type of an arithmetic result over two operand types. A boolean takes the other type; within the
integers or the floats the wider one wins; an integer with a float gives a float at least as wide as
both. -/
def promote (a b : DType) : DType :=
  if a = b then a
  else if a = bool then b
  else if b = bool then a
  else if a.isFloat = b.isFloat then
    if b.bytes ≤ a.bytes then a else b
  else
    let (real, integer) := if a.isFloat then (a, b) else (b, a)
    if integer.bytes ≤ real.bytes then real
    else if integer = int32 then float32
    else float64

end DType

/-- The type of a scalar; patterns may leave it open. -/
abbrev ScalarType := Slot DType

end TensorCompiler
