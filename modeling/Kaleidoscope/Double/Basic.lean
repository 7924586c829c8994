/-!
Binary64 numbers as bit patterns: the sign of zero and the payload of a NaN are part of the value.
Every finite magnitude is a whole number of units of `2 ^ (-1074)`.
-/

namespace Kaleidoscope

structure Double where
  bits : UInt64
  deriving DecidableEq

namespace Double

def zero : Double := ⟨0x0000000000000000⟩
def one : Double := ⟨0x3ff0000000000000⟩
def nan : Double := ⟨0x7ff8000000000000⟩

/-- What an operation with no meaningful answer yields, such as the difference of two infinities. -/
def invalid : Double := ⟨0xfff8000000000000⟩

/-- How many magnitudes share an exponent. -/
def binadeSize : Nat := 0x10000000000000

/-- How many units make one. -/
def unitsPerOne : Nat := Nat.pow 2 1074

/-- The magnitude of infinity; larger magnitudes are NaNs. -/
def infinityWord : UInt64 := 0x7ff0000000000000

def quietBit : UInt64 := 0x0008000000000000

def negative (d : Double) : Bool := d.bits &&& 0x8000000000000000 != 0

/-- The bits without the sign. Magnitudes are ordered as the numbers they stand for. -/
def magnitude (d : Double) : UInt64 := d.bits &&& 0x7fffffffffffffff

def isNaN (d : Double) : Bool := infinityWord < d.magnitude

def isFinite (d : Double) : Bool := d.magnitude < infinityWord

def isZero (d : Double) : Bool := d.magnitude == 0

/-- The number with this sign and this magnitude. -/
def ofMagnitude (negative : Bool) (magnitude : Nat) : Double :=
  ⟨UInt64.ofNat (if negative then 0x8000000000000000 + magnitude else magnitude)⟩

/-- A finite magnitude in units of `2 ^ (-1074)`. -/
def units (d : Double) : Nat :=
  let exponent := d.magnitude.toNat / binadeSize
  let fraction := d.magnitude.toNat % binadeSize
  if exponent = 0 then fraction else (binadeSize + fraction) * Nat.pow 2 (exponent - 1)

/-- The natural number equal to `d`, if there is one. -/
def toNat? (d : Double) : Option Nat :=
  if d.isFinite && (!d.negative || d.isZero) && d.units % unitsPerOne == 0 then
    some (d.units / unitsPerOne)
  else
    none

def toFloat (d : Double) : Float := Float.ofBits d.bits

def ofFloat (x : Float) : Double := ⟨x.toBits⟩

/-- The same NaN, marked as quiet. -/
def quieted (d : Double) : Double := ⟨d.bits ||| quietBit⟩

/-- A NaN operand passes through, the left one first; otherwise `op` decides. -/
def arithmetic (op : Float → Float → Float) (lhs rhs : Double) : Double :=
  if lhs.isNaN then
    lhs.quieted
  else if rhs.isNaN then
    rhs.quieted
  else
    let result := ofFloat (op lhs.toFloat rhs.toFloat)
    if result.isNaN then invalid else result

def add : Double → Double → Double := arithmetic (· + ·)
def sub : Double → Double → Double := arithmetic (· - ·)
def mul : Double → Double → Double := arithmetic (· * ·)

/-- Numeric equality: both zeros are equal, and a NaN equals nothing. -/
def numEq (lhs rhs : Double) : Bool :=
  !lhs.isNaN && !rhs.isNaN && (lhs.bits == rhs.bits || lhs.isZero && rhs.isZero)

/-- Neither operand is a NaN and they differ as numbers. -/
def ordNe (lhs rhs : Double) : Bool :=
  !lhs.isNaN && !rhs.isNaN && !lhs.numEq rhs

/-- Less than as numbers, false when an operand is a NaN. -/
def less (lhs rhs : Double) : Bool := decide (lhs.toFloat < rhs.toFloat)

/-- Whether a branch on `d` is taken: everything but the zeros, NaN included. -/
def truthy (d : Double) : Bool := !d.isZero

def ofBool (holds : Bool) : Double := if holds then one else zero

/-- The part before the point, held between 0 and 255; a NaN counts as 0. -/
def toByte (d : Double) : UInt8 := d.toFloat.toUInt8

end Double

end Kaleidoscope
