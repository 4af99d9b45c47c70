-- Single-precision numbers, kept as their bit patterns so that every pattern, the many NaNs
-- included, stays what it was.

namespace NwScript

/-- A single-precision binary number: one sign bit, eight exponent bits, 23 fraction bits. -/
structure Binary32 where
  bits : UInt32
deriving DecidableEq, Inhabited

namespace Binary32

def negative (x : Binary32) : Bool := x.bits.toNat / 0x80000000 == 1

def exponent (x : Binary32) : Nat := x.bits.toNat / 0x800000 % 0x100

def fraction (x : Binary32) : Nat := x.bits.toNat % 0x800000

def isNaN (x : Binary32) : Bool := x.exponent == 255 && x.fraction != 0

def isInfinite (x : Binary32) : Bool := x.exponent == 255 && x.fraction == 0

def isZero (x : Binary32) : Bool := x.exponent == 0 && x.fraction == 0

/-- Equality of numbers and not of patterns: no NaN equals anything, and both zeros are equal. -/
def equals (x y : Binary32) : Bool :=
  !x.isNaN && !y.isNaN && (x.bits == y.bits || x.isZero && y.isZero)

/-- A finite number is `significand * 2 ^ scale`, apart from its sign. -/
def significand (x : Binary32) : Nat :=
  if x.exponent = 0 then x.fraction else 0x800000 + x.fraction

def scale (x : Binary32) : Int :=
  if x.exponent = 0 then -149 else (x.exponent : Int) - 150

end Binary32

end NwScript
