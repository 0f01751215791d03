import Uniprocessor.Decimal.Rounding
/-
  Whole numbers and binary floating point: the float nearest to a whole number, and the parts
  of a float.
-/

namespace Uniprocessor.Decimal

/-- The float nearest to `n`, for `n` below the largest one; a half goes to the even
neighbour. -/
def floatOfNat (n : Nat) : Float :=
  let shift := n.log2 - 52
  (roundHalfEven n (Nat.pow 2 shift)).toUInt64.toFloat.scaleB shift

/-- The value of the leading bit of a significand, which is not stored. -/
def hiddenBit : Nat := 0x10_0000_0000_0000

/-- The value of the sign bit. -/
def signBit : Nat := 0x8000_0000_0000_0000

/-- A finite float as `significand * 2 ^ exponent`, with its sign. -/
structure FloatParts where
  negative : Bool
  significand : Nat
  exponent : Int

/-- The parts of a finite float. -/
def FloatParts.of (x : Float) : FloatParts :=
  let bits := x.toBits.toNat
  let field := bits / hiddenBit % 0x800
  let fraction := bits % hiddenBit
  { negative := decide (signBit ≤ bits)
    significand := if field = 0 then fraction else hiddenBit + fraction
    exponent := (max field 1 : Nat) - 1075 }

/-- Whether the float below is nearer than the one above. -/
def FloatParts.atBinade (p : FloatParts) : Bool :=
  p.significand == hiddenBit && decide (-1074 < p.exponent)

end Uniprocessor.Decimal
