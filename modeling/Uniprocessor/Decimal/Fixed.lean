import Uniprocessor.Decimal.Binary64
/-
  Floats with a fixed number of decimal places, from their exact value.
-/

namespace Uniprocessor.Decimal

/-- The float `x`, which is not negative, in units of `10 ^ (-places)`. -/
def scaled (places : Nat) (x : Float) : Nat :=
  let p := FloatParts.of x
  let num := p.significand * Nat.pow 10 places
  if 0 ≤ p.exponent then num * Nat.pow 2 p.exponent.toNat
  else roundHalfEven num (Nat.pow 2 (-p.exponent).toNat)

/-- A number of hundredths with two places. -/
def hundredths (n : Nat) : String :=
  let cents := n % 100
  Nat.repr (n / 100) ++ "." ++ (if cents < 10 then "0" else "") ++ Nat.repr cents

/-- The float `x`, which is not negative, with two places; a half goes to the even
neighbour. -/
def fixed2 (x : Float) : String := hundredths (scaled 2 x)

end Uniprocessor.Decimal
