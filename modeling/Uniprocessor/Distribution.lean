import Uniprocessor.Decimal.Binary64
import Uniprocessor.Fault
/-
  Distributions: the count, the extremes, the sum and the sum of squares of a row of ticks.

  The sums are exact or a fault; mean and deviation are floats computed from them.
-/

namespace Uniprocessor

/-- What is known of a row of values. -/
structure Distribution where
  count : Nat
  /-- The least value, 0 if there is none. -/
  min : Nat
  /-- The greatest value, 0 if there is none. -/
  max : Nat
  sum : Nat
  sumOfSquares : Nat
  deriving DecidableEq

namespace Distribution

/-- The distribution of no values. -/
def empty : Distribution := ⟨0, 0, 0, 0, 0⟩

/-- The sum of squares with one more square, if it fits its word. -/
def addSquare (total value : Nat) : Except Fault Nat :=
  if total + value * value < squareBound then .ok (total + value * value)
  else .error .sumOverflow

/-- The distribution with one more value. -/
def add (d : Distribution) (value : Nat) : Except Fault Distribution := do
  let sum ← addTicks d.sum value
  let squares ← addSquare d.sumOfSquares value
  return {
    count := d.count + 1
    min := if d.count = 0 then value else Nat.min d.min value
    max := if d.count = 0 then value else Nat.max d.max value
    sum := sum
    sumOfSquares := squares }

/-- The distribution with the values of a row. -/
def addAll : List Nat → Distribution → Except Fault Distribution
  | [], d => .ok d
  | v :: rest, d => do addAll rest (← d.add v)

/-- The mean, 0 if there is no value. -/
def mean (d : Distribution) : Float :=
  if d.count = 0 then 0.0
  else Decimal.floatOfNat d.sum / Decimal.floatOfNat d.count

/-- The standard deviation, 0 if there are fewer than two values. -/
def deviation (d : Distribution) : Float :=
  if d.count < 2 then 0.0
  else
    let mean := d.mean
    let variance :=
      Decimal.floatOfNat d.sumOfSquares / Decimal.floatOfNat d.count - mean * mean
    (if variance < 0.0 then 0.0 else variance).sqrt

/-- The distribution with one more value, whether or not the sums fit their words. -/
def next (d : Distribution) (value : Nat) : Distribution where
  count := d.count + 1
  min := if d.count = 0 then value else Nat.min d.min value
  max := if d.count = 0 then value else Nat.max d.max value
  sum := d.sum + value
  sumOfSquares := d.sumOfSquares + value * value

theorem add_eq (d : Distribution) (value : Nat) :
    d.add value =
      if d.sum + value < tickBound ∧ d.sumOfSquares + value * value < squareBound
        then .ok (d.next value) else .error .sumOverflow := by
  unfold add addTicks addSquare
  by_cases hsum : d.sum + value < tickBound
  · by_cases hsquares : d.sumOfSquares + value * value < squareBound
    · simp only [hsum, hsquares, and_self, if_true]
      rfl
    · simp only [hsum, hsquares, and_false, if_true, if_false]
      rfl
  · simp only [hsum, false_and, if_false]
    rfl

/-- One more value leaves the squares no more than the square of the sum. -/
theorem squares_le {d : Distribution} (value : Nat) (h : d.sumOfSquares ≤ d.sum * d.sum) :
    (d.next value).sumOfSquares ≤ (d.next value).sum * (d.next value).sum := by
  simp only [next, Nat.add_mul, Nat.mul_add]
  omega

/-- The squares fit their word as long as the sum fits its own. -/
theorem squares_lt {sum squares : Nat} (h : squares ≤ sum * sum) (hsum : sum < tickBound) :
    squares < squareBound :=
  Nat.lt_of_le_of_lt h (Nat.mul_lt_mul'' hsum hsum)

end Distribution

end Uniprocessor
