import Mathlib.Algebra.Order.BigOperators.Group.Finset
import Mathlib.Algebra.BigOperators.Ring.Finset
/-
  Two ways of spreading the same amount of work.

  `excess s x n` is what the amounts `x` of the members of `s` have beyond `n` each.  `x` majorizes
  `y` if both come to the same in all and `x` has no less beyond any bound (`Majorizes`): the work
  is in fewer hands.  Indeed at most as many of the amounts are positive (`Majorizes.card_le`).

  The relation survives two changes.  The same new work may be given on both sides to members that
  have none (`Majorizes.add`).  And one unit may be taken off on both sides, on the side of `x` from
  the least positive amount, on the side of `y` from any (`Majorizes.take`).  For a bound below the
  least positive amount of `x` the excess of `x` falls by one, and that of `y` may stay, if the unit
  is taken from a member of `y` within the bound.  But then the excess of `x` was the greater one
  before (`Majorizes.excess_lt`): `x` has as much beyond the bound as it can with so few positive
  amounts, each of them full up to the bound, and `y` wastes an amount within the bound.
-/

namespace Uniprocessor

open Finset

variable {ι : Type} {s : Finset ι} {x y x' y' z : ι → Nat} {n : Nat} {i p q : ι}

/-! ## Excess -/

/-- What the amounts have beyond `n` each. -/
def excess (s : Finset ι) (x : ι → Nat) (n : Nat) : Nat := ∑ i ∈ s, (x i - n)

theorem excess_zero : excess s x 0 = ∑ i ∈ s, x i := rfl

theorem excess_congr (h : ∀ i ∈ s, x i = y i) : excess s x n = excess s y n :=
  sum_congr rfl fun i hi => by rw [h i hi]

/-- Raising the bound by one loses one for every amount beyond it. -/
theorem excess_succ : excess s x n = excess s x (n + 1) + #{i ∈ s | n < x i} := by
  rw [card_filter, excess, excess, ← sum_add_distrib]
  refine sum_congr rfl fun i _ => ?_
  split
  · omega
  · omega

/-- Work for members that have none adds to the excess as if it were alone. -/
theorem excess_add (h : ∀ i ∈ s, x i = 0 ∨ z i = 0) :
    excess s (fun i => x i + z i) n = excess s x n + excess s z n := by
  rw [excess, excess, excess, ← sum_add_distrib]
  refine sum_congr rfl fun i hi => ?_
  have := h i hi
  omega

theorem excess_take [DecidableEq ι] (hp : p ∈ s) :
    excess s x n = excess s (Function.update x p (x p - 1)) n + if n < x p then 1 else 0 := by
  have hrest : ∑ i ∈ s.erase p, (Function.update x p (x p - 1) i - n) =
      ∑ i ∈ s.erase p, (x i - n) :=
    sum_congr rfl fun i hi => by rw [Function.update_of_ne (ne_of_mem_erase hi)]
  rw [excess, excess, ← add_sum_erase s _ hp, ← add_sum_erase s _ hp, hrest, Function.update_self]
  split
  · omega
  · omega

/-- Amounts that are none or beyond `n` make up all of the work: `n` each, and the excess. -/
theorem sum_of_beyond (h : ∀ i ∈ s, 0 < x i → n < x i) :
    ∑ i ∈ s, x i = excess s x n + n * #{i ∈ s | n < x i} := by
  rw [excess, mul_comm, card_filter, sum_mul, ← sum_add_distrib]
  refine sum_congr rfl fun i hi => ?_
  have := h i hi
  split
  · omega
  · omega

/-- A positive amount within the bound is work besides. -/
theorem lt_sum_of_within (hq : q ∈ s) (hpos : 0 < x q) (hle : x q ≤ n) :
    excess s x n + n * #{i ∈ s | n < x i} < ∑ i ∈ s, x i := by
  rw [excess, mul_comm, card_filter, sum_mul, ← sum_add_distrib]
  refine sum_lt_sum (fun i _ => ?_) ⟨q, hq, ?_⟩
  · split
    · omega
    · omega
  · rw [if_neg (Nat.not_lt.2 hle)]
    omega

/-! ## Majorization -/

/-- `x` has the same work as `y`, and no less of it beyond any bound. -/
structure Majorizes (s : Finset ι) (x y : ι → Nat) : Prop where
  total : ∑ i ∈ s, x i = ∑ i ∈ s, y i
  excess : ∀ n, excess s y n ≤ excess s x n

namespace Majorizes

theorem refl (s : Finset ι) (x : ι → Nat) : Majorizes s x x := ⟨rfl, fun _ => Nat.le_refl _⟩

theorem congr (h : Majorizes s x y) (hx : ∀ i ∈ s, x' i = x i) (hy : ∀ i ∈ s, y' i = y i) :
    Majorizes s x' y' := by
  refine ⟨?_, fun n => ?_⟩
  · rw [sum_congr rfl hx, sum_congr rfl hy, h.total]
  · rw [excess_congr hx, excess_congr hy]
    exact h.excess n

/-- At most as many amounts are positive. -/
theorem card_le (h : Majorizes s x y) : #{i ∈ s | 0 < x i} ≤ #{i ∈ s | 0 < y i} := by
  have htotal : Uniprocessor.excess s x 0 = Uniprocessor.excess s y 0 := h.total
  rw [excess_succ, excess_succ (x := y), Nat.zero_add] at htotal
  have := h.excess 1
  omega

/-- The same new work for members that have none. -/
theorem add (h : Majorizes s x y) (hx : ∀ i ∈ s, x i = 0 ∨ z i = 0)
    (hy : ∀ i ∈ s, y i = 0 ∨ z i = 0) :
    Majorizes s (fun i => x i + z i) (fun i => y i + z i) := by
  refine ⟨?_, fun n => ?_⟩
  · rw [sum_add_distrib, sum_add_distrib, h.total]
  · rw [excess_add hx, excess_add hy]
    exact Nat.add_le_add_right (h.excess n) _

/-- Where all positive amounts of `x` are beyond `n` and one of `y` is not, `x` has more beyond
`n`. -/
theorem excess_lt (h : Majorizes s x y) (hx : ∀ i ∈ s, 0 < x i → n < x i) (hq : q ∈ s)
    (hpos : 0 < y q) (hle : y q ≤ n) : Uniprocessor.excess s y n < Uniprocessor.excess s x n := by
  have hfull := sum_of_beyond hx
  have hpart := lt_sum_of_within hq hpos hle
  have hnext := h.excess (n + 1)
  rw [← h.total] at hpart
  by_contra hlt
  -- the amounts of `y` beyond `n` are then as many as those of `x`, and make up all the work
  have hcard : #{i ∈ s | n < x i} ≤ #{i ∈ s | n < y i} := by
    have hsx := excess_succ (s := s) (x := x) (n := n)
    have hsy := excess_succ (s := s) (x := y) (n := n)
    omega
  have hmul := Nat.mul_le_mul_left n hcard
  omega

/-- One unit less, of the least positive amount on the one side and of any on the other. -/
theorem take [DecidableEq ι] (h : Majorizes s x y) (hp : p ∈ s) (hxp : 0 < x p)
    (hleast : ∀ i ∈ s, 0 < x i → x p ≤ x i) (hq : q ∈ s) (hyq : 0 < y q) :
    Majorizes s (Function.update x p (x p - 1)) (Function.update y q (y q - 1)) := by
  have htake := fun n => excess_take (x := x) (n := n) hp
  have htake' := fun n => excess_take (x := y) (n := n) hq
  refine ⟨?_, fun n => ?_⟩
  · have hx := htake 0
    have hy := htake' 0
    rw [if_pos hxp, excess_zero, excess_zero] at hx
    rw [if_pos hyq, excess_zero, excess_zero] at hy
    have := h.total
    omega
  · have hx := htake n
    have hy := htake' n
    have hle := h.excess n
    by_cases hqn : n < y q
    · rw [if_pos hqn] at hy
      split at hx
      · omega
      · omega
    · rw [if_neg hqn] at hy
      by_cases hpn : n < x p
      · rw [if_pos hpn] at hx
        have hlt := h.excess_lt (n := n)
          (fun i hi hpos => Nat.lt_of_lt_of_le hpn (hleast i hi hpos)) hq hyq (Nat.le_of_not_lt hqn)
        omega
      · rw [if_neg hpn] at hx
        omega

end Majorizes

end Uniprocessor
