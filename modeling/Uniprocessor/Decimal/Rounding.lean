/-
  Rounding quotients to the nearest whole number, a half to the even neighbour.
-/

namespace Uniprocessor.Decimal

/-- The whole number nearest to `num / den`; of two, the even one. -/
def roundHalfEven (num den : Nat) : Nat :=
  let q := num / den
  let r := num % den
  if 2 * r < den then q
  else if den < 2 * r then q + 1
  else q + q % 2

/-- The result lies within half a unit of the quotient. -/
theorem roundHalfEven_near (num : Nat) {den : Nat} (h : 0 < den) :
    2 * (roundHalfEven num den * den) ≤ 2 * num + den ∧
      2 * num ≤ 2 * (roundHalfEven num den * den) + den := by
  have e : den * (num / den) + num % den = num := Nat.div_add_mod num den
  have r : num % den < den := Nat.mod_lt num h
  simp only [roundHalfEven]
  generalize num / den = q at e ⊢
  generalize num % den = m at e r ⊢
  have c : q * den = den * q := Nat.mul_comm q den
  have d : (q + 1) * den = den * q + den := by rw [Nat.mul_comm, Nat.mul_succ]
  split
  · omega
  · split
    · omega
    · rcases Nat.mod_two_eq_zero_or_one q with h2 | h2 <;> rw [h2]
      · simp only [Nat.add_zero]; omega
      · omega

end Uniprocessor.Decimal
