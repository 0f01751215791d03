import Mathlib.Algebra.BigOperators.Fin
import Mathlib.Algebra.Order.Chebyshev
import Mathlib.Algebra.Order.Field.Rat
import Mathlib.Tactic.FieldSimp
import Mathlib.Tactic.Ring
import Uniprocessor.Distribution
/-
  The moments of a row of values.

  `ofRow` says each part of a distribution by the row as a whole, and adding the values of a row one
  by one computes it (`addAll_ofRow`) until the sum leaves its word.  The sum of squares is at most
  the square of the sum, so that its wider word never overflows first (`squares_le_ofRow`).  The
  count is not checked: no row in memory has as many values as a word has numbers.

  The mean and the variance are here those of exact arithmetic.  The variance, computed from the
  sums in one pass, is the mean of the squared deviations from the mean (`variance_ofRow`).

  Main statement: `moments_exact`.
-/

namespace Uniprocessor

namespace Distribution

/-- The distribution of a row, each part by the whole row. -/
def ofRow (vs : List Nat) : Distribution where
  count := vs.length
  min := vs.min?.getD 0
  max := vs.max?.getD 0
  sum := vs.sum
  sumOfSquares := (vs.map fun v => v * v).sum

/-- The mean in exact arithmetic, 0 if there is no value. -/
def exactMean (d : Distribution) : ℚ := d.sum / d.count

/-- The variance in exact arithmetic, computed as the deviation is. -/
def exactVariance (d : Distribution) : ℚ :=
  d.sumOfSquares / d.count - d.exactMean * d.exactMean

variable {vs ws : List Nat} {v : Nat}

/-! ## The row as a whole -/

theorem next_ofRow (vs : List Nat) (v : Nat) : (ofRow vs).next v = ofRow (vs ++ [v]) := by
  cases vs with
  | nil => simp [next, ofRow]
  | cons x l =>
    have hmin : (x :: (l ++ [v])).min?.getD 0 = Nat.min ((x :: l).min?.getD 0) v := by
      simp only [List.min?_cons', List.foldl_append]
      rfl
    have hmax : (x :: (l ++ [v])).max?.getD 0 = Nat.max ((x :: l).max?.getD 0) v := by
      simp only [List.max?_cons', List.foldl_append]
      rfl
    simp only [next, ofRow, List.cons_append, hmin, hmax]
    simp [Nat.add_assoc]

theorem squares_le_ofRow (vs : List Nat) :
    (ofRow vs).sumOfSquares ≤ (ofRow vs).sum * (ofRow vs).sum := by
  induction vs using List.reverseRecOn with
  | nil => exact Nat.le_refl 0
  | append_singleton vs v ih =>
    rw [← next_ofRow]
    exact squares_le v ih

/-- The order of the values does not matter. -/
theorem ofRow_perm (h : ws.Perm vs) : ofRow ws = ofRow vs := by
  have hmin : ws.min? = vs.min? := by
    apply Option.ext
    simp only [List.min?_eq_some_iff, h.mem_iff, implies_true]
  have hmax : ws.max? = vs.max? := by
    apply Option.ext
    simp only [List.max?_eq_some_iff, h.mem_iff, implies_true]
  simp only [ofRow, h.length_eq, hmin, hmax, h.sum_eq, (h.map _).sum_eq]

/-! ## Adding one by one -/

/-- One more value fits as long as the sum does. -/
theorem add_ofRow (vs : List Nat) (v : Nat) :
    (ofRow vs).add v =
      if vs.sum + v < tickBound then .ok (ofRow (vs ++ [v])) else .error .sumOverflow := by
  have hsquares := squares_le v (squares_le_ofRow vs)
  rw [add_eq, next_ofRow]
  exact if_congr (and_iff_left_of_imp (squares_lt hsquares)) rfl rfl

theorem addAll_ofRow (h : vs.sum < tickBound) :
    addAll ws (ofRow vs) =
      if (vs ++ ws).sum < tickBound then .ok (ofRow (vs ++ ws)) else .error .sumOverflow := by
  induction ws generalizing vs with
  | nil => rw [List.append_nil, if_pos h, addAll]
  | cons w ws ih =>
    have hsum : (vs ++ w :: ws).sum = vs.sum + w + ws.sum := by simp [Nat.add_assoc]
    rw [addAll, add_ofRow]
    by_cases hw : vs.sum + w < tickBound
    · rw [if_pos hw, List.append_cons vs w ws]
      exact ih (by rwa [List.sum_append, List.sum_singleton])
    · rw [if_neg hw, if_neg (by omega)]
      rfl

/-! ## Bounds -/

theorem min_le_of_mem (h : v ∈ vs) : (ofRow vs).min ≤ v := by
  change vs.min?.getD 0 ≤ v
  cases hmin : vs.min? with
  | none => exact Nat.zero_le v
  | some a => exact (List.min?_eq_some_iff.1 hmin).2 v h

theorem le_max_of_mem (h : v ∈ vs) : v ≤ (ofRow vs).max := by
  change v ≤ vs.max?.getD 0
  cases hmax : vs.max? with
  | none =>
    rw [List.max?_eq_none_iff.1 hmax] at h
    cases h
  | some a => exact (List.max?_eq_some_iff.1 hmax).2 v h

theorem count_mul_min_le (vs : List Nat) :
    (ofRow vs).count * (ofRow vs).min ≤ (ofRow vs).sum := by
  have h := List.card_nsmul_le_sum vs (ofRow vs).min fun v => min_le_of_mem
  rwa [nsmul_eq_mul] at h

theorem sum_le_count_mul_max (vs : List Nat) :
    (ofRow vs).sum ≤ (ofRow vs).count * (ofRow vs).max := by
  have h := List.sum_le_card_nsmul vs (ofRow vs).max fun v => le_max_of_mem
  rwa [nsmul_eq_mul] at h

theorem sum_sq_le (vs : List Nat) :
    (ofRow vs).sum ^ 2 ≤ (ofRow vs).count * (ofRow vs).sumOfSquares := by
  have h := sq_sum_le_card_mul_sum_sq (s := Finset.univ) (f := fun i : Fin vs.length => vs[i.val])
  rw [Fin.sum_univ_getElem, Fin.sum_univ_fun_getElem vs fun v => v ^ 2, Finset.card_univ,
    Fintype.card_fin, Nat.cast_id] at h
  simpa only [ofRow, sq] using h

/-! ## The variance -/

/-- The squares of the deviations from any number. -/
theorem sum_deviations (vs : List Nat) (m : ℚ) :
    (vs.map fun v : Nat => ((v : ℚ) - m) ^ 2).sum =
      (ofRow vs).sumOfSquares - 2 * m * (ofRow vs).sum + (ofRow vs).count * m ^ 2 := by
  induction vs with
  | nil => simp [ofRow]
  | cons v vs ih =>
    simp only [List.map_cons, List.sum_cons, ih, ofRow, List.length_cons]
    push_cast
    ring

theorem variance_ofRow (vs : List Nat) :
    (ofRow vs).exactVariance =
      (vs.map fun v : Nat => ((v : ℚ) - (ofRow vs).exactMean) ^ 2).sum / (ofRow vs).count := by
  rw [sum_deviations, exactVariance, exactMean]
  by_cases h : ((ofRow vs).count : ℚ) = 0
  · simp [h]
  · field_simp
    ring

theorem exactVariance_nonneg (vs : List Nat) : 0 ≤ (ofRow vs).exactVariance := by
  rw [variance_ofRow]
  refine div_nonneg (List.sum_nonneg fun x hx => ?_) (Nat.cast_nonneg _)
  obtain ⟨v, -, rfl⟩ := List.mem_map.1 hx
  exact sq_nonneg _

/-- Adding a row one by one fails exactly if its sum leaves its word, and else makes of it the
count, the extremes and the sums of the whole row, in whatever order the values come.  The sum of
squares has room for whatever the sum has room for.  The sum lies between the extremes times the
count, and its square is at most the sum of squares times the count: the variance, which is the mean
of the squared deviations from the mean, is not negative. -/
theorem moments_exact (vs : List Nat) :
    addAll vs .empty = (if vs.sum < tickBound then .ok (ofRow vs) else .error .sumOverflow) ∧
    (∀ ws, ws.Perm vs → addAll ws .empty = addAll vs .empty) ∧
    ∀ d, addAll vs .empty = .ok d →
      (∀ v s, addTicks d.sum v = .ok s → ∃ q, addSquare d.sumOfSquares v = .ok q) ∧
      d.count * d.min ≤ d.sum ∧ d.sum ≤ d.count * d.max ∧
      d.sum ^ 2 ≤ d.count * d.sumOfSquares ∧
      d.exactVariance = (vs.map fun v : Nat => ((v : ℚ) - d.exactMean) ^ 2).sum / d.count ∧
      0 ≤ d.exactVariance := by
  have hadd (ws : List Nat) : addAll ws .empty =
      if ws.sum < tickBound then .ok (ofRow ws) else .error .sumOverflow :=
    @addAll_ofRow [] ws (by decide)
  refine ⟨hadd vs, fun ws hperm => ?_, fun d hd => ?_⟩
  · rw [hadd, hadd, hperm.sum_eq, ofRow_perm hperm]
  · obtain rfl : ofRow vs = d := by
      rw [hadd] at hd
      split at hd
      · exact Except.ok.inj hd
      · cases hd
    refine ⟨fun v s hs => ?_, count_mul_min_le vs, sum_le_count_mul_max vs, sum_sq_le vs,
      variance_ofRow vs, exactVariance_nonneg vs⟩
    have hsquares := squares_lt (squares_le v (squares_le_ofRow vs)) (addTicks_eq_ok.1 hs).1
    exact ⟨_, if_pos hsquares⟩

/-- A row whose sum is the greatest number of its word. -/
theorem moments_exact_brimming :
    addAll [7, tickBound - 8] .empty = addAll [tickBound - 8, 7] .empty ∧
    addAll [tickBound - 8, 7] .empty =
      .ok ⟨2, 7, tickBound - 8, tickBound - 1, (tickBound - 8) * (tickBound - 8) + 49⟩ ∧
    (∃ q, addSquare ((tickBound - 8) * (tickBound - 8) + 49) 0 = .ok q) ∧
    (tickBound - 1) ^ 2 ≤ 2 * ((tickBound - 8) * (tickBound - 8) + 49) := by
  have hrow : addAll [tickBound - 8, 7] .empty =
    .ok ⟨2, 7, tickBound - 8, tickBound - 1, (tickBound - 8) * (tickBound - 8) + 49⟩ := by decide
  obtain ⟨-, hperm, hbounds⟩ := moments_exact [tickBound - 8, 7]
  obtain ⟨hroom, -, -, hsq, -⟩ := hbounds _ hrow
  exact ⟨hperm _ (by decide), hrow, hroom 0 (tickBound - 1) (by decide), hsq⟩

end Distribution

end Uniprocessor
