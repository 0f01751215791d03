/-
  The first extreme element of a list.

  `firstMaxBy` and `firstMinBy` go through a list once and replace the best element so far only
  by a strictly better one, so that the earliest of equals wins.
-/

namespace Uniprocessor

variable {α κ : Type}

/-- The last element of `x :: l` that beats every best element before it. -/
def champion (beats : α → α → Bool) (x : α) : List α → α
  | [] => x
  | y :: l => champion beats (if beats y x then y else x) l

/-- The earliest element whose key is greatest. -/
def firstMaxBy [LT κ] [DecidableLT κ] (key : α → κ) : List α → Option α
  | [] => none
  | x :: l => some (champion (fun y best => decide (key best < key y)) x l)

/-- The earliest element whose key is least. -/
def firstMinBy [LT κ] [DecidableLT κ] (key : α → κ) : List α → Option α
  | [] => none
  | x :: l => some (champion (fun y best => decide (key y < key best)) x l)

theorem firstMaxBy_eq_none [LT κ] [DecidableLT κ] {key : α → κ} {l : List α} :
    firstMaxBy key l = none ↔ l = [] := by
  cases l <;> simp [firstMaxBy]

theorem firstMinBy_eq_none [LT κ] [DecidableLT κ] {key : α → κ} {l : List α} :
    firstMinBy key l = none ↔ l = [] := by
  cases l <;> simp [firstMinBy]

end Uniprocessor
