import Uniprocessor.Text.Numeral
/-
  What the decimal digits of a number denote.

  A number is written without leading zeros, so `Text.digitsValue` gives it back; and its digits
  end where the next character is no digit.
-/

namespace Uniprocessor.Text

variable {c : Char} {n : Nat}

theorem isDigit_eq (c : Char) : isDigit c = c.isDigit := rfl

theorem digitsValue_eq (n : Nat) (l : List Char) : digitsValue n l = Nat.ofDigitChars 10 l n := rfl

@[simp] theorem digitsValue_toDigits (n : Nat) : digitsValue 0 (Nat.toDigits 10 n) = n := by
  rw [digitsValue_eq, Nat.ofDigitChars_ten_toDigits]

theorem isDigit_of_mem (h : c ∈ Nat.toDigits 10 n) : isDigit c = true := by
  rw [isDigit_eq]
  exact Nat.isDigit_of_mem_toDigits (by decide) (by decide) h

theorem not_mem_toDigits (h : isDigit c = false) : c ∉ Nat.toDigits 10 n := by
  intro hmem
  rw [isDigit_of_mem hmem] at h
  cases h

end Uniprocessor.Text
