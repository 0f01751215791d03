/-
  Reading decimal numerals from text.
-/

namespace Uniprocessor.Text

/-- Whether a character is one of the ten ASCII digits. -/
def isDigit (c : Char) : Bool := decide ('0' ≤ c) && decide (c ≤ '9')

/-- The value of an ASCII digit. -/
def digitValue (c : Char) : Nat := c.toNat - '0'.toNat

/-- The number that a row of digits denotes behind the digits of `n`. -/
def digitsValue (n : Nat) (s : List Char) : Nat := s.foldl (fun n c => 10 * n + digitValue c) n

/-- The number that a text denotes: digits, after an optional `+`, with a value below
`bound`. -/
def number? (bound : Nat) (s : List Char) : Option Nat :=
  let digits := match s with
    | '+' :: rest => rest
    | _ => s
  if digits ≠ [] ∧ digits.all isDigit ∧ digitsValue 0 digits < bound then
    some (digitsValue 0 digits)
  else none

end Uniprocessor.Text
