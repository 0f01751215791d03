import Uniprocessor.Text.Pad
/-
  Tick stamps.  The digits of a tick are grouped by threes from the right with `_` between the
  groups, and stand at the right of nine columns.
-/

namespace Uniprocessor.Text

/-- Puts `_` before every digit that has a positive multiple of three digits from itself on. -/
def groupDigits : List Char → List Char
  | [] => []
  | c :: rest =>
    c :: (if rest ≠ [] ∧ rest.length % 3 = 0 then '_' :: groupDigits rest else groupDigits rest)

/-- The decimal digits of `v` in groups of three. -/
def grouped (v : Nat) : String := String.ofList (groupDigits (Nat.toDigits 10 v))

/-- The stamp of a tick. -/
def tickStamp (v : Nat) : String := "tick " ++ padLeft 9 (grouped v)

/-- The stamp of what happens outside a run. -/
def blankStamp : String := "tick " ++ padLeft 9 "-"

end Uniprocessor.Text
