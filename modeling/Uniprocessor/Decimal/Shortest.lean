import Uniprocessor.Decimal.Binary64
/-
  Floats by the fewest digits that read back.

  For one digit, two digits and so on, the two neighbours of the value with that many digits are
  tested; the first count at which one reads back wins, and of two the nearer, the even one on
  a tie.
-/

namespace Uniprocessor.Decimal

/-- The positive decimal `digits * 10 ^ exponent`. -/
structure Digits where
  digits : Nat
  exponent : Int

/-- A positive float with the numbers that round to it, in units of `num / den`: from `low` to
`high`, with the ends if `closed`. -/
structure Interval where
  low : Nat
  value : Nat
  high : Nat
  num : Nat
  den : Nat
  closed : Bool

/-- The interval of a positive float, in quarters of its last place. -/
def Interval.of (p : FloatParts) : Interval :=
  let v := 4 * p.significand
  let e := p.exponent - 2
  { low := if p.atBinade then v - 1 else v - 2
    value := v
    high := v + 2
    num := Nat.pow 2 e.toNat
    den := Nat.pow 2 (-e).toNat
    closed := p.significand % 2 == 0 }

/-- Whether the decimal `d * 10 ^ e` reads back as the float. -/
def Interval.contains (i : Interval) (d : Nat) (e : Int) : Bool :=
  let x := d * Nat.pow 10 e.toNat * i.den
  let scale := Nat.pow 10 (-e).toNat * i.num
  if i.closed then decide (i.low * scale ≤ x) && decide (x ≤ i.high * scale)
  else decide (i.low * scale < x) && decide (x < i.high * scale)

/-- The decimal exponent of the first digit of the value. -/
def Interval.magnitude (i : Interval) : Int :=
  let n := i.value * i.num
  if i.den ≤ n then ((Nat.toDigits 10 (n / i.den)).length : Int) - 1
  else
    match (List.range 400).find? fun j => decide (i.den ≤ n * Nat.pow 10 j) with
    | some j => -(j : Int)
    | none => -400

/-- The best decimal of `count` digits, if one reads back. -/
def Interval.withDigits? (i : Interval) (count : Nat) : Option Digits :=
  let e := i.magnitude - (count : Int) + 1
  let x := i.value * i.num * Nat.pow 10 (-e).toNat
  let unit := i.den * Nat.pow 10 e.toNat
  let d := x / unit
  match i.contains d e, i.contains (d + 1) e with
  | true, true => some ⟨roundHalfEven x unit, e⟩
  | true, false => some ⟨d, e⟩
  | false, true => some ⟨d + 1, e⟩
  | false, false => none

/-- A decimal without zeros at its end. -/
def Digits.strip (fuel : Nat) (d : Digits) : Digits :=
  match fuel with
  | 0 => d
  | fuel + 1 =>
    if d.digits % 10 = 0 ∧ d.digits ≠ 0 then Digits.strip fuel ⟨d.digits / 10, d.exponent + 1⟩
    else d

/-- The decimal of the fewest digits that reads back as a positive float. -/
def shortest (p : FloatParts) : Digits :=
  let i := Interval.of p
  match (List.range 17).findSome? fun n => i.withDigits? (n + 1) with
  | some d => d.strip 20
  | none => ⟨0, 0⟩

/-- An exponent with its sign. -/
def exponentText (e : Int) : String := (if e < 0 then "-" else "+") ++ Nat.repr e.natAbs

/-- A decimal with a point if its first digit stands for `10 ^ (-5)` to `10 ^ 15`, and with an
exponent otherwise. -/
def Digits.text (d : Digits) : String :=
  let ds := Nat.toDigits 10 d.digits
  let first := d.exponent + (ds.length : Int) - 1
  let chars :=
    if first < -5 ∨ 15 < first then
      match ds with
      | [c] => [c, 'e'] ++ (exponentText first).toList
      | c :: rest => c :: '.' :: rest ++ ['e'] ++ (exponentText first).toList
      | [] => []
    else if first < 0 then '0' :: '.' :: List.replicate (-first - 1).toNat '0' ++ ds
    else if 0 ≤ d.exponent then ds ++ List.replicate d.exponent.toNat '0' ++ ['.', '0']
    else ds.take (first.toNat + 1) ++ ['.'] ++ ds.drop (first.toNat + 1)
  String.ofList chars

/-- A finite float by the fewest digits. -/
def floatText (x : Float) : String :=
  let p := FloatParts.of x
  (if p.negative then "-" else "") ++
    (if p.significand = 0 then "0.0" else (shortest p).text)

end Uniprocessor.Decimal
