import Uniprocessor.Json.Error
import Uniprocessor.Text.Numeral
/-
  Reading numbers.  A number without a point and an exponent that fits 64 bits is exact; every
  other one becomes a float: its first digits, as many as fit 64 bits, times a power of ten.
-/

namespace Uniprocessor.Json

open Text (isDigit digitValue)

/-- A number of a JSON text. -/
inductive Number where
  | natural (n : Nat)
  | negative (n : Int)
  | float (x : Float)

/-- What was found where a number stands. -/
def Number.found : Number → Found
  | .natural n => .integer n
  | .negative n => .integer n
  | .float x => .float x

/-- The bound of the digits that are kept exactly. -/
def significandBound : Nat := 0x1_0000_0000_0000_0000

/-- Digits gathered behind `value`, as long as the value stays below the bound, with their
count. -/
def gather (value count : Nat) : List Char → Nat × Nat × List Char
  | [] => (value, count, [])
  | c :: rest =>
    if isDigit c ∧ 10 * value + digitValue c < significandBound then
      gather (10 * value + digitValue c) (count + 1) rest
    else (value, count, c :: rest)

/-- Whether the text starts with a digit. -/
def startsWithDigit : List Char → Bool
  | [] => false
  | c :: _ => isDigit c

/-- The digits at the start of the text, counted, and the rest. -/
def skipDigits (s : List Char) : Nat × List Char :=
  ((s.takeWhile isDigit).length, s.dropWhile isDigit)

/-- A float with its sign. -/
def signed (positive : Bool) (x : Float) : Float := if positive then x else -x

/-- Divides by `10 ^ k` in steps that a float can hold. -/
def divideByPower (x : Float) (fuel k : Nat) : Float :=
  match fuel with
  | 0 => x
  | fuel + 1 =>
    if k ≤ 308 then x / Decimal.floatOfNat (Nat.pow 10 k)
    else if x == 0.0 then x
    else divideByPower (x / Decimal.floatOfNat (Nat.pow 10 308)) fuel (k - 308)

/-- The float `significand * 10 ^ exponent`; one that is too large is an error. -/
def floatOf (positive : Bool) (significand : Nat) (exponent : Int) : Except Error Float :=
  let x := Decimal.floatOfNat significand
  if exponent < 0 then .ok (signed positive (divideByPower x 4 (-exponent).toNat))
  else if 308 < exponent then
    if significand = 0 then .ok (signed positive x) else .error .numberOutOfRange
  else
    let y := x * Decimal.floatOfNat (Nat.pow 10 exponent.toNat)
    if y.isInf then .error .numberOutOfRange else .ok (signed positive y)

/-- The bound of exponents. -/
def exponentBound : Nat := 0x8000_0000

/-- The digits of an exponent behind `value`; none if they reach the bound. -/
def exponentDigits (value : Nat) : List Char → Option Nat × List Char
  | [] => (some value, [])
  | c :: rest =>
    if isDigit c then
      if 10 * value + digitValue c < exponentBound then
        exponentDigits (10 * value + digitValue c) rest
      else (none, rest)
    else (some value, c :: rest)

/-- The sign of an exponent. -/
def exponentSign : List Char → Bool × List Char
  | '+' :: rest => (true, rest)
  | '-' :: rest => (false, rest)
  | rest => (true, rest)

/-- An exponent kept between the bounds. -/
def clampExponent (e : Int) : Int :=
  max (-(exponentBound : Int)) (min e ((exponentBound : Int) - 1))

/-- Reads an exponent behind its `e`, for digits that stand for
`significand * 10 ^ exponent`. -/
def readExponent (positive : Bool) (significand : Nat) (exponent : Int) : Reader Float :=
  fun s =>
    let (up, s) := exponentSign s
    match s with
    | [] => .error .endInValue
    | c :: rest =>
      if !isDigit c then .error .invalidNumber
      else
        match exponentDigits (digitValue c) rest with
        | (some e, rest) => do
          let shift := if up then exponent + e else exponent - e
          return (← floatOf positive significand (clampExponent shift), rest)
        | (none, rest) =>
          if significand ≠ 0 ∧ up then .error .numberOutOfRange
          else .ok (signed positive 0.0, (skipDigits rest).2)

/-- Reads what follows the digits of a float: an exponent or nothing. -/
def readFloatEnd (positive : Bool) (significand : Nat) (exponent : Int) : Reader Float
  | 'e' :: rest => readExponent positive significand exponent rest
  | 'E' :: rest => readExponent positive significand exponent rest
  | rest => do return (← floatOf positive significand exponent, rest)

/-- Reads the digits behind a point. -/
def readFraction (positive : Bool) (significand : Nat) (exponent : Int) : Reader Float :=
  fun s =>
    let (value, count, rest) := gather significand 0 s
    if startsWithDigit rest then
      readFloatEnd positive value (exponent - count) (skipDigits rest).2
    else if count = 0 then .error (if rest.isEmpty then .endInValue else .invalidNumber)
    else readFloatEnd positive value (exponent - count) rest

/-- The greatest size of a negative number that is kept exactly. -/
def negativeBound : Nat := 0x8000_0000_0000_0000

/-- The number of a row of digits without point and exponent. -/
def wholeNumber (positive : Bool) (n : Nat) : Number :=
  if positive then .natural n
  else if n = 0 ∨ negativeBound < n then .float (-(Decimal.floatOfNat n))
  else .negative (-(n : Int))

/-- Reads what follows the digits before the point. -/
def readNumberEnd (positive : Bool) (significand : Nat) : Reader Number
  | '.' :: rest => do
    let (x, rest) ← readFraction positive significand 0 rest
    return (.float x, rest)
  | 'e' :: rest => do
    let (x, rest) ← readExponent positive significand 0 rest
    return (.float x, rest)
  | 'E' :: rest => do
    let (x, rest) ← readExponent positive significand 0 rest
    return (.float x, rest)
  | rest => .ok (wholeNumber positive significand, rest)

/-- Reads what follows digits that do not fit: they only count. -/
def readLongEnd (positive : Bool) (significand : Nat) (s : List Char) :
    Except Error (Number × List Char) :=
  let (count, rest) := skipDigits s
  match rest with
  | '.' :: rest => do
    let (x, rest) ← readFraction positive significand count rest
    return (.float x, rest)
  | _ => do
    let (x, rest) ← readFloatEnd positive significand count rest
    return (.float x, rest)

/-- Reads the digits of a number, whose sign has been read. -/
def readDigits (positive : Bool) : Reader Number
  | [] => .error .endInValue
  | '0' :: rest =>
    if startsWithDigit rest then .error .invalidNumber else readNumberEnd positive 0 rest
  | c :: rest =>
    if !isDigit c then .error .invalidNumber
    else
      let (value, _, rest) := gather (digitValue c) 1 rest
      if startsWithDigit rest then readLongEnd positive value rest
      else readNumberEnd positive value rest

/-- Reads a number that starts with a sign or a digit. -/
def readNumber : Reader Number
  | '-' :: rest => readDigits false rest
  | rest => readDigits true rest

end Uniprocessor.Json
