import Uniprocessor.Json.Error
/-
  Reading strings behind their opening quote.  A character outside the basic plane may be
  written as two escapes, its surrogates; a surrogate alone is an error.
-/

namespace Uniprocessor.Json

/-- The value of a hexadecimal digit. -/
def hexValue? (c : Char) : Option Nat :=
  if '0' ≤ c ∧ c ≤ '9' then some (c.toNat - '0'.toNat)
  else if 'a' ≤ c ∧ c ≤ 'f' then some (c.toNat - 'a'.toNat + 10)
  else if 'A' ≤ c ∧ c ≤ 'F' then some (c.toNat - 'A'.toNat + 10)
  else none

/-- The number of bytes of a text. -/
def byteCount (s : List Char) : Nat := s.foldr (fun c n => c.utf8Size + n) 0

/-- Whether fewer than four bytes are left. -/
def isShort (s : List Char) : Bool := decide (byteCount (s.take 4) < 4)

/-- Reads the four digits of an escape. -/
def readHex : Reader Nat := fun s =>
  if isShort s then .error .endInString
  else
    match s with
    | a :: b :: c :: d :: rest =>
      match hexValue? a, hexValue? b, hexValue? c, hexValue? d with
      | some a, some b, some c, some d => .ok (a * 4096 + b * 256 + c * 16 + d, rest)
      | _, _, _, _ => .error .invalidEscape
    | _ => .error .invalidEscape

/-- Whether a code unit is the first of a surrogate pair. -/
def isLeading (n : Nat) : Bool := decide (0xD800 ≤ n) && decide (n < 0xDC00)

/-- Whether a code unit is the second of a surrogate pair. -/
def isTrailing (n : Nat) : Bool := decide (0xDC00 ≤ n) && decide (n < 0xE000)

/-- The character of a surrogate pair. -/
def pairChar (n₁ n₂ : Nat) : Char :=
  Char.ofNat ((n₁ - 0xD800) * 1024 + (n₂ - 0xDC00) + 0x10000)

/-- Reads the second escape of the surrogate pair that `n` begins. -/
def readTrailing (n : Nat) : Reader Char
  | [] => .error .endInString
  | '\\' :: [] => .error .endInString
  | '\\' :: 'u' :: rest => do
    let (m, rest) ← readHex rest
    if isTrailing m then return (pairChar n m, rest)
    else .error .loneSurrogate
  | _ => .error .endOfHexEscape

/-- Reads an escape by code units, behind its `u`. -/
def readUnicode : Reader Char := fun s => do
  let (n, rest) ← readHex s
  if isTrailing n then .error .loneSurrogate
  else if isLeading n then readTrailing n rest
  else return (Char.ofNat n, rest)

/-- Reads an escape behind its backslash. -/
def readEscape : Reader Char
  | [] => .error .endInString
  | '\"' :: rest => .ok ('\"', rest)
  | '\\' :: rest => .ok ('\\', rest)
  | '/' :: rest => .ok ('/', rest)
  | 'b' :: rest => .ok ('\x08', rest)
  | 'f' :: rest => .ok ('\x0c', rest)
  | 'n' :: rest => .ok ('\n', rest)
  | 'r' :: rest => .ok ('\r', rest)
  | 't' :: rest => .ok ('\t', rest)
  | 'u' :: rest => readUnicode rest
  | _ => .error .invalidEscape

/-- Reads characters up to the closing quote, at most `fuel` of them. -/
def readChars (fuel : Nat) : Reader (List Char) := fun s =>
  match fuel, s with
  | 0, _ => .error .endInString
  | _ + 1, [] => .error .endInString
  | fuel + 1, c :: rest =>
    if c = '\"' then .ok ([], rest)
    else if c = '\\' then do
      let (d, rest) ← readEscape rest
      let (ds, rest) ← readChars fuel rest
      return (d :: ds, rest)
    else if c.toNat < 0x20 then .error .controlCharacter
    else do
      let (ds, rest) ← readChars fuel rest
      return (c :: ds, rest)

/-- Reads a string behind its opening quote. -/
def readTextBody : Reader String := fun s => do
  let (cs, rest) ← readChars (s.length + 1) s
  return (String.ofList cs, rest)

end Uniprocessor.Json
