import Uniprocessor.Json.Number
import Uniprocessor.Json.Text
/-
  Reading values whose kind is known from their place.

  A value of another kind is read as far as is needed to name it, so that an error of grammar in
  it comes before the error that it does not fit.
-/

namespace Uniprocessor.Json

/-- Reads the rest of a word. -/
def readWord : List Char → Reader Unit
  | [], s => .ok ((), s)
  | _ :: _, [] => .error .endInValue
  | w :: word, c :: rest => if w = c then readWord word rest else .error .expectedIdent

/-- Refuses the value at the start of the text, which is not blank. -/
def mismatch {α : Type} (wanted : Wanted) : Reader α
  | 'n' :: rest => do
    let _ ← readWord ['u', 'l', 'l'] rest
    .error (.invalidType .null wanted)
  | 't' :: rest => do
    let _ ← readWord ['r', 'u', 'e'] rest
    .error (.invalidType (.boolean true) wanted)
  | 'f' :: rest => do
    let _ ← readWord ['a', 'l', 's', 'e'] rest
    .error (.invalidType (.boolean false) wanted)
  | '\"' :: rest => do
    let (s, _) ← readTextBody rest
    .error (.invalidType (.text s) wanted)
  | '[' :: _ => .error (.invalidType .array wanted)
  | '\x7b' :: _ => .error (.invalidType .object wanted)
  | c :: rest =>
    if c = '-' ∨ Text.isDigit c then do
      let (n, _) ← readNumber (c :: rest)
      .error (.invalidType n.found wanted)
    else .error .expectedValue
  | [] => .error .endInValue

/-- Reads a value that may be `null`. -/
def readOptional {α : Type} (read : Reader α) : Reader (Option α) := fun s =>
  match skipBlank s with
  | 'n' :: rest => do
    let (_, rest) ← readWord ['u', 'l', 'l'] rest
    return (none, rest)
  | rest => do
    let (a, rest) ← read rest
    return (some a, rest)

/-- Whether the text starts with a number. -/
def startsWithNumber : List Char → Bool
  | [] => false
  | c :: _ => c == '-' || Text.isDigit c

/-- Reads a whole number below `bound`. -/
def readNatural (wanted : Wanted) (bound : Nat) : Reader Nat := fun s =>
  let s := skipBlank s
  if startsWithNumber s then do
    let (n, rest) ← readNumber s
    match n with
    | .natural n =>
      if n < bound then return (n, rest)
      else .error (.invalidValue (.integer n) wanted)
    | .negative n => .error (.invalidValue (.integer n) wanted)
    | .float x => .error (.invalidType (.float x) wanted)
  else mismatch wanted s

/-- Reads a string. -/
def readText : Reader String := fun s =>
  match skipBlank s with
  | '\"' :: rest => readTextBody rest
  | rest => mismatch .text rest

/-- Reads a truth value. -/
def readBoolean : Reader Bool := fun s =>
  match skipBlank s with
  | 't' :: rest => do
    let (_, rest) ← readWord ['r', 'u', 'e'] rest
    return (true, rest)
  | 'f' :: rest => do
    let (_, rest) ← readWord ['a', 'l', 's', 'e'] rest
    return (false, rest)
  | rest => mismatch .boolean rest

/-- Goes to the next element of a list, or to its end.  The text behind the answer starts at
the element or at the bracket. -/
def nextElement (first : Bool) (s : List Char) : Except Error (Bool × List Char) :=
  match skipBlank s with
  | [] => .error .endInList
  | ']' :: rest => .ok (false, ']' :: rest)
  | c :: rest =>
    if first then .ok (true, c :: rest)
    else if c = ',' then
      match skipBlank rest with
      | [] => .error .endInValue
      | ']' :: _ => .error .trailingComma
      | rest => .ok (true, rest)
    else .error .expectedCommaOrBracket

/-- Reads the end of a list whose elements have all been read. -/
def endOfList : Reader Unit := fun s =>
  match skipBlank s with
  | [] => .error .endInList
  | ']' :: rest => .ok ((), rest)
  | ',' :: rest =>
    match skipBlank rest with
    | ']' :: _ => .error .trailingComma
    | _ => .error .trailingCharacters
  | _ => .error .trailingCharacters

/-- Reads the elements of a list, at most `fuel` of them. -/
def readElements {α : Type} (read : Reader α) (fuel : Nat) (first : Bool) : Reader (List α) :=
  fun s =>
    match fuel with
    | 0 => .error .endInList
    | fuel + 1 => do
      let (more, rest) ← nextElement first s
      if more then
        let (a, rest) ← read rest
        let (as, rest) ← readElements read fuel false rest
        return (a :: as, rest)
      return ([], rest)

/-- Reads a list. -/
def readList {α : Type} (read : Reader α) : Reader (List α) := fun s =>
  match skipBlank s with
  | '[' :: rest => do
    let (as, rest) ← readElements read (rest.length + 1) true rest
    let (_, rest) ← endOfList rest
    return (as, rest)
  | rest => mismatch .sequence rest

end Uniprocessor.Json
