import Uniprocessor.Text.Blank
import Uniprocessor.Text.Combining
import Uniprocessor.Text.Unprintable
/-
  Quoted texts in messages.  A text stands between double quotes; the quote, the backslash and
  the common controls are written with a backslash, and every other character that would not
  print, or would combine with its neighbour, by its code point in braces.
-/

namespace Uniprocessor.Text

/-- The lower-case hexadecimal digits of a code point. -/
def hexDigits (n : Nat) : List Char := Nat.toDigits 16 n

/-- A character by its code point. -/
def escapeCode (c : Char) : List Char :=
  ['\\', 'u', '\x7b'] ++ hexDigits c.toNat ++ ['\x7d']

/-- Whether a character is written by its code point. -/
def needsCode (c : Char) : Bool :=
  inRanges combiningRanges c || inRanges unprintableRanges c

/-- A character as it is written between the quotes. -/
def escapeChar (c : Char) : List Char :=
  if c = '\x00' then ['\\', '0']
  else if c = '\t' then ['\\', 't']
  else if c = '\r' then ['\\', 'r']
  else if c = '\n' then ['\\', 'n']
  else if c = '\\' then ['\\', '\\']
  else if c = '\"' then ['\\', '\"']
  else if needsCode c then escapeCode c
  else [c]

/-- A text between quotes. -/
def quoted (s : String) : String :=
  String.ofList (['\"'] ++ s.toList.flatMap escapeChar ++ ['\"'])

end Uniprocessor.Text
