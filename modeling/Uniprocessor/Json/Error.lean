import Uniprocessor.Decimal.Shortest
import Uniprocessor.Text.Quoted
/-
  What can be wrong with a JSON text that is read into records.

  An error is about the grammar, about an early end of the text, or about a value that does not
  fit its place; `Error.message` is the wording of each.
-/

namespace Uniprocessor.Json

/-- What a place in the text calls for. -/
inductive Wanted where
  /-- A number below 2 ^ 32. -/
  | word32
  /-- A number below 2 ^ 64. -/
  | word64
  /-- A position or a size below 2 ^ 64. -/
  | size
  | text
  | boolean
  | sequence
  | record (name : String)

/-- The words for what is called for. -/
def Wanted.words : Wanted → String
  | .word32 => "u32"
  | .word64 => "u64"
  | .size => "usize"
  | .text => "a string"
  | .boolean => "a boolean"
  | .sequence => "a sequence"
  | .record name => "struct " ++ name

/-- What stands at a place instead. -/
inductive Found where
  | null
  | boolean (b : Bool)
  | integer (n : Int)
  | float (x : Float)
  | text (s : String)
  | array
  | object

/-- The words for what was found. -/
def Found.words : Found → String
  | .null => "null"
  | .boolean true => "boolean `true`"
  | .boolean false => "boolean `false`"
  | .integer n => "integer `" ++ (if n < 0 then "-" else "") ++ Nat.repr n.natAbs ++ "`"
  | .float x => "floating point `" ++ Decimal.floatText x ++ "`"
  | .text s => "string " ++ Text.quoted s
  | .array => "sequence"
  | .object => "map"

/-- What is wrong with a text. -/
inductive Error where
  | endInValue
  | endInList
  | endInObject
  | endInString
  | expectedValue
  | expectedIdent
  | expectedColon
  | expectedCommaOrBrace
  | expectedCommaOrBracket
  | keyNotString
  | trailingComma
  | trailingCharacters
  | invalidNumber
  | numberOutOfRange
  | invalidEscape
  | loneSurrogate
  | endOfHexEscape
  | controlCharacter
  | invalidType (found : Found) (wanted : Wanted)
  | invalidValue (found : Found) (wanted : Wanted)
  | invalidLength (length : Nat) (record : String) (size : Nat)
  | missingField (name : String)
  | duplicateField (name : String)
  | unknownField (name : String) (known : List String)

/-- The three kinds of errors. -/
inductive Category where
  | grammar
  | data
  | earlyEnd
  deriving DecidableEq

namespace Error

/-- The kind of an error. -/
def category : Error → Category
  | .endInValue | .endInList | .endInObject | .endInString => .earlyEnd
  | .invalidType _ _ | .invalidValue _ _ | .invalidLength _ _ _ | .missingField _
  | .duplicateField _ | .unknownField _ _ => .data
  | _ => .grammar

/-- A name between backquotes. -/
def tick (s : String) : String := "`" ++ s ++ "`"

/-- The wording of an error. -/
def message : Error → String
  | .endInValue => "EOF while parsing a value"
  | .endInList => "EOF while parsing a list"
  | .endInObject => "EOF while parsing an object"
  | .endInString => "EOF while parsing a string"
  | .expectedValue => "expected value"
  | .expectedIdent => "expected ident"
  | .expectedColon => "expected `:`"
  | .expectedCommaOrBrace => "expected `,` or `\x7d`"
  | .expectedCommaOrBracket => "expected `,` or `]`"
  | .keyNotString => "key must be a string"
  | .trailingComma => "trailing comma"
  | .trailingCharacters => "trailing characters"
  | .invalidNumber => "invalid number"
  | .numberOutOfRange => "number out of range"
  | .invalidEscape => "invalid escape"
  | .loneSurrogate => "lone leading surrogate in hex escape"
  | .endOfHexEscape => "unexpected end of hex escape"
  | .controlCharacter =>
    "control character (\\u0000-\\u001F) found while parsing a string"
  | .invalidType found wanted => "invalid type: " ++ found.words ++ ", expected " ++ wanted.words
  | .invalidValue found wanted =>
    "invalid value: " ++ found.words ++ ", expected " ++ wanted.words
  | .invalidLength length record size =>
    "invalid length " ++ Nat.repr length ++ ", expected struct " ++ record ++ " with " ++
      Nat.repr size ++ " elements"
  | .missingField name => "missing field " ++ tick name
  | .duplicateField name => "duplicate field " ++ tick name
  | .unknownField name known =>
    "unknown field " ++ tick name ++ ", expected one of " ++ ", ".intercalate (known.map tick)

end Error

/-- A reader of a JSON text: a value and the rest of the text, or the first error. -/
abbrev Reader (α : Type) := List Char → Except Error (α × List Char)

/-- Whether a character is blank between the parts of a JSON text. -/
def isBlank (c : Char) : Bool := c == ' ' || c == '\n' || c == '\t' || c == '\r'

/-- The text from its first character that is not blank. -/
def skipBlank (s : List Char) : List Char := s.dropWhile isBlank

end Uniprocessor.Json
