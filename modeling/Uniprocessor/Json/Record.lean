import Uniprocessor.Json.Value
/-
  Reading records: objects with known fields, or lists of the values of all fields in order.

  * In an object the fields may come in any order; an unknown or repeated one is refused when
    its name is met, a missing one when the object ends.
  * In a list the values of the fields stand in the order of the fields; those at the end that
    have a default may be left out.
-/

namespace Uniprocessor.Json

/-- A field of a record, of which `δ` is the part that has been read. -/
structure Field (δ : Type) where
  name : String
  /-- Whether the field was read already. -/
  isSet : δ → Bool
  /-- Reads the value of the field. -/
  read : δ → Reader δ
  /-- Whether an object has to have it. -/
  inObject : Bool
  /-- Whether a list has to have it. -/
  inList : Bool

/-- A kind of record. -/
structure Shape (δ : Type) where
  name : String
  fields : List (Field δ)
  /-- A record of which nothing has been read. -/
  blank : δ

namespace Shape

variable {δ : Type}

/-- Goes to the next field of an object, or to its end.  The text behind the answer starts
behind the quote that opens the name, or at the brace. -/
def nextField (first : Bool) (s : List Char) : Except Error (Bool × List Char) :=
  match skipBlank s with
  | [] => .error .endInObject
  | '\x7d' :: rest => .ok (false, '\x7d' :: rest)
  | c :: rest =>
    if first then key (c :: rest)
    else if c = ',' then key (skipBlank rest)
    else .error .expectedCommaOrBrace
where
  /-- Goes behind the quote that opens a name. -/
  key : List Char → Except Error (Bool × List Char)
    | [] => .error .endInValue
    | '\"' :: rest => .ok (true, rest)
    | '\x7d' :: _ => .error .trailingComma
    | _ => .error .keyNotString

/-- Reads the colon behind the name of a field. -/
def readColon : Reader Unit := fun s =>
  match skipBlank s with
  | [] => .error .endInObject
  | ':' :: rest => .ok ((), rest)
  | _ => .error .expectedColon

/-- Reads the end of an object whose fields have all been read. -/
def endOfObject : Reader Unit := fun s =>
  match skipBlank s with
  | [] => .error .endInObject
  | '\x7d' :: rest => .ok ((), rest)
  | ',' :: _ => .error .trailingComma
  | _ => .error .trailingCharacters

/-- The field of a name. -/
def field (shape : Shape δ) (name : String) : Except Error (Field δ) :=
  match shape.fields.find? fun f => f.name == name with
  | some f => .ok f
  | none => .error (.unknownField name (shape.fields.map (·.name)))

/-- Reads the fields of an object, at most `fuel` of them. -/
def readFields (shape : Shape δ) (fuel : Nat) (first : Bool) (d : δ) : Reader δ := fun s =>
  match fuel with
  | 0 => .error .endInObject
  | fuel + 1 => do
    let (more, rest) ← nextField first s
    if more then
      let (name, rest) ← readTextBody rest
      let f ← shape.field name
      if f.isSet d then .error (.duplicateField name)
      else
        let (_, rest) ← readColon rest
        let (d, rest) ← f.read d rest
        shape.readFields fuel false d rest
    else return (d, rest)

/-- The first field that an object has to have and that was not read. -/
def missing? (shape : Shape δ) (d : δ) : Option (Field δ) :=
  shape.fields.find? fun f => f.inObject && !f.isSet d

/-- Reads an object behind its brace. -/
def readObject (shape : Shape δ) : Reader δ := fun s => do
  let (d, rest) ← shape.readFields (s.length + 1) true shape.blank s
  match shape.missing? d with
  | some f => .error (.missingField f.name)
  | none =>
    let (_, rest) ← endOfObject rest
    return (d, rest)

/-- Reads the values of the fields from position `i` on. -/
def readPositions (shape : Shape δ) (first : Bool) (i : Nat) (d : δ) :
    List (Field δ) → Reader δ
  | [], s => .ok (d, s)
  | f :: fields, s => do
    let (more, rest) ← nextElement first s
    if more then
      let (d, rest) ← f.read d rest
      shape.readPositions false (i + 1) d fields rest
    else if f.inList then .error (.invalidLength i shape.name shape.fields.length)
    else shape.readPositions first (i + 1) d fields rest

/-- Reads a list of values behind its bracket. -/
def readSequence (shape : Shape δ) : Reader δ := fun s => do
  let (d, rest) ← shape.readPositions true 0 shape.blank shape.fields s
  let (_, rest) ← endOfList rest
  return (d, rest)

/-- Reads a record. -/
def read (shape : Shape δ) : Reader δ := fun s =>
  match skipBlank s with
  | '\x7b' :: rest => shape.readObject rest
  | '[' :: rest => shape.readSequence rest
  | rest => mismatch (.record shape.name) rest

end Shape

/-- Reads a text that holds one value and nothing else. -/
def readWhole {α : Type} (read : Reader α) (s : List Char) : Except Error α := do
  let (a, rest) ← read s
  match skipBlank rest with
  | [] => return a
  | _ => .error .trailingCharacters

end Uniprocessor.Json
