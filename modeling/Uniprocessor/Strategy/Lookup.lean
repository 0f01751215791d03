import Uniprocessor.Strategy
import Uniprocessor.Text.Quoted
/-
  Finding a strategy by its key or its name.  Blanks around the text and the case of ASCII
  letters do not count.
-/

namespace Uniprocessor

/-- A text that names no strategy, without the blanks around it. -/
structure UnknownStrategy where
  name : String
  deriving DecidableEq

/-- The wording of a failed search. -/
def UnknownStrategy.message (e : UnknownStrategy) : String :=
  "unknown strategy " ++ Text.quoted e.name ++ " (expected one of: " ++
    ", ".intercalate (Strategy.all.map (·.key)) ++ ")"

namespace Strategy

/-- Whether two texts differ at most in the case of ASCII letters. -/
def sameLetters (a b : List Char) : Bool := a.map Char.toLower == b.map Char.toLower

/-- The strategy of a key or a name. -/
def find (text : String) : Except UnknownStrategy Strategy :=
  let s := Text.trim text.toList
  match all.find? fun x => sameLetters x.key.toList s || sameLetters x.name.toList s with
  | some x => .ok x
  | none => .error ⟨String.ofList s⟩

end Strategy

end Uniprocessor
