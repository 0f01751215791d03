/-
  Comments in scenario texts: from `/*` to the next `*/`, or to the end of the text.
-/

namespace Uniprocessor

namespace Comment

/-- The text without its comments, from a point inside a comment or outside of one. -/
def scan : Bool → List Char → List Char
  | _, [] => []
  | false, '/' :: '*' :: rest => scan true rest
  | false, c :: rest => c :: scan false rest
  | true, '*' :: '/' :: rest => scan false rest
  | true, _ :: rest => scan true rest

/-- The text without its comments. -/
def strip (s : List Char) : List Char := scan false s

end Comment

end Uniprocessor
