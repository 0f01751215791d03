/-
  Texts in columns: blanks are added up to a width counted in characters, and a text that is
  already wider stays whole.
-/

namespace Uniprocessor.Text

/-- Puts blanks before `s` up to `width` characters. -/
def padLeft (width : Nat) (s : String) : String :=
  String.ofList (s.toList.leftpad width ' ')

/-- Puts blanks after `s` up to `width` characters. -/
def padRight (width : Nat) (s : String) : String :=
  String.ofList (s.toList.rightpad width ' ')

@[simp] theorem toList_padLeft (width : Nat) (s : String) :
    (padLeft width s).toList = List.replicate (width - s.toList.length) ' ' ++ s.toList := by
  simp [padLeft, List.leftpad]

end Uniprocessor.Text
