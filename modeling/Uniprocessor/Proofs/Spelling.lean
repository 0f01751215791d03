import Mathlib.Computability.Language
import Uniprocessor.Json.Error
import Uniprocessor.Proofs.Digits
/-
  The JSON texts that spell a value.

  The texts of a value form a language, built from those of its parts: there may be any blanks
  between two parts, any character of a string may be written as an escape, and an object has its
  members in any order and may leave out those that are marked as omissible.  Of the standard's
  grammar two things are missing: a slash in a string is always written as an escape, so that no
  text of these has one (`Slashless`); and of the numbers there are only the natural ones, which
  have one text each.  Every value has a text.
-/

namespace Uniprocessor.Json

namespace Spelling

/-- Blanks, as many as one likes. -/
def blanks : Language Char := {s | ∀ c ∈ s, isBlank c = true}

/-- This text and no other. -/
def literal (s : List Char) : Language Char := {s}

/-! ## Strings -/

/-- `c` is a hexadecimal digit, of either case, for `i`. -/
def IsHex (c : Char) (i : Nat) : Prop :=
  "0123456789abcdef".toList[i]? = some c ∨ "0123456789ABCDEF".toList[i]? = some c

/-- The escape of a code unit: its four digits behind `\u`. -/
def codeUnit (n : Nat) : Language Char :=
  {s | ∃ a b c d, s = ['\\', 'u', a, b, c, d] ∧ IsHex a (n / 0x1000) ∧ IsHex b (n / 0x100 % 0x10) ∧
    IsHex c (n / 0x10 % 0x10) ∧ IsHex d (n % 0x10)}

/-- The characters that have an escape by a letter, with the letter; the slash, which has one too,
is left out. -/
def shortForms : List (Char × Char) :=
  [('\"', '\"'), ('\\', '\\'), ('\x08', 'b'), ('\x0c', 'f'), ('\n', 'n'), ('\r', 'r'), ('\t', 't')]

/-- The character may stand in a string as it is. -/
def isBare (c : Char) : Bool := c != '\"' && c != '\\' && c != '/' && decide (0x20 ≤ c.toNat)

/-- How a character may stand in a string. -/
inductive SpellsChar (c : Char) : List Char → Prop
  | bare : isBare c = true → SpellsChar c [c]
  | short {e : Char} : (c, e) ∈ shortForms → SpellsChar c ['\\', e]
  | unit {s : List Char} : s ∈ codeUnit c.toNat → SpellsChar c s
  /-- The two surrogates of a character outside the basic plane. -/
  | pair {k : Nat} {s t : List Char} : c.toNat = 0x10000 + k → s ∈ codeUnit (0xD800 + k / 0x400) →
      t ∈ codeUnit (0xDC00 + k % 0x400) → SpellsChar c (s ++ t)

def character (c : Char) : Language Char := {s | SpellsChar c s}

/-- A string between its quotes. -/
def text (s : String) : Language Char :=
  literal ['\"'] * (s.toList.map character).prod * literal ['\"']

/-! ## Values -/

/-- A natural number, without leading zeros. -/
def number (n : Nat) : Language Char := literal (Nat.toDigits 10 n)

def boolean (b : Bool) : Language Char :=
  literal (if b then ['t', 'r', 'u', 'e'] else ['f', 'a', 'l', 's', 'e'])

/-- What stands between the blanks before an element and the element: a comma and blanks, unless it
is the first. -/
def separator : Bool → Language Char
  | true => literal []
  | false => literal [','] * blanks

/-- What stands between brackets or braces, from the first element on or from a later one. -/
def elements : Bool → List (Language Char) → Language Char
  | _, [] => blanks
  | first, p :: ps => blanks * separator first * p * elements false ps

/-- A list of values, by their texts. -/
def array (ps : List (Language Char)) : Language Char :=
  literal ['['] * elements true ps * literal [']']

/-- A member of an object. -/
structure Member where
  name : String
  /-- The texts of its value. -/
  value : Language Char
  /-- Whether the object may do without it. -/
  omissible : Prop

/-- The name of a member, a colon and its value. -/
def Member.text (m : Member) : Language Char :=
  Spelling.text m.name * blanks * literal [':'] * blanks * m.value

/-- Members between braces, in their order. -/
def braced (ms : List Member) : Language Char :=
  literal ['\x7b'] * elements true (ms.map Member.text) * literal ['\x7d']

/-- An object: its members in any order, without some that are omissible. -/
def object (ms : List Member) : Language Char :=
  {s | ∃ kept omitted : List Member, (kept ++ omitted).Perm ms ∧ (∀ m ∈ omitted, m.omissible) ∧
    s ∈ braced kept}

/-- The member for a value that may be missing: it is there exactly if the value is. -/
def given (name : String) (o : Option (Language Char)) : List Member :=
  (o.map fun v => ⟨name, v, False⟩).toList

/-! ## Texts and their parts -/

variable {p q : Language Char} {ps qs : List (Language Char)} {ms ms' : List Member} {m : Member}
variable {b s t : List Char} {c : Char} {i n : Nat} {first : Bool}

theorem isBare_iff :
    isBare c = true ↔ c ≠ '\"' ∧ c ≠ '\\' ∧ c ≠ '/' ∧ 0x20 ≤ c.toNat := by
  simp [isBare, and_assoc]

section Choices

variable {α β γ : Type} {Q : α → Prop} {name : String} {P : Prop}

end Choices

/-! ## Building texts -/

theorem exists_isHex (hi : i < 0x10) : ∃ c, IsHex c i :=
  ⟨_, .inl (List.getElem?_eq_getElem (l := "0123456789abcdef".toList) hi)⟩

theorem exists_codeUnit (hn : n < 0x10000) : ∃ s, s ∈ codeUnit n := by
  obtain ⟨a, ha⟩ := exists_isHex (i := n / 0x1000) (by omega)
  obtain ⟨b, hb⟩ := exists_isHex (i := n / 0x100 % 0x10) (by omega)
  obtain ⟨c, hc⟩ := exists_isHex (i := n / 0x10 % 0x10) (by omega)
  obtain ⟨d, hd⟩ := exists_isHex (i := n % 0x10) (by omega)
  exact ⟨_, a, b, c, d, rfl, ha, hb, hc, hd⟩

theorem IsHex.ne_slash (h : IsHex c i) : '/' ≠ c := by
  rintro rfl
  rcases h.imp List.mem_of_getElem? List.mem_of_getElem? with h | h <;>
    exact absurd h (by decide)

theorem slash_not_mem_codeUnit (h : s ∈ codeUnit n) : '/' ∉ s := by
  obtain ⟨a, b, c, d, rfl, ha, hb, hc, hd⟩ := h
  simp [ha.ne_slash, hb.ne_slash, hc.ne_slash, hd.ne_slash]

/-- What cannot stand in a string as it is lies in the basic plane. -/
theorem lt_of_not_bare (h : ¬ isBare c = true) : c.toNat < 0x10000 := by
  by_contra hc
  refine h (isBare_iff.2 ⟨?_, ?_, ?_, by omega⟩) <;> rintro rfl <;> exact hc (by decide)

/-- The language has a text, and none with a slash in it. -/
structure Slashless (p : Language Char) : Prop where
  exists_mem : ∃ s, s ∈ p
  not_mem : ∀ s ∈ p, '/' ∉ s

namespace Slashless

theorem mul (hp : Slashless p) (hq : Slashless q) : Slashless (p * q) where
  exists_mem := by
    obtain ⟨s, hs⟩ := hp.exists_mem
    obtain ⟨t, ht⟩ := hq.exists_mem
    exact ⟨s ++ t, Language.append_mem_mul hs ht⟩
  not_mem := by
    intro s hs
    obtain ⟨t, ht, u, hu, rfl⟩ := Language.mem_mul.1 hs
    rw [List.mem_append, not_or]
    exact ⟨hp.not_mem t ht, hq.not_mem u hu⟩

theorem literal (h : '/' ∉ s) : Slashless (literal s) where
  exists_mem := ⟨s, rfl⟩
  not_mem := by
    rintro _ rfl
    exact h

theorem blanks : Slashless blanks where
  exists_mem := ⟨[], nofun⟩
  not_mem := by
    intro s hs h
    cases hs _ h

theorem character (c : Char) : Slashless (character c) where
  exists_mem := by
    by_cases hbare : isBare c = true
    · exact ⟨[c], .bare hbare⟩
    · obtain ⟨s, hs⟩ := exists_codeUnit (lt_of_not_bare hbare)
      exact ⟨s, .unit hs⟩
  not_mem := by
    intro s hs
    cases hs with
    | bare hbare => simpa using (isBare_iff.1 hbare).2.2.1.symm
    | short he =>
      have hall : ∀ x ∈ shortForms, '/' ∉ ['\\', x.2] := by decide
      exact hall _ he
    | unit hs => exact slash_not_mem_codeUnit hs
    | pair _ hs ht =>
      rw [List.mem_append, not_or]
      exact ⟨slash_not_mem_codeUnit hs, slash_not_mem_codeUnit ht⟩

theorem text (s : String) : Slashless (text s) := by
  refine ((literal (by decide)).mul ?_).mul (literal (by decide))
  induction s.toList with
  | nil => exact literal List.not_mem_nil
  | cons c l ih => exact (character c).mul ih

theorem number (n : Nat) : Slashless (number n) :=
  literal (Text.not_mem_toDigits (by decide))

theorem boolean (b : Bool) : Slashless (boolean b) := by
  cases b <;> exact literal (by decide)

theorem separator (first : Bool) : Slashless (separator first) := by
  cases first
  · exact (literal (by decide)).mul blanks
  · exact literal List.not_mem_nil

theorem elements (h : ∀ p ∈ ps, Slashless p) (first : Bool) : Slashless (elements first ps) := by
  induction ps generalizing first with
  | nil => exact blanks
  | cons p ps ih =>
    obtain ⟨hp, hps⟩ := List.forall_mem_cons.1 h
    exact ((blanks.mul (separator first)).mul hp).mul (ih hps false)

theorem array (h : ∀ p ∈ ps, Slashless p) : Slashless (array ps) :=
  ((literal (by decide)).mul (elements h true)).mul (literal (by decide))

theorem braced (h : ∀ m ∈ ms, Slashless m.value) : Slashless (braced ms) := by
  refine ((literal (by decide)).mul (elements ?_ true)).mul (literal (by decide))
  exact List.forall_mem_map.2 fun m hm =>
    ((((text m.name).mul blanks).mul (literal (by decide))).mul blanks).mul (h m hm)

theorem object (h : ∀ m ∈ ms, Slashless m.value) : Slashless (object ms) where
  exists_mem := by
    obtain ⟨s, hs⟩ := (braced h).exists_mem
    exact ⟨s, ms, [], by simp, nofun, hs⟩
  not_mem := by
    rintro s ⟨kept, omitted, hperm, -, hs⟩
    have hkept : ∀ m ∈ kept, Slashless m.value :=
      fun m hm => h m (hperm.subset (List.mem_append_left _ hm))
    exact (braced hkept).not_mem s hs

end Slashless

end Spelling

end Uniprocessor.Json
