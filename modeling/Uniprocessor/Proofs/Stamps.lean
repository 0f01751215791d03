import Uniprocessor.Proofs.Digits
import Uniprocessor.Text.Stamp
/-
  What a tick stamp looks like, and which tick it is of.

  `ByThrees` says where the groups of a row of digits end, by the groups and not by the distance
  of a digit from the end: a first group of one to three digits, and any number of groups of
  exactly three behind one `_` each.  The digits are grouped from the front, and a new group begins
  where those still to come fill whole groups (`length_of_groups`).

  Main statement: `ticks_stamped_legibly`.
-/

namespace Uniprocessor.Text

variable {c : Char} {l s : List Char} {more : List (List Char)}

/-! ## Groups -/

/-- `s` are the digits `l` in groups: one to three digits, and then exactly three behind every
`_`. -/
def ByThrees (l s : List Char) : Prop :=
  ∃ first more, l = first ++ more.flatten ∧ s = first ++ more.flatMap ('_' :: ·) ∧
    1 ≤ first.length ∧ first.length ≤ 3 ∧ (∀ g ∈ more, g.length = 3) ∧
    ∀ g ∈ first :: more, ∀ c ∈ g, isDigit c = true

theorem length_flatMap_of_length {f : List Char → List Char} {n : Nat}
    (h : ∀ g ∈ more, (f g).length = n) : (more.flatMap f).length = more.length * n := by
  rw [List.length_flatMap, List.map_congr_left h, List.map_const', List.sum_replicate_nat]

theorem length_of_groups (h : ∀ g ∈ more, g.length = 3) :
    more.flatten.length = more.length * 3 := by
  rw [← List.flatMap_id]
  exact length_flatMap_of_length h

theorem byThrees_groupDigits (hl : l ≠ []) (hdigits : ∀ c ∈ l, isDigit c = true) :
    ByThrees l (groupDigits l) := by
  induction l with
  | nil => exact absurd rfl hl
  | cons c rest ih =>
    obtain ⟨hc, hrest⟩ := List.forall_mem_cons.1 hdigits
    by_cases hne : rest = []
    · subst hne
      exact ⟨[c], [], rfl, rfl, by simp, by simp, nofun, by simpa using hc⟩
    obtain ⟨first, more, hl, hs, hpos, hle, hmore, hall⟩ := ih hne hrest
    have hlength : rest.length = first.length + more.length * 3 := by
      rw [hl, List.length_append, length_of_groups hmore]
    obtain ⟨hfirst, hothers⟩ := List.forall_mem_cons.1 hall
    rw [groupDigits]
    by_cases hgroup : rest.length % 3 = 0
    · -- the first group behind is full
      have hfull : first.length = 3 := by omega
      rw [if_pos ⟨hne, hgroup⟩, hs]
      refine ⟨[c], first :: more, by rw [hl]; rfl, rfl, by simp, by simp, ?_, ?_⟩
      · exact List.forall_mem_cons.2 ⟨hfull, hmore⟩
      · exact List.forall_mem_cons.2 ⟨by simpa using hc, hall⟩
    · have hroom : first.length ≤ 2 := by omega
      rw [if_neg fun h => hgroup h.2, hs]
      refine ⟨c :: first, more, by rw [hl]; rfl, rfl, by simp, ?_, hmore, ?_⟩
      · exact Nat.succ_le_succ hroom
      · exact List.forall_mem_cons.2 ⟨List.forall_mem_cons.2 ⟨hc, hfirst⟩, hothers⟩

/-- Every third digit but the first has one `_` more. -/
theorem ByThrees.length_eq (h : ByThrees l s) : s.length = l.length + (l.length - 1) / 3 := by
  obtain ⟨first, more, rfl, rfl, hpos, hle, hmore, -⟩ := h
  have hseparated : (more.flatMap ('_' :: ·)).length = more.length * 4 :=
    length_flatMap_of_length fun g hg => congrArg (· + 1) (hmore g hg)
  rw [List.length_append, List.length_append, length_of_groups hmore, hseparated]
  omega

/-- What keeps the digits and drops the underscores gives the digits back. -/
theorem ByThrees.filter_eq (h : ByThrees l s) {p : Char → Bool}
    (hdigit : ∀ c, isDigit c = true → p c = true) (hmark : p '_' = false) : s.filter p = l := by
  obtain ⟨first, more, rfl, rfl, -, -, -, hall⟩ := h
  have hkeep : ∀ g ∈ first :: more, g.filter p = g := fun g hg =>
    List.filter_eq_self.2 fun c hc => hdigit c (hall g hg c hc)
  obtain ⟨hfirst, hothers⟩ := List.forall_mem_cons.1 hkeep
  have hmore : (more.flatMap ('_' :: ·)).filter p = more.flatten := by
    clear hkeep hall
    induction more with
    | nil => rfl
    | cons g more ih =>
      obtain ⟨hg, hmore⟩ := List.forall_mem_cons.1 hothers
      simp [hmark, hg, ih hmore]
  rw [List.filter_append, hfirst, hmore]

theorem ByThrees.mem (h : ByThrees l s) (hc : c ∈ s) : isDigit c = true ∨ c = '_' := by
  obtain ⟨first, more, -, rfl, -, -, -, hall⟩ := h
  rcases List.mem_append.1 hc with hc | hc
  · exact .inl (hall first List.mem_cons_self c hc)
  · obtain ⟨g, hg, hc⟩ := List.mem_flatMap.1 hc
    rcases List.mem_cons.1 hc with rfl | hc
    · exact .inr rfl
    · exact .inl (hall g (List.mem_cons_of_mem _ hg) c hc)

/-! ## Stamps -/

theorem byThrees_grouped (v : Nat) : ByThrees (Nat.toDigits 10 v) (grouped v).toList := by
  rw [grouped, String.toList_ofList]
  exact byThrees_groupDigits Nat.toDigits_ne_nil fun c => isDigit_of_mem

/-- The digits of a tick stand in its stamp among blanks and underscores. -/
theorem filter_grouped (v : Nat) :
    (padLeft 9 (grouped v)).toList.filter isDigit = Nat.toDigits 10 v := by
  have hblanks : (List.replicate (9 - (grouped v).toList.length) ' ').filter isDigit = [] :=
    List.filter_eq_nil_iff.2 fun c hc => by
      rw [List.eq_of_mem_replicate hc]
      decide
  rw [toList_padLeft, List.filter_append, hblanks, List.nil_append]
  exact (byThrees_grouped v).filter_eq (fun _ => id) (by decide)

theorem not_mem_grouped (v : Nat) : ']' ∉ (padLeft 9 (grouped v)).toList := by
  rw [toList_padLeft, List.mem_append, not_or]
  constructor
  · intro h
    cases List.eq_of_mem_replicate h
  · intro h
    rcases (byThrees_grouped v).mem h with h | h <;> cases h

/-- The tick that a stamp is of. -/
def readStamp (s : String) : Nat := digitsValue 0 (s.toList.filter isDigit)

theorem readStamp_tickStamp (v : Nat) : readStamp (tickStamp v) = v := by
  have hword : "tick ".toList.filter isDigit = [] := by decide
  rw [readStamp, tickStamp, String.toList_append, List.filter_append, hword, List.nil_append,
    filter_grouped, digitsValue_toDigits]

/-- Without its underscores a grouped number is its digits.  The first group has one to three of
them and each further one, behind one underscore, has three, so that as many underscores are
added as there are whole groups behind the first digit.  A stamp loses nothing of them, however
wide they are: the tick can be read from it, and no two ticks have the same stamp. -/
theorem ticks_stamped_legibly (v : Nat) :
    (grouped v).toList.filter (· ≠ '_') = Nat.toDigits 10 v ∧
    ByThrees (Nat.toDigits 10 v) (grouped v).toList ∧
    (grouped v).toList.length =
      (Nat.toDigits 10 v).length + ((Nat.toDigits 10 v).length - 1) / 3 ∧
    (tickStamp v).toList = "tick ".toList ++
      (List.replicate (9 - (grouped v).toList.length) ' ' ++ (grouped v).toList) ∧
    readStamp (tickStamp v) = v ∧
    ∀ w, tickStamp w = tickStamp v ↔ w = v := by
  have hgroups := byThrees_grouped v
  have hplain : ∀ c, isDigit c = true → decide (c ≠ '_') = true := by
    rintro c hc
    refine decide_eq_true ?_
    rintro rfl
    cases hc
  refine ⟨hgroups.filter_eq hplain (by decide), hgroups, hgroups.length_eq, ?_,
    readStamp_tickStamp v, fun w => ⟨fun h => ?_, fun h => h ▸ rfl⟩⟩
  · rw [tickStamp, String.toList_append, toList_padLeft]
  · have hread := congrArg readStamp h
    rwa [readStamp_tickStamp, readStamp_tickStamp] at hread

example : tickStamp 1024 = "tick     1_024" := by decide

end Uniprocessor.Text
