import Mathlib.Data.List.Infix
import Uniprocessor.Scenario.Comment
/-
  What stripping leaves out: the leftmost, shortest comments.

  `Cut` cuts a text at the first occurrence of a marker.  The two characters of a marker differ, so
  that no marker overlaps another of its kind, and the first one is the one with none in what
  stands before it (`cut_iff`).  Outside a comment nothing happens up to the first `/*`, inside
  nothing up to the first `*/`.

  Main statement: `strip_leftmost_shortest`.
-/

namespace Uniprocessor

/-! ## First occurrences -/

section Cut

variable {α : Type} {m s front back a b r : List α} {c x y : α}

/-- `front` stands before the first `m` in `s`, and `back` behind it. -/
structure Cut (m front back s : List α) : Prop where
  eq : s = front ++ m ++ back
  first : ∀ f b, s = f ++ m ++ b → front.length ≤ f.length

theorem exists_cut (h : m <:+: s) : ∃ front back, Cut m front back s := by
  induction s with
  | nil =>
    obtain rfl := List.infix_nil.1 h
    exact ⟨[], [], rfl, fun f b _ => Nat.zero_le _⟩
  | cons c s ih =>
    by_cases hm : m <+: c :: s
    · obtain ⟨back, hback⟩ := hm
      exact ⟨[], back, hback.symm, fun f b _ => Nat.zero_le _⟩
    obtain ⟨front, back, hs, hfirst⟩ := ih ((List.infix_cons_iff.1 h).resolve_left hm)
    refine ⟨c :: front, back, congrArg (c :: ·) hs, fun f b hf => ?_⟩
    cases f with
    | nil => exact absurd ⟨b, hf.symm⟩ hm
    | cons d f => exact Nat.succ_le_succ (hfirst f b (List.cons.inj hf).2)

/-- There is no marker before the first one. -/
theorem Cut.not_infix (h : Cut m front back s) (hm : m ≠ []) : ¬ m <:+: front := by
  rintro ⟨f, b, hf⟩
  have hle := h.first f (b ++ m ++ back) (by rw [h.eq, ← hf]; simp)
  have hpos := List.length_pos_iff.2 hm
  rw [← hf] at hle
  simp only [List.length_append] at hle
  omega

/-- A marker that begins with `c` neither lies in `c :: a` nor begins in it. -/
theorem not_begun (hxy : x ≠ y) (h : ¬ [x, y] <:+: c :: a) :
    c = x → ∀ t, a ++ [x, y] ++ r ≠ y :: t := by
  rintro rfl t ht
  cases a with
  | nil => exact hxy (List.cons.inj ht).1
  | cons d a =>
    obtain ⟨rfl, -⟩ := List.cons.inj ht
    exact h ⟨[], a, rfl⟩

theorem not_begun_end (h : ¬ [x, y] <:+: c :: a) : c = x → ∀ t, a ≠ y :: t := by
  rintro rfl t rfl
  exact h ⟨[], t, rfl⟩

/-- A marker of two different characters is the first if there is none before it. -/
theorem cut_of_not_infix (hxy : x ≠ y) (h : ¬ [x, y] <:+: a) :
    Cut [x, y] a b (a ++ [x, y] ++ b) where
  eq := rfl
  first := by
    induction a with
    | nil => exact fun f _ _ => Nat.zero_le _
    | cons c a ih =>
      intro f r hf
      cases f with
      | nil =>
        obtain ⟨hc, ht⟩ := List.cons.inj hf
        exact absurd ht (not_begun hxy h hc r)
      | cons d f =>
        have hle := ih (fun ha => h (List.infix_cons ha)) f r (List.cons.inj hf).2
        exact Nat.succ_le_succ hle

theorem cut_iff (hxy : x ≠ y) :
    Cut [x, y] front back s ↔ s = front ++ [x, y] ++ back ∧ ¬ [x, y] <:+: front := by
  constructor
  · exact fun h => ⟨h.eq, h.not_infix (List.cons_ne_nil x [y])⟩
  · rintro ⟨rfl, h⟩
    exact cut_of_not_infix hxy h

/-- A character that does not end a marker makes no marker at the end of a text. -/
theorem not_infix_snoc (h : ¬ [x, y] <:+: a) (hc : c ≠ y) : ¬ [x, y] <:+: a ++ [c] := by
  rintro ⟨f, b, hf⟩
  rcases List.eq_nil_or_concat b with rfl | ⟨b, d, rfl⟩
  · rw [List.append_nil] at hf
    have hlast := congrArg List.getLast? hf
    simp at hlast
    exact hc hlast.symm
  · rw [List.concat_eq_append, ← List.append_assoc] at hf
    exact h ⟨f, b, (List.append_inj_left' hf rfl)⟩

end Cut

namespace Comment

variable {a b c r s : List Char}

/-- The marker that begins a comment. -/
def opening : List Char := ['/', '*']

/-- The marker that ends a comment. -/
def closing : List Char := ['*', '/']

theorem scan_false_cons (c : Char) (h : c = '/' → ∀ t, s ≠ '*' :: t) :
    scan false (c :: s) = c :: scan false s := by
  rw [scan]
  exact fun t hc ht => h hc t ht

theorem scan_true_cons (c : Char) (h : c = '*' → ∀ t, s ≠ '/' :: t) :
    scan true (c :: s) = scan true s := by
  rw [scan]
  exact fun t hc ht => h hc t ht

/-- A text without a comment is left alone. -/
theorem strip_of_not_infix (h : ¬ opening <:+: s) : strip s = s := by
  induction s with
  | nil => rfl
  | cons d s ih =>
    have ih := ih fun hs => h (List.infix_cons hs)
    rw [strip, scan_false_cons d (not_begun_end h)]
    exact congrArg (d :: ·) ih

/-- Everything before the first comment is kept. -/
theorem strip_append (h : ¬ opening <:+: a) : strip (a ++ opening ++ r) = a ++ scan true r := by
  induction a with
  | nil => rfl
  | cons d a ih =>
    have ih := ih fun ha => h (List.infix_cons ha)
    have hd : d = '/' → ∀ t, a ++ opening ++ r ≠ '*' :: t := not_begun (by decide) h
    rw [strip, List.cons_append, List.cons_append, scan_false_cons d hd]
    exact congrArg (d :: ·) ih

/-- A comment that does not end goes on to the end of the text. -/
theorem scan_true_of_not_infix (h : ¬ closing <:+: r) : scan true r = [] := by
  induction r with
  | nil => rfl
  | cons d r ih =>
    rw [scan_true_cons d (not_begun_end h)]
    exact ih fun hr => h (List.infix_cons hr)

/-- Everything in a comment is left out. -/
theorem scan_true_append (h : ¬ closing <:+: c) : scan true (c ++ closing ++ b) = strip b := by
  induction c with
  | nil => rfl
  | cons d c ih =>
    have hd : d = '*' → ∀ t, c ++ closing ++ b ≠ '/' :: t := not_begun (by decide) h
    rw [List.cons_append, List.cons_append, scan_true_cons d hd]
    exact ih fun hc => h (List.infix_cons hc)

/-- A comment that ends is left out, and the text behind it is stripped in turn. -/
theorem strip_commented (ha : ¬ opening <:+: a) (hc : ¬ closing <:+: c) :
    strip (a ++ opening ++ (c ++ closing ++ b)) = a ++ strip b := by
  rw [strip_append ha, scan_true_append hc]

theorem cut_opening : Cut opening a r s ↔ s = a ++ opening ++ r ∧ ¬ opening <:+: a :=
  cut_iff (by decide)

theorem cut_closing : Cut closing c b r ↔ r = c ++ closing ++ b ∧ ¬ closing <:+: c :=
  cut_iff (by decide)

/-- A text without a marker `/*` is left alone.  Cut at its first `/*`, it is kept before this
marker, left out up to the first `*/` behind it, or to the end if there is none, and stripped in
turn from there on.  So `/*/` does not end the comment that it begins, `**/` ends one, and a `/*`
whose two characters stood on either side of a comment is kept. -/
theorem strip_leftmost_shortest :
    (∀ s, ¬ opening <:+: s → strip s = s) ∧
    (∀ s a r, Cut opening a r s →
      (¬ closing <:+: r → strip s = a) ∧
      ∀ c b, Cut closing c b r → strip s = a ++ strip b) ∧
    ∀ a, ¬ opening <:+: a →
      (∀ r, strip (a ++ opening ++ '/' :: r) = strip (a ++ opening ++ r)) ∧
      ∀ c b, ¬ closing <:+: c →
        strip (a ++ opening ++ (c ++ '*' :: closing ++ b)) = a ++ strip b ∧
        strip (a ++ '/' :: opening ++ (c ++ closing ++ '*' :: b)) = a ++ opening ++ strip b := by
  refine ⟨fun s => strip_of_not_infix, fun s a r hcut => ?_,
    fun a ha => ⟨fun r => ?_, fun c b hc => ?_⟩⟩
  · obtain ⟨rfl, ha⟩ := cut_opening.1 hcut
    constructor
    · intro hr
      rw [strip_append ha, scan_true_of_not_infix hr, List.append_nil]
    · intro c b hcut
      obtain ⟨rfl, hc⟩ := cut_closing.1 hcut
      exact strip_commented ha hc
  · -- the slash stands inside the comment, and no star of the comment stands before it
    rw [strip_append ha, strip_append ha, scan_true_cons '/' nofun]
  · have hstar : ¬ closing <:+: c ++ ['*'] := not_infix_snoc hc (by decide)
    have hslash : ¬ opening <:+: a ++ ['/'] := not_infix_snoc ha (by decide)
    have hends := strip_commented (b := b) ha hstar
    have hjoins := strip_commented (b := '*' :: b) hslash hc
    have hkept : strip ('*' :: b) = '*' :: strip b := scan_false_cons '*' nofun
    constructor
    · simpa using hends
    · simpa [hkept, opening] using hjoins

/-- Markers that overlap: a slash before a comment, one behind its first marker and a star before
its last one, a star behind it, and a comment that does not end. -/
theorem strip_leftmost_shortest_overlapping :
    strip "a/b*c".toList = "a/b*c".toList ∧
    strip "*x/*/y".toList = "*x".toList ∧
    strip "u//*/v/*w**/*x/*/y".toList = "u/".toList ++ strip "*x/*/y".toList ∧
    strip ("u".toList ++ opening ++ '/' :: "v".toList) =
      strip ("u".toList ++ opening ++ "v".toList) ∧
    strip ("u".toList ++ opening ++ ("v".toList ++ '*' :: closing ++ "w".toList)) =
      "u".toList ++ strip "w".toList ∧
    strip ("u".toList ++ '/' :: opening ++ ("v".toList ++ closing ++ '*' :: "w".toList)) =
      "u".toList ++ opening ++ strip "w".toList := by
  have hcut : Cut opening "u/".toList "/v/*w**/*x/*/y".toList "u//*/v/*w**/*x/*/y".toList :=
    cut_opening.2 (by decide)
  have hends : Cut closing "/v/*w*".toList "*x/*/y".toList "/v/*w**/*x/*/y".toList :=
    cut_closing.2 (by decide)
  have hlast : Cut opening "*x".toList "/y".toList "*x/*/y".toList := cut_opening.2 (by decide)
  have hu : ¬ opening <:+: "u".toList := by decide
  have hv : ¬ closing <:+: "v".toList := by decide
  exact ⟨strip_leftmost_shortest.1 _ (by decide),
    (strip_leftmost_shortest.2.1 _ _ _ hlast).1 (by decide),
    (strip_leftmost_shortest.2.1 _ _ _ hcut).2 _ _ hends,
    (strip_leftmost_shortest.2.2 _ hu).1 _,
    (strip_leftmost_shortest.2.2 _ hu).2 _ _ hv⟩

end Comment

end Uniprocessor
