import Uniprocessor.Proofs.Stripping
import Uniprocessor.Scenario.Parse
/-
  Comments and string literals.

  `mark` goes through a text as a reader of JSON with comments does: a comment opens outside
  literals only, and a literal ends at the first quote that no backslash escapes.  `uncomment`
  leaves out the comments so found.  Stripping does not know about literals.  It uncomments a text
  that has no marker `/*` in a literal (`strip_eq_uncomment`), and from the first such marker on
  takes the text for a comment, quotes included (`strip_of_opens`).  What the parser makes of the
  rest is of no account.

  Main statement: `load_uncommented`.
-/

namespace Uniprocessor

namespace Comment

/-- Where a character of a text stands. -/
inductive Region where
  | plain
  /-- In a string literal or one of its quotes. -/
  | literal
  /-- In a comment or one of its markers. -/
  | comment
  deriving DecidableEq

/-- The characters of a text and where each of them stands, from a point in `ρ` on.  A comment or
a literal that is not ended goes on to the end of the text. -/
def mark : Region → List Char → List (Char × Region)
  | _, [] => []
  | .plain, '/' :: '*' :: s => ('/', .comment) :: ('*', .comment) :: mark .comment s
  | .plain, '"' :: s => ('"', .literal) :: mark .literal s
  | .plain, c :: s => (c, .plain) :: mark .plain s
  | .literal, '\\' :: c :: s => ('\\', .literal) :: (c, .literal) :: mark .literal s
  | .literal, '"' :: s => ('"', .literal) :: mark .plain s
  | .literal, c :: s => (c, .literal) :: mark .literal s
  | .comment, '*' :: '/' :: s => ('*', .comment) :: ('/', .comment) :: mark .plain s
  | .comment, c :: s => (c, .comment) :: mark .comment s

/-- The characters outside comments. -/
def outside (ms : List (Char × Region)) : List Char :=
  (ms.filter fun m => m.2 ≠ .comment).map Prod.fst

/-- The text without the comments outside literals. -/
def uncomment (s : List Char) : List Char := outside (mark .plain s)

/-- The marker that opens a comment, inside a literal. -/
def opener : List (Char × Region) := [('/', .literal), ('*', .literal)]

/-- A text that has the marker of a comment inside a literal. -/
def OpensInLiteral (s : List Char) : Prop := opener <:+: mark .plain s

instance (s : List Char) : Decidable (OpensInLiteral s) := by
  unfold OpensInLiteral
  infer_instance

variable {s : List Char} {ρ : Region} {ms front back : List (Char × Region)}

@[simp] theorem outside_nil : outside [] = [] := rfl

@[simp] theorem outside_comment (c : Char) (ms : List (Char × Region)) :
    outside ((c, .comment) :: ms) = outside ms := rfl

@[simp] theorem outside_plain (c : Char) (ms : List (Char × Region)) :
    outside ((c, .plain) :: ms) = c :: outside ms := rfl

@[simp] theorem outside_literal (c : Char) (ms : List (Char × Region)) :
    outside ((c, .literal) :: ms) = c :: outside ms := rfl

/-- Marking a text loses nothing of it. -/
@[simp] theorem map_fst_mark (ρ : Region) (s : List Char) : (mark ρ s).map Prod.fst = s := by
  fun_induction mark ρ s <;> simp [*]

theorem outside_eq_map_fst (h : ∀ m ∈ ms, m.2 ≠ .comment) : outside ms = ms.map Prod.fst := by
  rw [outside, List.filter_eq_self.2 fun m hm => decide_eq_true (h m hm)]

/-- A text without comments outside literals is left alone. -/
theorem uncomment_eq_self (h : ∀ m ∈ mark .plain s, m.2 ≠ .comment) : uncomment s = s := by
  rw [uncomment, outside_eq_map_fst h, map_fst_mark]

/-! ## What is stripped -/

/-- What is left of a marked text when a marker inside a literal opens a comment too. -/
def strike : List (Char × Region) → List Char
  | [] => []
  | ('/', .literal) :: ('*', .literal) :: ms => scan true (ms.map Prod.fst)
  | (_, .comment) :: ms => strike ms
  | (c, _) :: ms => c :: strike ms

theorem strike_literal (c : Char) (h : c = '/' → ∀ t, ms ≠ ('*', .literal) :: t) :
    strike ((c, .literal) :: ms) = c :: strike ms := by
  rw [strike]
  · exact fun t ht hc _ => h hc t ht
  · exact nofun

/-- A character of a literal is kept, unless it opens a comment with the next one. -/
theorem scan_literal (c : Char) (ih : scan false s = strike (mark .literal s)) :
    scan false (c :: s) = strike ((c, .literal) :: mark .literal s) := by
  by_cases h : c = '/' ∧ ∃ t, s = '*' :: t
  · -- the marker opens a comment on both sides, which forgets where the characters stand
    obtain ⟨rfl, t, rfl⟩ := h
    simp [scan, mark, strike]
  · have hs : c = '/' → ∀ t, s ≠ '*' :: t := fun hc t ht => h ⟨hc, t, ht⟩
    rw [scan_false_cons c hs, ih, strike_literal]
    intro hc t ht
    have := congrArg (List.map Prod.fst) ht
    rw [map_fst_mark, List.map_cons] at this
    exact hs hc _ this

/-- Stripping strikes the comments, and what a marker inside a literal opens. -/
theorem scan_mark (ρ : Region) (s : List Char) :
    scan (decide (ρ = .comment)) s = strike (mark ρ s) := by
  fun_induction mark ρ s with
  | case1 ρ => cases ρ <;> rfl
  | case2 s ih => simpa [scan, strike] using ih
  | case3 s ih => simpa [scan, strike] using ih
  | case4 c s hopen hquote ih =>
    have hs : c = '/' → ∀ t, s ≠ '*' :: t := fun hc t ht => hopen t hc ht
    simpa [scan_false_cons c hs, strike] using ih
  | case5 c s ih =>
    -- an escaped slash can still be the first half of a marker
    simpa [scan, strike] using scan_literal c ih
  | case6 s ih => simpa [scan, strike] using ih
  | case7 c s _ _ ih => exact scan_literal c ih
  | case8 s ih => simpa [scan, strike] using ih
  | case9 c s _ ih => simpa [scan, strike] using ih

theorem strike_eq_outside (h : ¬ opener <:+: ms) : strike ms = outside ms := by
  fun_induction strike ms with
  | case1 => rfl
  | case2 ms => exact absurd ⟨[], ms, rfl⟩ h
  | case3 c ms ih => exact ih fun hms => h (List.infix_cons hms)
  | case4 c ρ ms _ hρ ih =>
    rw [ih fun hms => h (List.infix_cons hms)]
    cases ρ with
    | comment => exact absurd rfl hρ
    | plain | literal => rfl

theorem strike_append (h : ¬ opener <:+: front) :
    strike (front ++ opener ++ back) = outside front ++ scan true (back.map Prod.fst) := by
  induction front with
  | nil => simp [opener, strike]
  | cons m front ih =>
    obtain ⟨c, ρ⟩ := m
    have ih := ih fun hfront => h (List.infix_cons hfront)
    cases ρ with
    | comment => simpa [strike] using ih
    | plain => simpa [strike] using ih
    | literal =>
      have hms : c = '/' → ∀ t, front ++ opener ++ back ≠ ('*', .literal) :: t := by
        rintro rfl t ht
        cases front with
        | nil => simp [opener] at ht
        | cons m front =>
          obtain ⟨rfl, -⟩ := List.cons.inj ht
          exact h ⟨[], front, rfl⟩
      simp only [List.cons_append, strike_literal c hms, ih, outside_literal]

/-- The first marker inside a literal. -/
theorem exists_opener (h : opener <:+: ms) :
    ∃ front back, ms = front ++ opener ++ back ∧ ¬ opener <:+: front := by
  obtain ⟨front, back, hcut⟩ := exists_cut h
  exact ⟨front, back, hcut.eq, hcut.not_infix (List.cons_ne_nil _ _)⟩

/-- Without a marker in a literal, stripping is uncommenting. -/
theorem strip_eq_uncomment (h : ¬ OpensInLiteral s) : strip s = uncomment s :=
  (scan_mark .plain s).trans (strike_eq_outside h)

/-- From the first marker in a literal on, the text is taken for a comment. -/
theorem strip_of_opens (h : OpensInLiteral s) : ∃ front back,
    mark .plain s = front ++ opener ++ back ∧ ¬ opener <:+: front ∧
      strip s = outside front ++ scan true (back.map Prod.fst) := by
  obtain ⟨front, back, hs, hfront⟩ := exists_opener h
  refine ⟨front, back, hs, hfront, ?_⟩
  have := scan_mark .plain s
  rw [hs, strike_append hfront] at this
  exact this

end Comment

namespace Loaded

open Comment

/-- Loading reads the text without its comments if no literal has a marker in it, so that it reads
a text without comments as it stands.  Otherwise all from the first marker in a literal to the next
`*/` is lost, wherever that is.  This is so for every parser. -/
theorem load_uncommented (parse : File.Parser) (env : Environment) (t : String) :
    (¬ OpensInLiteral t.toList →
      loadWith parse env t = interpret parse env (uncomment t.toList)) ∧
    (¬ OpensInLiteral t.toList → (∀ m ∈ mark .plain t.toList, m.2 ≠ .comment) →
      loadWith parse env t = interpret parse env t.toList) ∧
    (OpensInLiteral t.toList → ∃ front back,
      mark .plain t.toList = front ++ opener ++ back ∧ ¬ opener <:+: front ∧
        loadWith parse env t =
          interpret parse env (outside front ++ scan true (back.map Prod.fst))) := by
  have huncomment (h : ¬ OpensInLiteral t.toList) :
      loadWith parse env t = interpret parse env (uncomment t.toList) := by
    rw [loadWith, strip_eq_uncomment h]
  refine ⟨huncomment, fun h hplain => ?_, fun h => ?_⟩
  · rw [huncomment h, uncomment_eq_self hplain]
  · obtain ⟨front, back, hmark, hfront, hstrip⟩ := strip_of_opens h
    exact ⟨front, back, hmark, hfront, by rw [loadWith, hstrip]⟩

/-- A file with one process, whose name is spelled in this way. -/
def solo (spelled : String) : String :=
  "\x7b\"processes\":[\x7b\"name\":\"" ++ spelled ++ "\",\"lifespan\":1\x7d]\x7d"

/-- What a file with one process of this name stands for. -/
def soloNamed (name : String) : Loaded where
  scenario := {
    jobs := [⟨⟨1⟩, name, 0, 1, 0, []⟩]
    resourceCount := 32
    limits := .standard
    maxTicks := 100000
    audit := true }
  strategy := none

set_option maxRecDepth 10000 in
/-- A quote that is escaped does not end the name and the end of a comment in it ends nothing, a
comment before the file is left out, and a name with a comment in it loses this comment. -/
theorem load_uncommented_solo :
    load .empty ("/* one */" ++ solo "a\\\"*/b") = .ok ⟨.ok (soloNamed "a\"*/b"), []⟩ ∧
    load .empty (solo "a/b*c") = .ok ⟨.ok (soloNamed "a/b*c"), []⟩ ∧
    ∃ front back, mark .plain (solo "a/*b*/c").toList = front ++ opener ++ back ∧
      ¬ opener <:+: front ∧ load .empty (solo "a/*b*/c") =
        interpret File.parse .empty (outside front ++ scan true (back.map Prod.fst)) :=
  ⟨((load_uncommented File.parse .empty _).1 (by decide)).trans rfl,
    ((load_uncommented File.parse .empty _).2.1 (by decide) (by decide)).trans rfl,
    (load_uncommented File.parse .empty _).2.2 (by decide)⟩

set_option maxRecDepth 10000 in
/-- The name of the process is `a/*b*/c`, and it is loaded as `ac`. -/
theorem remark_lost :
    load .empty (solo "a/*b*/c") = .ok ⟨.ok (soloNamed "ac"), []⟩ ∧
    interpret File.parse .empty (uncomment (solo "a/*b*/c").toList) =
      .ok ⟨.ok (soloNamed "a/*b*/c"), []⟩ ∧
    load .empty (solo "a/*b*/c") ≠
      interpret File.parse .empty (uncomment (solo "a/*b*/c").toList) := by
  have hload : load .empty (solo "a/*b*/c") = .ok ⟨.ok (soloNamed "ac"), []⟩ := rfl
  have hread : interpret File.parse .empty (uncomment (solo "a/*b*/c").toList) =
      .ok ⟨.ok (soloNamed "a/*b*/c"), []⟩ := rfl
  refine ⟨hload, hread, ?_⟩
  rw [hload, hread]
  simp [soloNamed]

end Loaded

end Uniprocessor
