import Mathlib.Algebra.BigOperators.Group.List.Basic
import Uniprocessor.Proofs.Stamps
import Uniprocessor.Trace.Dump
/-
  Reading a dump back.

  Every field of a line but one ends at a character that it cannot contain.  The exception is the
  name of a process, which may contain anything, a line break and the text of another line
  included; but the pid stands before it, and so the table of names says which characters belong
  to the name.  `Trace.readDump` reads the events of a dump by this.

  `Scan` is the type of readers, and `Scan.Reads f text a` says that `f` takes `text` from the front
  of any longer text and answers `a`.

  Proved: `dump_injective`.
-/

namespace Uniprocessor

/-- A reader: a value and the rest of the text. -/
abbrev Scan := StateT (List Char) Option

namespace Scan

/-- The next characters. -/
def chars (count : Nat) : Scan (List Char) := fun s => some (s.take count, s.drop count)

/-- The characters before the next `stop`, which is skipped. -/
def upTo (stop : Char) : Scan (List Char) := fun s =>
  some (s.takeWhile (· ≠ stop), (s.dropWhile (· ≠ stop)).tail)

/-- Skips a text that has to be next. -/
def literal (text : String) : Scan Unit := fun s =>
  (s.dropPrefix? text.toList).map fun rest => ((), rest)

/-- The number before the next `stop`. -/
def number (stop : Char) : Scan Nat := do return Text.digitsValue 0 (← upTo stop)

/-- The process before the next `stop`. -/
def pid (stop : Char) : Scan Pid := do return ⟨← number stop⟩

/-- The process, if there is one, before the next `stop`. -/
def slot (stop : Char) : Scan (Option Pid) := do
  let word ← upTo stop
  return if word = ['-'] then none else some ⟨Text.digitsValue 0 word⟩

/-- A process and a resource. -/
def use : Scan (Pid × ResourceId) := do
  literal "pid="
  let p ← pid ' '
  literal "res="
  return (p, ⟨← number '\n'⟩)

/-- The tick of a stamp. -/
def stamp : Scan Nat := do
  literal "[tick "
  let word ← upTo ']'
  literal " "
  return Text.digitsValue 0 (word.filter Text.isDigit)

/-- `f` reads `text` as `a`, whatever comes behind it. -/
structure Reads {α : Type} (f : Scan α) (text : List Char) (a : α) : Prop where
  run_eq : ∀ rest, f.run (text ++ rest) = some (a, rest)

variable {α β : Type} {f : Scan α} {g : α → Scan β} {s t : List Char} {a : α} {b : β} {stop : Char}

namespace Reads

theorem congr (h : Reads f s a) (hst : s = t) : Reads f t a := hst ▸ h

theorem pure (a : α) : Reads (Pure.pure a) [] a := ⟨fun _ => rfl⟩

theorem bind (hf : Reads f s a) (hg : Reads (g a) t b) : Reads (f >>= g) (s ++ t) b where
  run_eq rest := by
    rw [StateT.run_bind, List.append_assoc, hf.run_eq]
    exact hg.run_eq rest

/-- What is computed from a value takes no text. -/
theorem map {k : α → β} (hf : Reads f s a) : Reads (do return k (← f)) s (k a) :=
  (hf.bind (.pure (k a))).congr (List.append_nil s)

theorem upTo (hs : stop ∉ s) : Reads (Scan.upTo stop) (s ++ [stop]) s where
  run_eq rest := by
    have hall : ∀ c ∈ s, decide (c ≠ stop) = true := fun c hc =>
      decide_eq_true fun h => hs (h ▸ hc)
    change some _ = _
    rw [List.append_assoc, List.takeWhile_append_of_pos hall, List.dropWhile_append_of_pos hall]
    simp

/-- Behind a fixed text. -/
theorem literal {g : Scan β} (text : String) (hg : Reads g t b) :
    Reads (do Scan.literal text; g) (text.toList ++ t) b where
  run_eq rest := by
    have hdrop : (text.toList ++ (t ++ rest)).dropPrefix? text.toList = some (t ++ rest) :=
      List.dropPrefix?_eq_some_iff.2 ⟨_, rfl, beq_self_eq_true _⟩
    have hskip : (Scan.literal text).run (text.toList ++ (t ++ rest)) = some ((), t ++ rest) :=
      congrArg (Option.map fun rest => ((), rest)) hdrop
    rw [StateT.run_bind, List.append_assoc, hskip]
    exact hg.run_eq rest

theorem number (hstop : Text.isDigit stop = false) (n : Nat) :
    Reads (Scan.number stop) (Nat.toDigits 10 n ++ [stop]) n := by
  have h := (upTo (Text.not_mem_toDigits (n := n) hstop)).map (k := Text.digitsValue 0)
  rwa [Text.digitsValue_toDigits] at h

theorem pid (hstop : Text.isDigit stop = false) (p : Pid) :
    Reads (Scan.pid stop) (p.text.toList ++ [stop]) p := by
  rw [Pid.text, Nat.toList_repr]
  exact (number hstop p.val).map

theorem slot (hstop : Text.isDigit stop = false) (hne : stop ≠ '-') (o : Option Pid) :
    Reads (Scan.slot stop) ((Trace.slotText o).toList ++ [stop]) o := by
  cases o with
  | none => exact (upTo (s := ['-']) (by simpa using hne)).map
  | some p =>
    rw [Trace.slotText, Pid.text, Nat.toList_repr]
    have hdigits : Nat.toDigits 10 p.val ≠ ['-'] := by
      intro h
      have := Text.isDigit_of_mem (c := '-') (n := p.val) (by simp [h])
      cases this
    have h := (upTo (Text.not_mem_toDigits (n := p.val) hstop)).map
      (k := fun word => if word = ['-'] then none else some (⟨Text.digitsValue 0 word⟩ : Pid))
    rwa [if_neg hdigits, Text.digitsValue_toDigits] at h

theorem use (p : Pid) (r : ResourceId) :
    Reads Scan.use ((Trace.useText p r).toList ++ ['\n']) (p, r) := by
  unfold Scan.use
  refine congr (literal _ (bind (pid (by decide) p) (literal _ (map (number (by decide) r.val)))))
    ?_
  simp [Trace.useText]

theorem stamp (v : Nat) : Reads Scan.stamp ("[" ++ Text.tickStamp v ++ "] ").toList v := by
  suffices h : Reads Scan.stamp ("[" ++ Text.tickStamp v ++ "] ").toList
      (Text.digitsValue 0 ((Text.padLeft 9 (Text.grouped v)).toList.filter Text.isDigit)) by
    rwa [Text.filter_grouped, Text.digitsValue_toDigits] at h
  unfold Scan.stamp
  refine congr (literal _ (bind (upTo (Text.not_mem_grouped v)) (literal _ (.pure _)))) ?_
  simp [Text.tickStamp]

end Reads

end Scan

namespace Trace

open Scan

/-- Reads an event and the end of its line, given the names of the processes and the first four
characters, which tell the kinds of events apart. -/
def readFields (name : Pid → String) : String → Scan Event
  | "FORK" => do
    literal "FORK     pid="
    let p ← pid ' '
    literal "("
    literal (name p)
    literal ")\n"
    return .forked p
  | "SWIT" => do
    literal "SWITCH   "
    let prev ← slot ' '
    literal "-> "
    return .switched prev (← slot '\n')
  | "RUN " => do
    literal "RUN      pid="
    let p ← pid ' '
    literal "age="
    return .ran p (← number '\n')
  | "IDLE" => do
    literal "IDLE\n"
    return .idle
  | "ACQU" => do
    literal "ACQUIRE  "
    let u ← use
    return .acquired u.1 u.2
  | "BLOC" => do
    literal "BLOCK    "
    let u ← use
    return .blocked u.1 u.2
  | "RELE" => do
    literal "RELEASE  "
    let u ← use
    return .released u.1 u.2
  | "WAKE" => do
    literal "WAKE     "
    let u ← use
    return .woke u.1 u.2
  | "PRIO" => do
    literal "PRIO     pid="
    let p ← pid ' '
    let old ← number ' '
    literal "-> "
    return .priorityChanged p old (← number '\n')
  | "EXIT" => do
    literal "EXIT     pid="
    return .exited (← pid '\n')
  | _ => failure

/-- Reads an event and the end of its line. -/
def readEvent (name : Pid → String) : Scan Event := fun s =>
  readFields name (String.ofList (s.take 4)) s

/-- Reads a line. -/
def readLine (name : Pid → String) : Scan TraceEvent := do
  let tick ← stamp
  return ⟨tick, ← readEvent name⟩

/-- Reads lines up to the end of the text, at most `fuel` of them. -/
def readLines (name : Pid → String) (fuel : Nat) (s : List Char) : Option (List TraceEvent) :=
  match fuel, s with
  | _, [] => some []
  | 0, _ => none
  | fuel + 1, s => do
    let (e, rest) ← readLine name s
    return e :: (← readLines name fuel rest)

/-- Reads a dump, given the names of the processes. -/
def readDump (name : Pid → String) (text : String) : Option (List TraceEvent) :=
  readLines name text.length text.toList

theorem reads_kind {name : Pid → String} (word : String) {s : List Char} {e : Event}
    (hw : word.toList <+: s) (hl : word.length = 4) (h : Reads (readFields name word) s e) :
    Reads (readEvent name) s e where
  run_eq rest := by
    obtain ⟨t, rfl⟩ := hw
    have hword : String.ofList ((word.toList ++ t ++ rest).take 4) = word := by
      rw [← hl, ← String.length_toList, List.append_assoc, List.take_left, String.ofList_toList]
    change readFields name (String.ofList _) _ = _
    rw [hword]
    exact h.run_eq rest

/-- Every event is read from the end of its line. -/
theorem reads_event (t : Trace) (e : Event) :
    Reads (readEvent t.nameOf) (t.eventText e ++ "\n").toList e := by
  cases e with
  | forked p =>
    have htext : t.eventText (.forked p) =
        "FORK     pid=" ++ p.text ++ " (" ++ t.nameOf p ++ ")" := rfl
    refine reads_kind "FORK" (by simp [htext]) rfl ?_
    rw [readFields]
    exact .congr (.literal _ (.bind (.pid (by decide) p) (.literal _ (.literal _ (.literal _
      (.pure _)))))) (by simp [htext])
  | switched prev next =>
    have htext : t.eventText (.switched prev next) =
        "SWITCH   " ++ slotText prev ++ " -> " ++ slotText next := rfl
    refine reads_kind "SWIT" (by simp [htext]) rfl ?_
    rw [readFields]
    exact .congr (.literal _ (.bind (.slot (by decide) (by decide) prev) (.literal _
      (.map (.slot (by decide) (by decide) next))))) (by simp [htext])
  | ran p age =>
    have htext : t.eventText (.ran p age) =
        "RUN      pid=" ++ p.text ++ " age=" ++ Nat.repr age := rfl
    refine reads_kind "RUN " (by simp [htext]) rfl ?_
    rw [readFields]
    exact .congr (.literal _ (.bind (.pid (by decide) p) (.literal _
      (.map (.number (by decide) age))))) (by simp [htext])
  | idle =>
    have htext : t.eventText .idle = "IDLE" := rfl
    refine reads_kind "IDLE" (by simp [htext]) rfl ?_
    rw [readFields]
    exact .congr (.literal _ (.pure _)) (by simp [htext])
  | acquired p r =>
    have htext : t.eventText (.acquired p r) = "ACQUIRE  " ++ useText p r := rfl
    refine reads_kind "ACQU" (by simp [htext]) rfl ?_
    rw [readFields]
    exact .congr (.literal _ (.map (.use p r))) (by simp [htext])
  | blocked p r =>
    have htext : t.eventText (.blocked p r) = "BLOCK    " ++ useText p r := rfl
    refine reads_kind "BLOC" (by simp [htext]) rfl ?_
    rw [readFields]
    exact .congr (.literal _ (.map (.use p r))) (by simp [htext])
  | released p r =>
    have htext : t.eventText (.released p r) = "RELEASE  " ++ useText p r := rfl
    refine reads_kind "RELE" (by simp [htext]) rfl ?_
    rw [readFields]
    exact .congr (.literal _ (.map (.use p r))) (by simp [htext])
  | woke p r =>
    have htext : t.eventText (.woke p r) = "WAKE     " ++ useText p r := rfl
    refine reads_kind "WAKE" (by simp [htext]) rfl ?_
    rw [readFields]
    exact .congr (.literal _ (.map (.use p r))) (by simp [htext])
  | priorityChanged p old new =>
    have htext : t.eventText (.priorityChanged p old new) =
        "PRIO     pid=" ++ p.text ++ " " ++ Nat.repr old ++ " -> " ++ Nat.repr new := rfl
    refine reads_kind "PRIO" (by simp [htext]) rfl ?_
    rw [readFields]
    exact .congr (.literal _ (.bind (.pid (by decide) p) (.bind (.number (by decide) old)
      (.literal _ (.map (.number (by decide) new)))))) (by simp [htext])
  | exited p =>
    have htext : t.eventText (.exited p) = "EXIT     pid=" ++ p.text := rfl
    refine reads_kind "EXIT" (by simp [htext]) rfl ?_
    rw [readFields]
    exact .congr (.literal _ (.map (.pid (by decide) p))) (by simp [htext])

theorem reads_line (t : Trace) (e : TraceEvent) :
    Reads (readLine t.nameOf) (t.eventLine e).toList e := by
  have hline : t.eventLine e = ("[" ++ Text.tickStamp e.tick ++ "] ") ++
      (t.eventText e.event ++ "\n") := by
    rw [eventLine, String.append_assoc]
  rw [hline, String.toList_append]
  exact (Reads.stamp e.tick).bind (reads_event t e.event).map

theorem eventLine_ne_nil (t : Trace) (e : TraceEvent) : (t.eventLine e).toList ≠ [] := by
  simp [eventLine]

theorem readLines_lines (t : Trace) {events : List TraceEvent} {fuel : Nat}
    (hf : events.length ≤ fuel) :
    readLines t.nameOf fuel (events.flatMap fun e => (t.eventLine e).toList) = some events := by
  induction events generalizing fuel with
  | nil => cases fuel <;> rfl
  | cons e events ih =>
    obtain ⟨fuel, rfl⟩ := Nat.exists_eq_succ_of_ne_zero (n := fuel) (by simp at hf; omega)
    rw [List.flatMap_cons]
    obtain ⟨c, s, hline⟩ := List.exists_cons_of_ne_nil (t.eventLine_ne_nil e)
    have hread := (t.reads_line e).run_eq (events.flatMap fun e => (t.eventLine e).toList)
    rw [hline] at hread ⊢
    change ((readLine t.nameOf).run _ >>= _) = _
    rw [hread]
    change (readLines t.nameOf fuel _ >>= _) = _
    rw [ih (Nat.le_of_succ_le_succ hf)]
    rfl

/-- The events of a trace are read from its dump. -/
theorem readDump_dump (t : Trace) : readDump t.nameOf t.dump = some t.events := by
  have htext : t.dump.toList = t.events.flatMap fun e => (t.eventLine e).toList := by
    rw [dump, String.toList_join, List.flatMap_map]
  have hlength : t.events.length ≤ t.dump.length := by
    rw [← String.length_toList, htext, List.length_flatMap]
    have hone : ∀ k ∈ t.events.map fun e => (t.eventLine e).toList.length, 1 ≤ k := by
      intro k hk
      obtain ⟨e, -, rfl⟩ := List.mem_map.1 hk
      exact List.length_pos_of_ne_nil (t.eventLine_ne_nil e)
    have h := List.length_le_sum_of_one_le _ hone
    rwa [List.length_map] at h
  rw [readDump, htext]
  exact t.readLines_lines hlength

end Trace

/-- Traces with the same names and the same dump have the same events. -/
theorem dump_injective {t u : Trace} (hn : t.names = u.names) (hd : t.dump = u.dump) :
    t.events = u.events := by
  have hname : t.nameOf = u.nameOf := by
    funext p
    rw [Trace.nameOf, Trace.nameOf, hn]
  have h := t.readDump_dump
  rw [hname, hd, u.readDump_dump, Option.some.injEq] at h
  exact h.symm

/-- A trace of a process whose name reads like the end of its line and the line of a second
process. -/
def Trace.forged : Trace where
  events := [⟨0, .forked ⟨1⟩⟩, ⟨1024, .switched none (some ⟨1⟩)⟩]
  names := [(⟨1⟩, "a)\n[tick         0] FORK     pid=2 (b")]
  endTick := 2048
  exit := .normal

theorem dump_injective_forged :
    let cut : Trace := { Trace.forged with endTick := 1024, exit := .tickLimit 1024 }
    Trace.forged.names = cut.names ∧ Trace.forged.dump = cut.dump ∧
      Trace.forged.events = cut.events :=
  ⟨rfl, rfl, dump_injective rfl rfl⟩

/-- Under other names the same text is the dump of other events. -/
example : Trace.forged.dump =
    { Trace.forged with
      events := [⟨0, .forked ⟨1⟩⟩, ⟨0, .forked ⟨2⟩⟩, ⟨1024, .switched none (some ⟨1⟩)⟩]
      names := [(⟨1⟩, "a"), (⟨2⟩, "b")] : Trace }.dump := by
  decide +kernel

end Uniprocessor
