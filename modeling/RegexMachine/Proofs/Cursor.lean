import Mathlib.Logic.Function.Iterate
import RegexMachine.Proofs.Invariant
import RegexMachine.Regex

/-!
# Proofs/Cursor — a cursor makes the search of one query

A subject has units of one width or the other, and every operation of a cursor asks for the width
before it does anything. The answer is always the same, so a cursor makes the search of one query
over the units of its subject (`Cursor.Runs`, `Regex.exists_runs`). What is proved of searches, over
units of any kind, holds of cursors by this.
-/

namespace RegexMachine

/-! ## Asking again and again -/

namespace Search

variable {α : Type} [CodeUnit α]

/-- A search that was asked for a match so many times, without interrupts. -/
def askedTimes (q : Query α) (s : Search) (times : Nat) : Search :=
  (fun s => (s.next q .quiet).2.1)^[times] s

/-- What is found when a search is asked once more, after it was asked so many times. -/
def outcomeAfter (q : Query α) (s : Search) (times : Nat) : Outcome :=
  ((s.askedTimes q times).next q .quiet).1

variable {q : Query α} {s : Search}

theorem askedTimes_succ (q : Query α) (s : Search) (times : Nat) :
    s.askedTimes q (times + 1) = (s.next q .quiet).2.1.askedTimes q times :=
  rfl

theorem askedTimes_succ' (q : Query α) (s : Search) (times : Nat) :
    s.askedTimes q (times + 1) = ((s.askedTimes q times).next q .quiet).2.1 :=
  Function.iterate_succ_apply' _ times s

theorem askedTimes_of_finished (h : s.finished = true) (times : Nat) : s.askedTimes q times = s :=
  Function.iterate_fixed (by rw [next_of_finished h]) times

theorem sound_askedTimes (h : s.machine.Sound q) (times : Nat) :
    (s.askedTimes q times).machine.Sound q := by
  induction times generalizing s with
  | zero => exact h
  | succ times ih => exact ih (sound_next h .quiet)

end Search

/-! ## Cursors -/

/-- **A cursor runs a query** — whatever its search has come to, it does what a search of the query
does. -/
structure Cursor.Runs {α : Type} [CodeUnit α] (c : Cursor) (q : Query α) : Prop where
  program_eq : q.program = c.regex.program
  registerCount_eq : q.registerCount = c.regex.registerCount
  size_eq : q.input.size = c.subject.size
  next_eq : ∀ (search : Search) (host : Host), { c with search }.next host =
    ((search.next q host).1, { c with search := (search.next q host).2.1 },
      (search.next q host).2.2)
  fill_eq : ∀ (search : Search) (host : Host) (output : Array (Option Nat)),
    { c with search }.fill host output =
      ((search.fill q host output).1, (search.fill q host output).2.1,
        { c with search := (search.fill q host output).2.2.1 }, (search.fill q host output).2.2.2)

/-- **A regex runs one query over a subject**, from the start of the input on. -/
theorem Regex.exists_runs (re : Regex) (input : Input) :
    ∃ (α : Type) (_ : CodeUnit α) (q : Query α), (re.findAll input).Runs q ∧
      (re.findAll input).search = .start q input.start := by
  obtain ⟨subject, start⟩ := input
  cases subject with
  | oneByte units | twoByte units =>
    exact ⟨_, inferInstance, re.query units,
      ⟨rfl, rfl, rfl, fun _ _ => rfl, fun _ _ _ => rfl⟩, rfl⟩

section Runs

variable {α : Type} [CodeUnit α] {q : Query α} {re : Regex} {input : Input} {c : Cursor}

/-- A cursor that is asked again and again asks its search. -/
theorem Cursor.Runs.iterate_next (h : c.Runs q) (times : Nat) :
    (fun c => (c.next .quiet).2.1)^[times] c =
      { c with search := c.search.askedTimes q times } := by
  have hsemiconj : Function.Semiconj (fun search => { c with search })
      (fun search => (search.next q .quiet).2.1) (fun c : Cursor => (c.next .quiet).2.1) :=
    fun search => (congrArg (·.2.1) (h.next_eq search .quiet)).symm
  exact (hsemiconj.iterate_right times c.search).symm

/-- The call that fills an output, made of the search. -/
theorem Regex.fill_eq (hruns : (re.findAll input).Runs q)
    (hsearch : (re.findAll input).search = .start q input.start) (host : Host)
    (output : Array (Option Nat)) :
    re.fill input host output =
      (((Search.start q input.start).fill q host output).1,
        ((Search.start q input.start).fill q host output).2.1,
        ((Search.start q input.start).fill q host output).2.2.2) := by
  have hfill : (re.findAll input).fill host output = _ :=
    hruns.fill_eq (re.findAll input).search host output
  rw [Regex.fill, hfill, hsearch]

end Runs

end RegexMachine
