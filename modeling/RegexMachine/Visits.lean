/-!
# Visits — where each instruction was last run

A scan runs an instruction at most once per position of the input and value of the flag that says
whether the thread has consumed a unit since it last entered a loop. A `VisitLog` remembers, for
every pair of a counter and a flag, the position it was last run at. Since threads run in order of
priority, a later thread at a pair already run can only find a match of lower priority.

`pending` counts the pairs that can still be run at a position: every visit takes one away
(`pending_record`), which is why a scan cannot go round in circles without consuming.
-/

namespace RegexMachine

/-- For every pair of a counter and a flag, the position at which it was last run. -/
structure VisitLog where
  last : Array (Option Nat)
  deriving DecidableEq, Repr

namespace VisitLog

/-- A log for a program of `size` instructions, none of them run yet. -/
def fresh (size : Nat) : VisitLog := ⟨Array.replicate (2 * size) none⟩

/-- The place of a pair in the log. -/
def slot (pc : Nat) (consumed : Bool) : Nat := 2 * pc + consumed.toNat

/-- Whether a pair is one of the program's and has not been run at this position. -/
def admits (log : VisitLog) (pc : Nat) (consumed : Bool) (position : Nat) : Bool :=
  log.last[slot pc consumed]?.any (· != some position)

/-- Notes that a pair is run at a position. -/
def record (log : VisitLog) (pc : Nat) (consumed : Bool) (position : Nat) : VisitLog :=
  ⟨log.last.setIfInBounds (slot pc consumed) (some position)⟩

/-- The number of pairs that can still be run at a position. -/
def pending (log : VisitLog) (position : Nat) : Nat := log.last.countP (· != some position)

/-! ## Visits run out -/

/-- **A visit takes away one pair, the one it is made to.** -/
theorem pending_record {log : VisitLog} {pc position : Nat} {consumed : Bool}
    (h : log.admits pc consumed position = true) :
    (log.record pc consumed position).pending position + 1 = log.pending position := by
  unfold admits at h
  unfold record pending
  obtain ⟨old, hold, hne⟩ := (Option.any_eq_true _ _).mp h
  obtain ⟨hlt, rfl⟩ := Array.getElem?_eq_some_iff.mp hold
  have hpos : 0 < log.last.countP (· != some position) :=
    Array.countP_pos_iff.mpr ⟨_, Array.getElem_mem hlt, hne⟩
  simp only [Array.setIfInBounds_def, dif_pos hlt, Array.countP_set, hne, if_true,
    bne_self_eq_false, Bool.false_eq_true, if_false]
  omega

end VisitLog

end RegexMachine
