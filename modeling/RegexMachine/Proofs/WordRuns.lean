import Mathlib.Algebra.Group.Even
import Mathlib.Data.List.Basic
import Mathlib.Tactic.Common
import RegexMachine.Captures
import RegexMachine.Instruction

/-!
# Proofs/WordRuns — word boundaries are the ends of the runs of word units

`isWordBoundary` looks at the two neighbours of a position. Read from left to right, it finds the
two ends of every run of word units that cannot be made longer (`IsWordRun`), and nothing else:
the start of a run where word units begin, and its end where they cease. `wordRunsTo` reads the runs
off the input in this way, with the start of the one that is not over yet. What it has found up to a
position is an invariant of this reading (`Found`), and the boundaries of the whole input follow
from it (`wordBoundaries_eq_ends`).
-/

namespace RegexMachine

/-- The two ends of a stretch. -/
def Span.ends (s : Span) : List Nat := [s.start, s.stop]

section WordRuns

variable {α : Type} [CodeUnit α] {input : Array α} {p : Nat} {s s' : Span}

/-! ## Runs -/

/-- Whether there is a unit just before a position, and it is a word unit. -/
def isWordBefore (input : Array α) (p : Nat) : Bool := (unitBefore? input p).any isWordUnit

/-- Whether there is a unit at a position, and it is a word unit. -/
def isWordAt (input : Array α) (p : Nat) : Bool := input[p]?.any isWordUnit

/-- **A run of word units that cannot be made longer.** -/
structure IsWordRun (input : Array α) (s : Span) : Prop where
  start_lt_stop : s.start < s.stop
  units : ∀ p, s.start ≤ p → p < s.stop → isWordAt input p = true
  before : isWordBefore input s.start = false
  behind : isWordAt input s.stop = false

/-- The positions of an input at which an assertion holds, in increasing order. -/
def Assertion.positions (input : Array α) (kind : Assertion) : List Nat :=
  (List.range (input.size + 1)).filter fun p => kind.holds input p

/-- **The runs that end before a position**, and the start of the one that reaches it. -/
def wordRunsTo (input : Array α) : Nat → List Span × Option Nat
  | 0 => ([], none)
  | p + 1 =>
    match wordRunsTo input p, isWordAt input p with
    | (runs, none), false => (runs, none)
    | (runs, none), true => (runs, some p)
    | (runs, some start), true => (runs, some start)
    | (runs, some start), false => (runs ++ [⟨start, p⟩], none)

/-- The runs of word units of an input, from left to right. -/
def wordRuns (input : Array α) : List Span := (wordRunsTo input (input.size + 1)).1

/-! ## The neighbours of a position -/

@[simp] theorem isWordBefore_zero (input : Array α) : isWordBefore input 0 = false := rfl

@[simp] theorem isWordBefore_succ (input : Array α) (p : Nat) :
    isWordBefore input (p + 1) = isWordAt input p := rfl

theorem lt_size_of_isWordAt (h : isWordAt input p = true) : p < input.size := by
  obtain ⟨unit, hunit, -⟩ := (Option.any_eq_true _ _).mp h
  exact (Array.getElem?_eq_some_iff.mp hunit).1

/-- **A position is a boundary if its neighbours differ**, one that is missing taken for a unit that
is no word unit. -/
theorem isWordBoundary_eq (input : Array α) (p : Nat) :
    isWordBoundary input p = (isWordBefore input p != isWordAt input p) := by
  rw [isWordBoundary, isWordBefore, isWordAt]
  split
  · next hbefore hat => simp [hbefore, hat]
  · next unit hbefore hat => simp [hbefore, hat]
  · next unit hbefore hat => simp [hbefore, hat]
  · next unit unit' hbefore hat => simp [hbefore, hat]

/-- No unit of an empty input is a word unit. -/
theorem isWordBoundary_empty (p : Nat) : isWordBoundary (#[] : Array α) p = false := by
  rw [isWordBoundary_eq]
  cases p <;> simp [isWordAt]

namespace IsWordRun

/-- The last unit of a run stands before its end. -/
theorem exists_last (h : IsWordRun input s) :
    ∃ last, s.stop = last + 1 ∧ isWordAt input last = true := by
  obtain ⟨last, hlast⟩ := Nat.exists_eq_succ_of_ne_zero (Nat.ne_zero_of_lt h.start_lt_stop)
  have hle : s.start ≤ last := Nat.le_of_lt_succ (hlast ▸ h.start_lt_stop)
  exact ⟨last, hlast, h.units last hle (hlast ▸ Nat.lt_succ_self last)⟩

theorem isWordBefore_stop (h : IsWordRun input s) : isWordBefore input s.stop = true := by
  obtain ⟨last, hlast, hat⟩ := h.exists_last
  rwa [hlast, isWordBefore_succ]

theorem stop_le_size (h : IsWordRun input s) : s.stop ≤ input.size := by
  obtain ⟨last, hlast, hat⟩ := h.exists_last
  exact hlast ▸ lt_size_of_isWordAt hat

/-- Of two runs that end at one position, none begins inside the other. -/
theorem start_le_of_stop_eq (h : IsWordRun input s) (h' : IsWordRun input s')
    (hstop : s.stop = s'.stop) : s'.start ≤ s.start := by
  by_contra hlt
  obtain ⟨before, heq⟩ := Nat.exists_eq_succ_of_ne_zero (Nat.ne_zero_of_lt (Nat.not_le.mp hlt))
  have hnot := h'.before
  have hin := h'.start_lt_stop
  rw [heq, isWordBefore_succ, h.units before (by omega) (by omega)] at hnot
  cases hnot

/-- **A run is known by its end.** -/
theorem eq_of_stop_eq (h : IsWordRun input s) (h' : IsWordRun input s')
    (hstop : s.stop = s'.stop) : s = s' := by
  have hle := h.start_le_of_stop_eq h' hstop
  have hle' := h'.start_le_of_stop_eq h hstop.symm
  obtain ⟨start, stop⟩ := s
  obtain ⟨start', stop'⟩ := s'
  rw [Span.mk.injEq]
  exact ⟨Nat.le_antisymm hle' hle, hstop⟩

end IsWordRun

/-! ## Reading from left to right -/

/-- **What is found up to a position** — all runs that end before it and the start of the one that
reaches it, and so all boundaries before it. -/
structure Found (input : Array α) (p : Nat) (runs : List Span) (start? : Option Nat) : Prop where
  mem_iff : ∀ s, s ∈ runs ↔ IsWordRun input s ∧ s.stop < p
  apart : runs.Pairwise fun s s' => s.stop < s'.start
  isSome_start : start?.isSome = isWordBefore input p
  before_start : ∀ start ∈ start?, isWordBefore input start = false
  units : ∀ start ∈ start?, start < p ∧ ∀ k, start ≤ k → k < p → isWordAt input k = true
  stop_lt_start : ∀ start ∈ start?, ∀ s ∈ runs, s.stop < start
  boundaries : (List.range p).filter (isWordBoundary input) =
    runs.flatMap Span.ends ++ start?.toList

namespace Found

variable {runs : List Span} {start? : Option Nat} {start : Nat}

/-- A position adds to the boundaries if word units begin or cease there. -/
theorem filter_succ (h : Found input p runs start?) :
    (List.range (p + 1)).filter (isWordBoundary input) =
      runs.flatMap Span.ends ++ start?.toList ++
        if start?.isSome != isWordAt input p then [p] else [] := by
  rw [List.range_succ, List.filter_append, h.boundaries, List.filter_singleton, isWordBoundary_eq,
    h.isSome_start, cond_eq_ite]

/-- Where no run ends at a position, the next one has the same runs before it. -/
theorem mem_iff_succ (h : Found input p runs start?)
    (hnone : ¬ ∃ s, IsWordRun input s ∧ s.stop = p) (s : Span) :
    s ∈ runs ↔ IsWordRun input s ∧ s.stop < p + 1 := by
  rw [h.mem_iff, Nat.lt_succ_iff_lt_or_eq]
  constructor
  · rintro ⟨hrun, hlt⟩
    exact ⟨hrun, .inl hlt⟩
  · rintro ⟨hrun, hlt | heq⟩
    · exact ⟨hrun, hlt⟩
    · exact absurd ⟨s, hrun, heq⟩ hnone

/-- Between two runs. -/
theorem outside (h : Found input p runs none) (hat : isWordAt input p = false) :
    Found input (p + 1) runs none where
  mem_iff := h.mem_iff_succ fun ⟨s, hrun, hstop⟩ => by
    have hbefore := hrun.isWordBefore_stop
    rw [hstop, ← h.isSome_start] at hbefore
    cases hbefore
  apart := h.apart
  isSome_start := by rw [isWordBefore_succ, hat]; rfl
  before_start := nofun
  units := nofun
  stop_lt_start := nofun
  boundaries := by rw [h.filter_succ, hat]; simp

/-- Where a run starts. -/
theorem opens (h : Found input p runs none) (hat : isWordAt input p = true) :
    Found input (p + 1) runs (some p) where
  mem_iff := h.mem_iff_succ fun ⟨s, hrun, hstop⟩ => by
    have hbehind := hrun.behind
    rw [hstop, hat] at hbehind
    cases hbehind
  apart := h.apart
  isSome_start := by rw [isWordBefore_succ, hat]; rfl
  before_start := by
    rintro start ⟨⟩
    exact h.isSome_start.symm
  units := by
    rintro start ⟨⟩
    refine ⟨Nat.lt_succ_self p, fun k hle hlt => ?_⟩
    obtain rfl : k = p := by omega
    exact hat
  stop_lt_start := by
    rintro start ⟨⟩ s hs
    exact ((h.mem_iff s).mp hs).2
  boundaries := by rw [h.filter_succ, hat]; simp

/-- Inside a run. -/
theorem inside (h : Found input p runs (some start)) (hat : isWordAt input p = true) :
    Found input (p + 1) runs (some start) where
  mem_iff := h.mem_iff_succ fun ⟨s, hrun, hstop⟩ => by
    have hbehind := hrun.behind
    rw [hstop, hat] at hbehind
    cases hbehind
  apart := h.apart
  isSome_start := by rw [isWordBefore_succ, hat]; rfl
  before_start := h.before_start
  units := by
    rintro start ⟨⟩
    obtain ⟨hlt, hunits⟩ := h.units start rfl
    refine ⟨Nat.lt_succ_of_lt hlt, fun k hle hlt => ?_⟩
    rcases Nat.lt_succ_iff_lt_or_eq.mp hlt with hlt | rfl
    · exact hunits k hle hlt
    · exact hat
  stop_lt_start := h.stop_lt_start
  boundaries := by rw [h.filter_succ, hat]; simp

/-- Where a run ends. -/
theorem closes (h : Found input p runs (some start)) (hat : isWordAt input p = false) :
    Found input (p + 1) (runs ++ [⟨start, p⟩]) none := by
  obtain ⟨hlt, hunits⟩ := h.units start rfl
  have hclosed : IsWordRun input ⟨start, p⟩ := ⟨hlt, hunits, h.before_start start rfl, hat⟩
  refine ⟨fun s => ?_, ?_, by rw [isWordBefore_succ, hat]; rfl, nofun, nofun, nofun, ?_⟩
  · rw [List.mem_append, List.mem_singleton, h.mem_iff, Nat.lt_succ_iff_lt_or_eq, and_or_left]
    refine or_congr_right ⟨?_, fun ⟨hrun, hstop⟩ => hrun.eq_of_stop_eq hclosed hstop⟩
    rintro rfl
    exact ⟨hclosed, rfl⟩
  · refine List.pairwise_append.mpr ⟨h.apart, List.pairwise_singleton _ _, ?_⟩
    intro s hs s' hs'
    rw [List.mem_singleton.mp hs']
    exact h.stop_lt_start start rfl s hs
  · rw [h.filter_succ, hat]
    simp [Span.ends]

end Found

/-- **Reading from left to right finds all runs.** -/
theorem found_wordRunsTo (input : Array α) (p : Nat) :
    Found input p (wordRunsTo input p).1 (wordRunsTo input p).2 := by
  induction p with
  | zero => exact ⟨by simp [wordRunsTo], .nil, rfl, nofun, nofun, nofun, rfl⟩
  | succ p ih =>
    rw [wordRunsTo]
    rcases hruns : wordRunsTo input p with ⟨runs, _ | start⟩ <;> rw [hruns] at ih <;>
      rcases hat : isWordAt input p with _ | _
    · exact ih.outside hat
    · exact ih.opens hat
    · exact ih.closes hat
    · exact ih.inside hat

/-- No run reaches past the end. -/
theorem found_wordRuns (input : Array α) :
    Found input (input.size + 1) (wordRuns input) none := by
  have hfound := found_wordRunsTo input (input.size + 1)
  have hnone : (wordRunsTo input (input.size + 1)).2 = none := by
    rw [← Option.isNone_iff_eq_none, ← Option.not_isSome, hfound.isSome_start, isWordBefore_succ]
    simp [isWordAt]
  rwa [hnone] at hfound

theorem mem_wordRuns : s ∈ wordRuns input ↔ IsWordRun input s := by
  rw [(found_wordRuns input).mem_iff, and_iff_left_iff_imp]
  exact fun h => Nat.lt_succ_of_le h.stop_le_size

theorem length_flatMap_ends (runs : List Span) :
    (runs.flatMap Span.ends).length = 2 * runs.length := by
  induction runs with
  | nil => rfl
  | cons s runs ih => simp [ih, Span.ends]; omega

/-- **Word boundaries are the ends of the runs of word units.**

* A position is a boundary exactly if of its two neighbours one is a word unit and the other is
  not, or is missing; so an empty input has none.
* The runs that cannot be made longer lie apart from each other, and the boundaries, in increasing
  order, are the start and the end of the first, those of the second, and so on. Their number is
  even.
* All other positions are those that are no boundary. -/
theorem wordBoundaries_eq_ends (input : Array α) :
    (∀ p, Assertion.wordBoundary.holds input p = true ↔
        isWordBefore input p ≠ isWordAt input p) ∧
      (∀ p, Assertion.wordBoundary.holds (#[] : Array α) p = false) ∧
      (∀ s, s ∈ wordRuns input ↔ IsWordRun input s) ∧
      (wordRuns input).Pairwise (fun s s' => s.stop < s'.start) ∧
      Assertion.wordBoundary.positions input = (wordRuns input).flatMap Span.ends ∧
      Even (Assertion.wordBoundary.positions input).length ∧
      Assertion.notWordBoundary.positions input =
        (List.range (input.size + 1)).filter (· ∉ Assertion.wordBoundary.positions input) := by
  have hfound := found_wordRuns input
  have hends : Assertion.wordBoundary.positions input = (wordRuns input).flatMap Span.ends :=
    hfound.boundaries.trans (List.append_nil _)
  refine ⟨fun p => ?_, isWordBoundary_empty, fun s => mem_wordRuns, hfound.apart, hends, ?_, ?_⟩
  · rw [Assertion.holds, isWordBoundary_eq, bne_iff_ne]
  · rw [hends, length_flatMap_ends]
    exact ⟨_, Nat.two_mul _⟩
  · refine List.filter_congr fun p hp => ?_
    simp [Assertion.positions, Assertion.holds, List.mem_range.mp hp]

/-- `ab, c` has two runs, and boundaries at their ends. -/
example :
    let input : Array UInt8 := #[0x61, 0x62, 0x2c, 0x20, 0x63]
    wordRuns input = [⟨0, 2⟩, ⟨4, 5⟩] ∧ Assertion.wordBoundary.positions input = [0, 2, 4, 5] := by
  decide

end WordRuns

end RegexMachine
