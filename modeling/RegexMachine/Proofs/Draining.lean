import Mathlib
import RegexMachine.Proofs.Conservation

/-!
# Proofs/Draining — at every position the threads come to rest

Between two units the machine runs threads until none can run (`Machine.drain`). Nothing it holds
gets smaller on the way: forks make new threads active, and jumps go back, even to where they stand.
What runs out are the pairs of a counter and a flag that were not run here yet, for every
instruction takes one of them (`length_sitesDrained`). A thread becomes active only by a fork, so
those that are given a turn are the active ones and at most one for every instruction
(`length_threadsTaken_le`).

All this holds of any machine. In a scan there are two pairs for every instruction, and the threads
that are left wait at different pairs, marked at the position (`threads_come_to_rest`).
-/

namespace RegexMachine

namespace Machine

variable {α : Type} [CodeUnit α]

section Definitions

variable (q : Query α)

/-- The active thread that a step gives the turn to, if it does. -/
def takes? (m : Machine) : Option Thread :=
  match m.running with
  | none => m.active.head?
  | some _ => none

/-- The threads that are given a turn until no thread can run. -/
def threadsTaken (m : Machine) : List Thread :=
  if m.isIdle then [] else m.takes?.toList ++ threadsTaken (m.step q)
termination_by m.workload
decreasing_by exact workload_step_lt q (Bool.eq_false_iff.mpr ‹_›)

/-- **How the threads of a machine come to rest.** -/
structure ComesToRest (m : Machine) : Prop where
  /-- Step by step, and not just as a function. -/
  ends : ∃ n, (step q)^[n] m = m.drain q
  running_eq : (m.drain q).running = none
  active_eq : (m.drain q).active = []
  steps_eq : (m.drain q).stats.steps = m.stats.steps + (m.sitesDrained q).length
  length_sites_le : (m.sitesDrained q).length ≤ 2 * q.program.size
  length_taken_le : (m.threadsTaken q).length ≤ m.active.length + 2 * q.program.size
  /-- Those that are left wait for a unit, -/
  waits : ∀ t ∈ (m.drain q).blocked, ∃ min max, q.instruction? t.pc = some (.consume min max)
  /-- no two of them at one counter with one flag, -/
  nodup_blocked : ((m.drain q).blocked.map Thread.pair).Nodup
  /-- and where they wait was run here. -/
  marked : ∀ t ∈ (m.drain q).blocked, (m.drain q).visits.Has t.pc t.consumed m.position

end Definitions

variable {q : Query α} {m₀ m : Machine} {t : Thread} {i : Instruction}

/-! ## Steps -/

/-- Only a fork makes a thread active. -/
theorem length_active_execute_le :
    (m.execute q t i).active.length ≤ m.active.length + 1 := by
  cases i <;> simp only [execute] <;> repeat' split
  all_goals simp [resume, drop, accept]

/-- **A step takes one of the active threads away, or runs an instruction**, which adds one at
most. -/
theorem length_active_step_le (q : Query α) (m : Machine) :
    m.takes?.toList.length + (m.step q).active.length ≤
      m.active.length + (m.runs? q).toList.length := by
  rcases hrunning : m.running with _ | t
  · rcases hactive : m.active with _ | ⟨t, active⟩
    · rw [step_of_isIdle q (by simp [isIdle, hrunning, hactive])]
      simp [takes?, hrunning, hactive]
    · rw [step_of_none q hrunning hactive]
      simp [takes?, hrunning, hactive, Nat.add_comm]
  · have htakes : m.takes? = none := by rw [takes?, hrunning]
    rw [htakes, Option.toList_none, List.length_nil, Nat.zero_add]
    rcases hadmits : m.visits.admits t.pc t.consumed m.position with _ | _
    · rw [step_of_refused q hrunning hadmits]
      exact Nat.le_add_right _ _
    · rcases hi : q.instruction? t.pc with _ | i
      · rw [step_of_missing q hrunning hi]
        exact Nat.le_add_right _ _
      · have hruns : m.runs? q = some (m.siteOf t) := by simp [runs?, hrunning, hadmits, hi]
        rw [step_of_admitted q hrunning hadmits hi, hruns]
        exact length_active_execute_le

/-! ## Until no thread can run -/

/-- **Draining is taking steps.** -/
theorem exists_iterate_eq_drain (q : Query α) (m : Machine) : ∃ n, (step q)^[n] m = m.drain q := by
  fun_induction drain q m with
  | case1 m hidle => exact ⟨0, rfl⟩
  | case2 m hbusy ih =>
    obtain ⟨n, hn⟩ := ih
    exact ⟨n + 1, hn⟩

/-- **Every instruction that is run takes away a pair that could be run here.** -/
theorem length_sitesDrained (q : Query α) (m : Machine) :
    (m.sitesDrained q).length + (m.drain q).visits.pending m.position =
      m.visits.pending m.position := by
  fun_induction sitesDrained q m with
  | case1 m hidle => rw [drain_of_isIdle q hidle, List.length_nil, Nat.zero_add]
  | case2 m hbusy ih =>
    rw [position_step] at ih
    rw [drain_of_busy q (Bool.eq_false_iff.mpr hbusy), List.length_append, Nat.add_assoc, ih]
    rcases step_counts q m with ⟨x, hx, -, -, hadmits, hvisits, -⟩ | ⟨hnone, hvisits, -⟩
    · rw [hx, hvisits, Option.toList_some, List.length_singleton, Nat.add_comm]
      exact VisitLog.pending_record hadmits
    · rw [hnone, hvisits, Option.toList_none, List.length_nil, Nat.zero_add]

/-- **A thread that is given a turn was active, or an instruction made it so.** -/
theorem length_threadsTaken_le (q : Query α) (m : Machine) :
    (m.threadsTaken q).length ≤ m.active.length + (m.sitesDrained q).length := by
  fun_induction threadsTaken q m with
  | case1 m hidle => exact Nat.zero_le _
  | case2 m hbusy ih =>
    have hstep := length_active_step_le q m
    rw [sitesDrained, if_neg hbusy, List.length_append, List.length_append]
    omega

/-- **In a scan the threads come to rest at every position.** -/
theorem Scanning.comesToRest (h : Scanning q m₀ m) (h₀ : m₀.Sound q) : m.ComesToRest q := by
  have hsound := h.drain.sound h₀
  have hroomy := h.drain.roomy h₀
  obtain ⟨hrunning, hactive⟩ : (m.drain q).running = none ∧ (m.drain q).active = [] := by
    simpa [isIdle] using isIdle_drain q m
  have hsites : (m.sitesDrained q).length ≤ 2 * q.program.size := by
    have hpending : m.visits.pending m.position ≤ m.visits.last.size := Array.countP_le_size
    have hdrained := length_sitesDrained q m
    rw [(h.sound h₀).size_visits] at hpending
    omega
  refine ⟨exists_iterate_eq_drain q m, hrunning, hactive, (h.sitesDrained h₀).2.2, hsites,
    (length_threadsTaken_le q m).trans (Nat.add_le_add_left hsites _), fun t ht => ?_,
    hroomy.nodup_blocked, fun t ht => ?_⟩
  · obtain ⟨i, hi, hwaits⟩ := hsound.awaits t ht
    cases i with
    | consume min max => exact ⟨min, max, hi⟩
    | _ => cases hwaits
  · have hmarked := hroomy.marks_blocked t ht
    rwa [siteOf, position_drain] at hmarked

end Machine

namespace Search

variable {α : Type} [CodeUnit α]

/-- **Running the threads of a position always ends** — from every state that a scan of a search
passes through, whatever the program, the input, the hosts and the calls. At most two instructions
are run for every one of the program, and besides the threads that are active at most as many more
are given a turn. Then no thread is active, and all that are left wait for a unit, at different
pairs of a counter and a flag, which were run at this position. -/
theorem threads_come_to_rest (q : Query α) (position : Nat) (calls : List Call) :
    ∀ ask ∈ (start q position).asks q calls,
      ∀ m, Machine.Scanning q ask.1.machine m → m.ComesToRest q := by
  intro ask hask m hm
  have hsound : ∀ ask ∈ (start q position).asks q calls, ask.1.machine.Sound q :=
    (asks_induction (motive := fun s => s.machine.Sound q) (fun _ host h => sound_next h host)
      (sound_start q position) calls).1
  exact hm.comesToRest (hsound ask hask)

/-- A program that goes round without a unit in two places: at its start, in a loop that consumes
nothing, and at its end, where it jumps to where it stands. -/
def circling : Query UInt8 where
  program :=
    ⟨#[.beginLoop, .fork 0, .fork 4, .consume 0x61 0x61, .jump 4], by decide⟩
  registerCount := 2
  enough := by decide
  input := #[0x61]
  pollInterval := defaultPollInterval

/-- It comes to rest after six instructions and three turns, with one thread that waits. -/
theorem threads_come_to_rest_circling :
    let s := start circling 0
    let m := s.machine.beginScan circling
    (s, Host.quiet) ∈ s.asks circling [.next .quiet] ∧
      Machine.Scanning circling s.machine m ∧ m.ComesToRest circling ∧
      (m.sitesDrained circling).map Site.pc = [0, 1, 2, 3, 4, 0] ∧
      (m.threadsTaken circling).map Thread.pc = [0, 4, 0] ∧
      (m.drain circling).blocked.map Thread.pair = [(3, false)] := by
  have hask : (start circling 0, Host.quiet) ∈
      (start circling 0).asks circling [.next .quiet] := List.mem_cons_self
  exact ⟨hask, .begin, threads_come_to_rest circling 0 [.next .quiet] _ hask _ .begin,
    by cbv, by cbv, by cbv⟩

end Search

end RegexMachine
