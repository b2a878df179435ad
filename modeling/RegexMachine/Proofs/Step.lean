import Mathlib.Logic.Function.Iterate
import Mathlib.Tactic.Common
import RegexMachine.Scan

/-!
# Proofs/Step — one step of the machine, and the states of a scan

`Machine.step` does one of four things: it gives the turn to an active thread (`step_of_none`),
ends a thread whose pair of counter and flag was already run here or is none of the program
(`step_of_refused`, `step_of_missing`), runs one instruction (`step_of_admitted`), or rests
(`step_of_isIdle`). What each does to a field of the machine is said once, here.

`Machine.Scanning q m₀ m` says that a scan begun with the machine `m₀` passes through `m`. It is
closed under steps and under reading a unit, so a property that these keep holds all through a scan
(`Machine.Scanning.run`).
-/

namespace RegexMachine

namespace VisitLog

/-! ## Marks -/

/-- Whether a pair was last run at a position. -/
def Has (log : VisitLog) (pc : Nat) (consumed : Bool) (position : Nat) : Prop :=
  log.last[slot pc consumed]? = some (some position)

theorem slot_lt {pc size : Nat} (consumed : Bool) :
    slot pc consumed < 2 * size ↔ pc < size := by
  cases consumed <;> simp only [slot, Bool.toNat_true, Bool.toNat_false] <;> omega

theorem slot_inj {pc pc' : Nat} {consumed consumed' : Bool} :
    slot pc consumed = slot pc' consumed' ↔ pc = pc' ∧ consumed = consumed' := by
  cases consumed <;> cases consumed' <;>
    simp only [slot, Bool.toNat_true, Bool.toNat_false, and_true, reduceCtorEq, and_false,
      iff_false] <;>
    omega

/-- **A pair of the program is admitted unless it was last run here.** -/
theorem admits_iff {log : VisitLog} {size pc position : Nat} {consumed : Bool}
    (hsize : log.last.size = 2 * size) :
    log.admits pc consumed position = true ↔ pc < size ∧ ¬ log.Has pc consumed position := by
  rw [admits, Has, Option.any_eq_true, ← slot_lt consumed, ← hsize]
  constructor
  · rintro ⟨mark, hmark, hne⟩
    refine ⟨(Array.getElem?_eq_some_iff.mp hmark).1, fun h => ?_⟩
    obtain rfl : mark = some position := Option.some.inj (hmark.symm.trans h)
    simp at hne
  · rintro ⟨hlt, hne⟩
    refine ⟨log.last[slot pc consumed], Array.getElem?_eq_getElem hlt, ?_⟩
    rw [Array.getElem?_eq_getElem hlt] at hne
    simpa using hne

/-- **Noting a pair marks it, and leaves the marks of all others.** -/
theorem has_record {log : VisitLog} {size pc pc' position position' : Nat}
    {consumed consumed' : Bool} (hsize : log.last.size = 2 * size) (hpc : pc < size) :
    (log.record pc consumed position).Has pc' consumed' position' ↔
      (pc' = pc ∧ consumed' = consumed ∧ position' = position) ∨
        (¬ (pc' = pc ∧ consumed' = consumed) ∧ log.Has pc' consumed' position') := by
  have hslot : slot pc consumed < log.last.size := by rw [hsize, slot_lt]; exact hpc
  rw [Has, Has, record]
  by_cases heq : pc' = pc ∧ consumed' = consumed
  · obtain ⟨rfl, rfl⟩ := heq
    rw [Array.getElem?_setIfInBounds_self_of_lt hslot]
    simp [eq_comm]
  · have hne : slot pc consumed ≠ slot pc' consumed' := fun h =>
      heq ⟨(slot_inj.mp h).1.symm, (slot_inj.mp h).2.symm⟩
    rw [Array.getElem?_setIfInBounds_ne hne]
    tauto

theorem not_has_fresh (size pc position : Nat) (consumed : Bool) :
    ¬ (fresh size).Has pc consumed position := by
  rw [Has, fresh, Array.getElem?_replicate]
  split <;> simp

@[simp] theorem size_record (log : VisitLog) (pc position : Nat) (consumed : Bool) :
    (log.record pc consumed position).last.size = log.last.size := by
  simp [record]

/-- No mark is later than a position. -/
def UpTo (log : VisitLog) (position : Nat) : Prop :=
  ∀ pc consumed mark, log.Has pc consumed mark → mark ≤ position

theorem UpTo.mono {log : VisitLog} {position position' : Nat} (h : log.UpTo position)
    (hle : position ≤ position') : log.UpTo position' :=
  fun pc consumed mark hmark => Nat.le_trans (h pc consumed mark hmark) hle

theorem upTo_fresh (size position : Nat) : (fresh size).UpTo position :=
  fun pc consumed mark h => absurd h (not_has_fresh size pc mark consumed)

theorem UpTo.record {log : VisitLog} {size pc position : Nat} {consumed : Bool}
    (h : log.UpTo position) (hsize : log.last.size = 2 * size) (hpc : pc < size) :
    (log.record pc consumed position).UpTo position := by
  intro pc' consumed' mark hmark
  rcases (has_record hsize hpc).mp hmark with ⟨-, -, rfl⟩ | ⟨-, hold⟩
  · exact Nat.le_refl _
  · exact h pc' consumed' mark hold

/-- Nothing has been run yet at a position past all marks. -/
theorem UpTo.not_has {log : VisitLog} {position later : Nat} (h : log.UpTo position)
    (hlt : position < later) (pc : Nat) (consumed : Bool) : ¬ log.Has pc consumed later :=
  fun hmark => absurd (h pc consumed later hmark) (Nat.not_le.mpr hlt)

end VisitLog

/-- Whether an instruction waits for a unit. -/
def Instruction.waits : Instruction → Bool
  | consume _ _ => true
  | _ => false

/-- Whether an instruction reads what is recorded for a lookbehind. -/
def Instruction.reads : Instruction → Bool
  | readLookbehind _ _ => true
  | _ => false

namespace Machine

/-- The threads that can run without another unit, the one of highest priority first. -/
def pending (m : Machine) : List Thread := m.running.toList ++ m.active

theorem pending_of_none {m : Machine} (h : m.running = none) : m.pending = m.active := by
  rw [pending, h]
  rfl

theorem pending_of_some {m : Machine} {t : Thread} (h : m.running = some t) :
    m.pending = t :: m.active := by
  rw [pending, h]
  rfl

theorem isIdle_iff {m : Machine} : m.isIdle = true ↔ m.pending = [] := by
  simp [isIdle, pending, List.isEmpty_iff]

/-! ## What a step is -/

variable {α : Type} [CodeUnit α] (q : Query α) {m : Machine} {t : Thread} {i : Instruction}

theorem step_of_none {active : List Thread} (hrunning : m.running = none)
    (hactive : m.active = t :: active) :
    m.step q = { m with running := some t, active } := by
  rw [step]
  split <;> simp_all

theorem step_of_isIdle (h : m.isIdle = true) : m.step q = m := by
  rw [isIdle, Bool.and_eq_true, Option.isNone_iff_eq_none, List.isEmpty_iff] at h
  rw [step]
  split <;> simp_all

theorem step_of_refused (hrunning : m.running = some t)
    (h : m.visits.admits t.pc t.consumed m.position = false) : m.step q = m.drop t := by
  rw [step]
  split <;> simp_all

theorem step_of_missing (hrunning : m.running = some t) (hi : q.instruction? t.pc = none) :
    m.step q = m.drop t := by
  rw [step]
  split <;> simp_all

theorem step_of_admitted (hrunning : m.running = some t)
    (h : m.visits.admits t.pc t.consumed m.position = true)
    (hi : q.instruction? t.pc = some i) : m.step q = (m.note t).execute q t i := by
  rw [step]
  split <;> simp_all

/-! ## What running an instruction changes -/

@[simp] theorem visits_execute : (m.execute q t i).visits = m.visits := by
  cases i <;> simp only [execute] <;> repeat' split
  all_goals rfl

/-- Only a thread that waits for a unit becomes blocked. -/
theorem blocked_execute (hi : i.waits = false) : (m.execute q t i).blocked = m.blocked := by
  cases i
  case consume => exact absurd hi (by simp [Instruction.waits])
  all_goals simp only [execute]
  all_goals repeat' split
  all_goals rfl

/-- Only a thread that accepts replaces the best match. -/
theorem best_execute (hi : i ≠ .accept) : (m.execute q t i).best = m.best := by
  cases i
  case accept => exact absurd rfl hi
  all_goals simp only [execute]
  all_goals repeat' split
  all_goals rfl

/-- Only a lookbehind that matches changes what is known of lookbehinds. -/
theorem matched_execute (hi : ∀ index, i ≠ .writeLookbehind index) :
    (m.execute q t i).matched = m.matched := by
  cases i
  case writeLookbehind index => exact absurd rfl (hi index)
  all_goals simp only [execute]
  all_goals repeat' split
  all_goals rfl

end Machine

/-! ## What reading a unit changes -/

section Feed

variable {α : Type}

/-- A thread that waited for a unit, when it goes on with it. -/
def Query.woken (q : Query α) (unit : UInt16) (t : Thread) : Option Thread :=
  if q.accepts t.pc unit then some { t.advance with consumed := true } else none

namespace Machine

variable (q : Query α) (unit : UInt16)

theorem foldl_wake (waiting : List Thread) (m : Machine) :
    ∃ pool, waiting.foldl (wake q unit) m =
      { m with active := (waiting.filterMap (q.woken unit)).reverse ++ m.active, pool } := by
  induction waiting generalizing m with
  | nil => exact ⟨m.pool, rfl⟩
  | cons t waiting ih =>
    obtain ⟨pool, hpool⟩ := ih (m.wake q unit t)
    refine ⟨pool, ?_⟩
    rw [List.foldl_cons, hpool, wake, List.filterMap_cons, Query.woken]
    split <;> simp

/-- **Reading a unit wakes the threads that wanted it** — in the order of their priority. -/
theorem feed_eq (m : Machine) :
    ∃ pool, m.feed q unit =
      { m with
        active := (m.blocked.filterMap (q.woken unit)).reverse ++ m.active
        blocked := []
        pool } := by
  obtain ⟨pool, hpool⟩ := foldl_wake q unit m.blocked { m with blocked := [] }
  exact ⟨pool, hpool⟩

@[simp] theorem active_feed (m : Machine) :
    (m.feed q unit).active = (m.blocked.filterMap (q.woken unit)).reverse ++ m.active := by
  obtain ⟨pool, hpool⟩ := feed_eq q unit m
  rw [hpool]

@[simp] theorem blocked_feed (m : Machine) : (m.feed q unit).blocked = [] := by
  obtain ⟨pool, hpool⟩ := feed_eq q unit m
  rw [hpool]

@[simp] theorem running_feed (m : Machine) : (m.feed q unit).running = m.running := by
  obtain ⟨pool, hpool⟩ := feed_eq q unit m
  rw [hpool]

@[simp] theorem best_feed (m : Machine) : (m.feed q unit).best = m.best := by
  obtain ⟨pool, hpool⟩ := feed_eq q unit m
  rw [hpool]

@[simp] theorem visits_feed (m : Machine) : (m.feed q unit).visits = m.visits := by
  obtain ⟨pool, hpool⟩ := feed_eq q unit m
  rw [hpool]

@[simp] theorem matched_feed (m : Machine) : (m.feed q unit).matched = m.matched := by
  obtain ⟨pool, hpool⟩ := feed_eq q unit m
  rw [hpool]

end Machine

end Feed

/-! ## Polls -/

namespace Host

/-- A host is known by its answers: a poll does not change them. -/
theorem answer_pollIf (host : Host) (due : Bool) : (host.pollIf due).2.answer = host.answer := by
  cases due <;> rfl

theorem error_pollIf_of_quiet {host : Host} (hquiet : ∀ n, host.answer n = .proceed)
    (due : Bool) : (host.pollIf due).1 = none := by
  cases due
  · rfl
  · rw [pollIf, if_pos rfl, poll, hquiet]
    rfl

end Host

/-! ## The states of a scan -/

namespace Machine

variable {α : Type} [CodeUnit α]

/-- The state in which a scan looks at the next unit: all threads that wanted it are awake. -/
def read (q : Query α) (m : Machine) (h : m.position < q.input.size) : Machine :=
  m.advance.feed q (CodeUnit.word q.input[m.position])

section Equations

variable (q : Query α) {m : Machine} {host host' : Host}

theorem drain_of_isIdle (h : m.isIdle = true) : m.drain q = m := by rw [drain, if_pos h]

theorem drain_of_busy (h : m.isIdle = false) : m.drain q = (m.step q).drain q := by
  rw [drain, if_neg (by simp [h])]

theorem run_of_settled (h : m.isSettled = true) (host : Host) :
    m.run q host = (none, m, host) := by
  rw [run, if_pos h]

theorem run_of_end (hunsettled : m.isSettled = false) (hend : ¬ m.position < q.input.size)
    (host : Host) : m.run q host = (none, m, host) := by
  rw [run, if_neg (by simp [hunsettled]), dif_neg hend]

theorem run_of_interrupt (hunsettled : m.isSettled = false) (hlt : m.position < q.input.size)
    {error : SearchError}
    (hpoll : host.pollIf (q.pollsAt (m.position + 1)) = (some error, host')) :
    m.run q host = (some error, m.advance, host') := by
  rw [run, if_neg (by simp [hunsettled]), dif_pos hlt]
  simp [advance, hpoll]

theorem run_of_proceed (hunsettled : m.isSettled = false) (hlt : m.position < q.input.size)
    (hpoll : host.pollIf (q.pollsAt (m.position + 1)) = (none, host')) :
    m.run q host = ((m.read q hlt).drain q).run q host' := by
  rw [run, if_neg (by simp [hunsettled]), dif_pos hlt]
  simp [advance, read, hpoll]

/-- **Induction along the input** — a case for each of the four equations above. -/
@[elab_as_elim]
theorem run_induction {motive : Machine → Host → Prop}
    (settled : ∀ m host, m.isSettled = true → motive m host)
    (ends : ∀ m host, m.isSettled = false → ¬ m.position < q.input.size → motive m host)
    (interrupt : ∀ m host error host', m.isSettled = false → m.position < q.input.size →
      host.pollIf (q.pollsAt (m.position + 1)) = (some error, host') → motive m host)
    (proceed : ∀ m host host', m.isSettled = false → ∀ hlt : m.position < q.input.size,
      host.pollIf (q.pollsAt (m.position + 1)) = (none, host') →
      motive ((m.read q hlt).drain q) host' → motive m host)
    (m : Machine) (host : Host) : motive m host := by
  induction m, host using Machine.run.induct q with
  | case1 m host hsettled => exact settled m host hsettled
  | case2 m host hunsettled hlt next error host' hpoll =>
    exact interrupt m host error host' (Bool.eq_false_iff.mpr hunsettled) hlt hpoll
  | case3 m host hunsettled hlt unit next host' hpoll ih =>
    exact proceed m host host' (Bool.eq_false_iff.mpr hunsettled) hlt hpoll ih
  | case4 m host hunsettled hend =>
    exact ends m host (Bool.eq_false_iff.mpr hunsettled) hend

end Equations

/-- **A scan begun with the machine `m₀` passes through `m`.** -/
inductive Scanning (q : Query α) (m₀ : Machine) : Machine → Prop
  | begin : Scanning q m₀ (m₀.beginScan q)
  | step {m : Machine} (h : Scanning q m₀ m) : Scanning q m₀ (m.step q)
  | read {m : Machine} (h : Scanning q m₀ m) (hidle : m.isIdle = true)
      (hunsettled : m.isSettled = false) (hlt : m.position < q.input.size) :
      Scanning q m₀ (m.read q hlt)

variable {q : Query α} {m₀ m : Machine}

theorem Scanning.iterate (h : Scanning q m₀ m) (n : Nat) :
    Scanning q m₀ ((Machine.step q)^[n] m) := by
  induction n with
  | zero => exact h
  | succ n ih =>
    rw [Function.iterate_succ_apply']
    exact ih.step

theorem Scanning.drain (h : Scanning q m₀ m) : Scanning q m₀ (m.drain q) := by
  fun_induction Machine.drain q m with
  | case1 m hidle => exact h
  | case2 m hbusy ih => exact ih h.step

/-- **What a scan ends with** — nothing can run, and there is no reason to read on; or else the host
was polled on the way to the next position, and ended the scan there. -/
theorem Scanning.run (h : Scanning q m₀ m) (hidle : m.isIdle = true) (host : Host) :
    match m.run q host with
    | (none, last, _) =>
      Scanning q m₀ last ∧ last.isIdle = true ∧
        (last.isSettled = true ∨ q.input.size ≤ last.position)
    | (some _, last, _) =>
      ∃ before, Scanning q m₀ before ∧ before.isIdle = true ∧
        before.position < q.input.size ∧ last = before.advance := by
  fun_induction Machine.run q m host with
  | case1 m host hsettled => exact ⟨h, hidle, .inl hsettled⟩
  | case2 m host hunsettled hlt next error host' hpoll =>
    exact ⟨m, h, hidle, hlt, rfl⟩
  | case3 m host hunsettled hlt unit next host' hpoll ih =>
    exact ih (h.read hidle (by simpa using hunsettled) hlt).drain (isIdle_drain _ _)
  | case4 m host hunsettled hend => exact ⟨h, hidle, .inr (Nat.not_lt.mp hend)⟩

theorem Scanning.scan (q : Query α) (m₀ : Machine) (host : Host) :
    match m₀.scan q host with
    | (none, last, _) =>
      Scanning q m₀ last ∧ last.isIdle = true ∧
        (last.isSettled = true ∨ q.input.size ≤ last.position)
    | (some _, last, _) =>
      ∃ before, Scanning q m₀ before ∧ before.isIdle = true ∧
        before.position < q.input.size ∧ last = before.advance :=
  Scanning.begin.drain.run (isIdle_drain _ _) host

/-- A scan under a host that never interrupts ends by itself. -/
theorem error_run_of_quiet (m : Machine) {host : Host} (hquiet : ∀ n, host.answer n = .proceed) :
    (m.run q host).1 = none := by
  fun_induction Machine.run q m host with
  | case1 m host hsettled => rfl
  | case2 m host hunsettled hlt next error host' hpoll =>
    have hnone := Host.error_pollIf_of_quiet hquiet (q.pollsAt next.position)
    exact absurd hnone (by rw [hpoll]; simp)
  | case3 m host hunsettled hlt unit next host' hpoll ih =>
    have hanswer := Host.answer_pollIf host (q.pollsAt next.position)
    rw [hpoll] at hanswer
    exact ih (fun n => by rw [hanswer]; exact hquiet n)
  | case4 m host hunsettled hend => rfl

theorem error_scan_of_quiet (m : Machine) {host : Host} (hquiet : ∀ n, host.answer n = .proceed) :
    (m.scan q host).1 = none :=
  error_run_of_quiet _ hquiet

end Machine

end RegexMachine
