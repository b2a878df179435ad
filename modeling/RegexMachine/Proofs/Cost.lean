import Mathlib
import RegexMachine.Proofs.Branches
import RegexMachine.Proofs.Progress

/-!
# Proofs/Cost — how many instructions a search runs

A scan never runs an instruction twice at one position with one flag (`Machine.sitesRun`): the log
of visits refuses it, and is not cleared before the next scan. So there are at most two runs of
every instruction at every position, and the counters of a search show it (`Machine.Counted`).

A search makes one scan after the other, each from a later position on, but all of them may read to
the end of the input. `Search.potential` is the cost of all scans that can follow: a scan pays for
itself out of it (`potential_next`), and what is paid in the end is the potential of the search at
its start (`steps_bounded`).
-/

namespace RegexMachine

/-! ## What is left to visit -/

namespace VisitLog

variable {log : VisitLog} {size position : Nat}

theorem exists_slot_eq (i : Nat) : ∃ pc consumed, slot pc consumed = i := by
  refine ⟨i / 2, i % 2 == 1, ?_⟩
  rcases Nat.mod_two_eq_zero_or_one i with hmod | hmod <;> simp [slot, hmod] <;> omega

/-- Where no mark is, every pair can be run. -/
theorem pending_eq_size (h : ∀ pc consumed, ¬ log.Has pc consumed position) :
    log.pending position = log.last.size := by
  refine Array.countP_eq_size.mpr fun mark hmem => ?_
  obtain ⟨i, hi, rfl⟩ := Array.getElem_of_mem hmem
  obtain ⟨pc, consumed, rfl⟩ := exists_slot_eq i
  have hnot := h pc consumed
  rw [Has, Array.getElem?_eq_getElem hi, Option.some.injEq] at hnot
  simpa using hnot

theorem pending_fresh (size position : Nat) : (fresh size).pending position = 2 * size := by
  rw [pending_eq_size fun pc consumed => not_has_fresh size pc position consumed]
  simp [fresh]

end VisitLog

/-! ## The counters of a scan -/

namespace Machine

variable {α : Type}

@[simp] theorem stats_feed (q : Query α) (unit : UInt16) (m : Machine) :
    (m.feed q unit).stats = m.stats := by
  obtain ⟨pool, hpool⟩ := feed_eq q unit m
  rw [hpool]

@[simp] theorem stepsHere_feed (q : Query α) (unit : UInt16) (m : Machine) :
    (m.feed q unit).stepsHere = m.stepsHere := by
  obtain ⟨pool, hpool⟩ := feed_eq q unit m
  rw [hpool]

variable [CodeUnit α] {q : Query α} {m₀ m : Machine} {t : Thread} {i : Instruction}

@[simp] theorem stats_execute : (m.execute q t i).stats = m.stats := by
  cases i <;> simp only [execute] <;> repeat' split
  all_goals rfl

@[simp] theorem stepsHere_execute : (m.execute q t i).stepsHere = m.stepsHere := by
  cases i <;> simp only [execute] <;> repeat' split
  all_goals rfl

/-- **The site of the instruction that a step runs**, if it runs one. -/
def runs? (q : Query α) (m : Machine) : Option Site :=
  match m.running with
  | none => none
  | some t =>
    if m.visits.admits t.pc t.consumed m.position then
      (q.instruction? t.pc).map fun _ => m.siteOf t
    else none

/-- **A step runs an instruction, counts it and marks it; or else it does none of this.** -/
theorem step_counts (q : Query α) (m : Machine) :
    (∃ x, m.runs? q = some x ∧ x.pc < q.program.size ∧ x.position = m.position ∧
        m.visits.admits x.pc x.consumed m.position = true ∧
        (m.step q).visits = m.visits.record x.pc x.consumed m.position ∧
        (m.step q).stepsHere = m.stepsHere + 1 ∧
        (m.step q).stats = { m.stats with
          steps := m.stats.steps + 1
          maxStepsPerPosition := max m.stats.maxStepsPerPosition (m.stepsHere + 1) }) ∨
      m.runs? q = none ∧ (m.step q).visits = m.visits ∧ (m.step q).stepsHere = m.stepsHere ∧
        (m.step q).stats = m.stats := by
  rcases hrunning : m.running with _ | t
  · refine .inr ⟨by rw [runs?, hrunning], ?_⟩
    rcases hactive : m.active with _ | ⟨t, active⟩
    · rw [step_of_isIdle q (by simp [isIdle, hrunning, hactive])]
      exact ⟨rfl, rfl, rfl⟩
    · rw [step_of_none q hrunning hactive]
      exact ⟨rfl, rfl, rfl⟩
  · rcases hadmits : m.visits.admits t.pc t.consumed m.position with _ | _
    · refine .inr ⟨by simp [runs?, hrunning, hadmits], ?_⟩
      rw [step_of_refused q hrunning hadmits]
      exact ⟨rfl, rfl, rfl⟩
    · rcases hi : q.instruction? t.pc with _ | i
      · refine .inr ⟨by simp [runs?, hrunning, hi], ?_⟩
        rw [step_of_missing q hrunning hi]
        exact ⟨rfl, rfl, rfl⟩
      · refine .inl ⟨m.siteOf t, by simp [runs?, hrunning, hadmits, hi],
          (Array.getElem?_eq_some_iff.mp hi).1, rfl, hadmits, ?_⟩
        rw [step_of_admitted q hrunning hadmits hi, visits_execute, stepsHere_execute,
          stats_execute]
        exact ⟨rfl, rfl, rfl⟩

/-- **What the counters of a scan say**, which began with the machine `m₀`: those pairs that cannot
be run here any more have been run here, and no position has taken more steps than there are
pairs. -/
structure Counted (q : Query α) (m₀ m : Machine) : Prop where
  position_le : m₀.position ≤ m.position
  here : m.stepsHere + m.visits.pending m.position = 2 * q.program.size
  steps_le : m.stats.steps ≤
    m₀.stats.steps + 2 * q.program.size * (m.position - m₀.position) + m.stepsHere
  most_le : m.stats.maxStepsPerPosition ≤ max m₀.stats.maxStepsPerPosition (2 * q.program.size)

omit [CodeUnit α] in
theorem Counted.steps_le_succ (h : Counted q m₀ m) :
    m.stats.steps ≤
      m₀.stats.steps + 2 * q.program.size * (m.position - m₀.position + 1) := by
  have hsteps := h.steps_le
  have hhere := h.here
  rw [Nat.mul_succ]
  omega

theorem Scanning.counted (h : Scanning q m₀ m) (h₀ : m₀.Sound q) : Counted q m₀ m := by
  induction h with
  | begin =>
    obtain ⟨pool, -, heq⟩ := h₀.beginScan_eq
    rw [heq]
    exact ⟨Nat.le_refl _, by rw [VisitLog.pending_fresh, Nat.zero_add], by simp,
      Nat.le_max_left _ _⟩
  | @step m h ih =>
    rcases step_counts q m with
      ⟨x, -, -, -, hadmits, hvisits, hhere, hstats⟩ | ⟨-, hvisits, hhere, hstats⟩
    · have hpending := VisitLog.pending_record hadmits
      have hsum := ih.here
      have hmost := ih.most_le
      refine ⟨?_, ?_, ?_, ?_⟩
      · rw [position_step]
        exact ih.position_le
      · rw [hhere, hvisits, position_step]
        omega
      · rw [hstats, hhere, position_step]
        exact Nat.succ_le_succ ih.steps_le
      · rw [hstats]
        exact Nat.max_le.mpr ⟨hmost, Nat.le_trans (by omega) (Nat.le_max_right _ _)⟩
    · refine ⟨?_, ?_, ?_, ?_⟩
      · rw [position_step]
        exact ih.position_le
      · rw [hhere, hvisits, position_step]
        exact ih.here
      · rw [hstats, hhere, position_step]
        exact ih.steps_le
      · rw [hstats]
        exact ih.most_le
  | @read m h hidle hunsettled hlt ih =>
    have hmarks := h.upTo h₀
    have hposition : (m.read q hlt).position = m.position + 1 := position_feed _ _ _
    have hvisits : (m.read q hlt).visits = m.visits := visits_feed _ _ _
    have hstats : (m.read q hlt).stats = m.stats := stats_feed _ _ _
    have hhere : (m.read q hlt).stepsHere = 0 := stepsHere_feed _ _ _
    refine ⟨?_, ?_, ?_, ?_⟩
    · rw [hposition]
      exact Nat.le_succ_of_le ih.position_le
    · rw [hhere, hvisits, hposition, VisitLog.pending_eq_size (hmarks.not_has (Nat.lt_succ_self _)),
        (h.sound h₀).size_visits, Nat.zero_add]
    · have hsteps := ih.steps_le
      have hsum := ih.here
      rw [hstats, hposition, hhere, Nat.succ_sub ih.position_le, Nat.mul_succ]
      omega
    · rw [hstats]
      exact ih.most_le

/-! ## What a scan runs -/

section Definitions

variable (q : Query α)

/-- The sites of the instructions that are run until no thread can run. -/
def sitesDrained (m : Machine) : List Site :=
  if m.isIdle then [] else (m.runs? q).toList ++ sitesDrained (m.step q)
termination_by m.workload
decreasing_by exact workload_step_lt q (Bool.eq_false_iff.mpr ‹_›)

/-- The sites of the instructions that are run while the input is read. -/
def sitesRead (m : Machine) (host : Host) : List Site :=
  if m.isSettled then []
  else if h : m.position < q.input.size then
    match host.pollIf (q.pollsAt (m.position + 1)) with
    | (some _, _) => []
    | (none, host) => (m.read q h).sitesDrained q ++ sitesRead ((m.read q h).drain q) host
  else []
termination_by q.input.size - m.position
decreasing_by
  simp only [position_drain, read, position_feed, advance]
  omega

/-- **The sites of the instructions that a scan runs**, in the order in which it runs them. -/
def sitesRun (m : Machine) (host : Host) : List Site :=
  (m.beginScan q).sitesDrained q ++ sitesRead q ((m.beginScan q).drain q) host

end Definitions

/-- **Until no thread can run, no instruction is run twice with one flag**, nor is one that was
already run here. -/
theorem Scanning.sitesDrained (h : Scanning q m₀ m) (h₀ : m₀.Sound q) :
    (m.sitesDrained q).Nodup ∧
      (∀ x ∈ m.sitesDrained q,
        x.pc < q.program.size ∧ x.position = m.position ∧ ¬ m.visits.Marks x) ∧
      (m.drain q).stats.steps = m.stats.steps + (m.sitesDrained q).length := by
  fun_induction Machine.sitesDrained q m with
  | case1 m hidle => exact ⟨.nil, by simp, by rw [drain_of_isIdle q hidle]; rfl⟩
  | case2 m hbusy ih =>
    obtain ⟨hnodup, hsites, hsteps⟩ := ih h.step
    rw [drain_of_busy q (Bool.eq_false_iff.mpr hbusy), hsteps]
    rw [position_step] at hsites
    rcases step_counts q m with
      ⟨x, hx, hpc, hposition, hadmits, hvisits, -, hstats⟩ | ⟨hnone, hvisits, -, hstats⟩
    · have hsize := (h.sound h₀).size_visits
      have hfree := ((VisitLog.admits_iff hsize).mp hadmits).2
      rw [← hposition] at hfree
      rw [hvisits, ← hposition] at hsites
      rw [hx, Option.toList_some, List.singleton_append]
      refine ⟨List.nodup_cons.mpr ⟨fun hmem => ?_, hnodup⟩,
        List.forall_mem_cons.mpr ⟨⟨hpc, hposition, hfree⟩, fun y hy => ?_⟩, ?_⟩
      · exact (hsites x hmem).2.2 (VisitLog.marks_record_self hsize hpc)
      · obtain ⟨hpc', hposition', hmarks⟩ := hsites y hy
        exact ⟨hpc', hposition'.trans hposition,
          fun hmark => hmarks (hmark.record hsize hpc hposition')⟩
      · rw [hstats]
        exact Nat.add_right_comm _ _ _
    · rw [hnone, hstats]
      exact ⟨hnodup, by rwa [hvisits] at hsites, rfl⟩

theorem position_le_run (q : Query α) (m : Machine) (host : Host) :
    m.position ≤ (m.run q host).2.1.position := by
  induction m, host using run_induction q with
  | settled m host hsettled => rw [run_of_settled q hsettled]
  | ends m host hunsettled hend => rw [run_of_end q hunsettled hend]
  | interrupt m host error host' hunsettled hlt hpoll =>
    rw [run_of_interrupt q hunsettled hlt hpoll]
    exact Nat.le_succ _
  | proceed m host host' hunsettled hlt hpoll ih =>
    rw [run_of_proceed q hunsettled hlt hpoll]
    rw [position_drain, Machine.read, position_feed] at ih
    exact Nat.le_of_succ_le ih

theorem nodup_append_of_lt {sites sites' : List Site} {position : Nat} (h : sites.Nodup)
    (h' : sites'.Nodup) (hhere : ∀ x ∈ sites, x.position = position)
    (hpast : ∀ x ∈ sites', position < x.position) : (sites ++ sites').Nodup := by
  refine List.nodup_append.mpr ⟨h, h', ?_⟩
  rintro x hx y hy rfl
  exact absurd (hhere x hx) (Nat.ne_of_gt (hpast x hy))

/-- While the input is read, every position is new. -/
theorem Scanning.sitesRead (h : Scanning q m₀ m) (h₀ : m₀.Sound q) (hidle : m.isIdle = true)
    (host : Host) :
    (m.sitesRead q host).Nodup ∧
      (∀ x ∈ m.sitesRead q host, x.pc < q.program.size ∧ m.position < x.position ∧
        x.position ≤ (m.run q host).2.1.position) ∧
      (m.run q host).2.1.stats.steps = m.stats.steps + (m.sitesRead q host).length := by
  induction m, host using run_induction q with
  | settled m host hsettled =>
    rw [Machine.sitesRead, if_pos hsettled, run_of_settled q hsettled]
    simp
  | ends m host hunsettled hend =>
    rw [Machine.sitesRead, if_neg (by simp [hunsettled]), dif_neg hend,
      run_of_end q hunsettled hend]
    simp
  | interrupt m host error host' hunsettled hlt hpoll =>
    rw [Machine.sitesRead, if_neg (by simp [hunsettled]), dif_pos hlt,
      run_of_interrupt q hunsettled hlt hpoll, hpoll]
    simp [advance]
  | proceed m host host' hunsettled hlt hpoll ih =>
    have hread := h.read hidle hunsettled hlt
    have hposition : (m.read q hlt).position = m.position + 1 := position_feed _ _ _
    have hstats : (m.read q hlt).stats = m.stats := stats_feed _ _ _
    have hle := position_le_run q ((m.read q hlt).drain q) host'
    obtain ⟨hnodup, hsites, hsteps⟩ := ih hread.drain (isIdle_drain _ _)
    obtain ⟨hnodup', hsites', hsteps'⟩ := hread.sitesDrained h₀
    rw [position_drain, hposition] at hsites hle
    rw [Machine.sitesRead, if_neg (by simp [hunsettled]), dif_pos hlt, hpoll,
      run_of_proceed q hunsettled hlt hpoll]
    refine ⟨nodup_append_of_lt hnodup' hnodup
      (fun x hx => (hsites' x hx).2.1.trans hposition) fun x hx => (hsites x hx).2.1, ?_, ?_⟩
    · intro x hx
      rcases List.mem_append.mp hx with hx | hx
      · have := hsites' x hx
        omega
      · have := hsites x hx
        omega
    · rw [hsteps, hsteps', hstats, List.length_append, Nat.add_assoc]

/-- **A scan runs no instruction twice at one position with one flag**, and counts every instruction
it runs. -/
theorem Sound.sitesRun (h : m.Sound q) (host : Host) :
    (m.sitesRun q host).Nodup ∧
      (∀ x ∈ m.sitesRun q host, x.pc < q.program.size ∧ m.position ≤ x.position ∧
        x.position ≤ (m.scan q host).2.1.position) ∧
      (m.scan q host).2.1.stats.steps = m.stats.steps + (m.sitesRun q host).length := by
  have hbegin : Scanning q m (m.beginScan q) := .begin
  obtain ⟨pool, -, heq⟩ := h.beginScan_eq
  have hposition : (m.beginScan q).position = m.position := by rw [heq]
  have hsteps₀ : (m.beginScan q).stats.steps = m.stats.steps := by rw [heq]
  obtain ⟨hnodup, hsites, hsteps⟩ := hbegin.sitesDrained h
  obtain ⟨hnodup', hsites', hsteps'⟩ := hbegin.drain.sitesRead h (isIdle_drain _ _) host
  have hle := position_le_run q ((m.beginScan q).drain q) host
  rw [position_drain, hposition] at hsites' hle
  rw [hposition] at hsites
  rw [Machine.sitesRun, Machine.scan]
  refine ⟨nodup_append_of_lt hnodup hnodup' (fun x hx => (hsites x hx).2.1)
    fun x hx => (hsites' x hx).2.1, ?_, ?_⟩
  · intro x hx
    rcases List.mem_append.mp hx with hx | hx
    · have := hsites x hx
      omega
    · have := hsites' x hx
      omega
  · rw [hsteps', hsteps, hsteps₀, List.length_append, Nat.add_assoc]

/-- **A scan pays for every position it reaches**, from the one it begins at on. -/
theorem Sound.counted_scan (h : m.Sound q) (host : Host) :
    let last := (m.scan q host).2.1
    m.position ≤ last.position ∧
      last.stats.steps ≤
        m.stats.steps + 2 * q.program.size * (last.position - m.position + 1) ∧
      last.stats.maxStepsPerPosition ≤
        max m.stats.maxStepsPerPosition (2 * q.program.size) := by
  have hend := Scanning.scan q m host
  split at hend
  · next last host' heq =>
    have hcounted := hend.1.counted h
    rw [heq]
    exact ⟨hcounted.position_le, hcounted.steps_le_succ, hcounted.most_le⟩
  · next error last host' heq =>
    obtain ⟨before, hbefore, -, -, rfl⟩ := hend
    have hcounted := hbefore.counted h
    have hle : before.position - m.position + 1 ≤ before.advance.position - m.position + 1 :=
      Nat.succ_le_succ (Nat.sub_le_sub_right (Nat.le_succ _) _)
    rw [heq]
    exact ⟨Nat.le_succ_of_le hcounted.position_le, Nat.le_trans hcounted.steps_le_succ
      (Nat.add_le_add_left (Nat.mul_le_mul_left _ hle) _), hcounted.most_le⟩

end Machine

/-! ## The counters of a search -/

namespace Search

variable {α : Type} [CodeUnit α] {q : Query α} {s : Search}

/-- The searches that are asked for a match in order to find several, and the host of each. -/
def asksOf (q : Query α) : Nat → Search → Host → List (Search × Host)
  | 0, _, _ => []
  | limit + 1, s, host =>
    (s, host) ::
      match s.next q host with
      | (.ok (some _), s, host) => asksOf q limit s host
      | _ => []

/-- **All states in which a search is asked for a match** in the course of a series of calls, and
the host of each. Those that are not finished begin a scan. -/
def asks (q : Query α) (s : Search) : List Call → List (Search × Host)
  | [] => []
  | .next host :: calls => (s, host) :: asks q (s.perform q (.next host)) calls
  | .fill host output :: calls =>
    s.asksOf q (output.size / q.registerCount) host ++
      asks q (s.perform q (.fill host output)) calls

/-- What asking for a match keeps holds whenever a search is asked, and after it. -/
theorem asksOf_induction {motive : Search → Prop}
    (hnext : ∀ s host, motive s → motive (s.next q host).2.1) (hs : motive s) (limit : Nat)
    (host : Host) :
    (∀ ask ∈ s.asksOf q limit host, motive ask.1) ∧ motive (collect q limit s host).2.1 := by
  induction limit generalizing s host with
  | zero => exact ⟨by simp [asksOf], hs⟩
  | succ limit ih =>
    have hone := hnext s host hs
    rw [asksOf, collect]
    rcases hresult : s.next q host with ⟨error | _ | registers, s', later⟩
    · rw [hresult] at hone
      exact ⟨by simpa using hs, hone⟩
    · rw [hresult] at hone
      exact ⟨by simpa using hs, hone⟩
    · rw [hresult] at hone
      obtain ⟨hasks, hafter⟩ := ih hone later
      exact ⟨List.forall_mem_cons.mpr ⟨hs, hasks⟩, hafter⟩

/-- **What asking for a match keeps holds at any time.** -/
theorem asks_induction {motive : Search → Prop}
    (hnext : ∀ s host, motive s → motive (s.next q host).2.1) (hs : motive s)
    (calls : List Call) :
    (∀ ask ∈ s.asks q calls, motive ask.1) ∧ motive (s.after q calls) := by
  induction calls generalizing s with
  | nil => exact ⟨by simp [asks], hs⟩
  | cons call calls ih =>
    cases call with
    | next host =>
      obtain ⟨hasks, hafter⟩ := ih (hnext s host hs)
      exact ⟨List.forall_mem_cons.mpr ⟨hs, hasks⟩, hafter⟩
    | fill host output =>
      obtain ⟨hfirst, hone⟩ := asksOf_induction hnext hs (output.size / q.registerCount) host
      obtain ⟨hasks, hafter⟩ := ih hone
      exact ⟨List.forall_mem_append.mpr ⟨hfirst, hasks⟩, hafter⟩

/-- The number of positions at which a scan can still begin. -/
def startsLeft (q : Query α) (s : Search) : Nat :=
  if s.finished then 0 else q.input.size + 1 - s.position

/-- **The most that all scans to come can cost**, each reading to the end of the input. -/
def potential (q : Query α) (s : Search) : Nat :=
  q.program.size * (s.startsLeft q * (s.startsLeft q + 1))

omit [CodeUnit α] in
theorem stats_conclude (q : Query α) (m : Machine) : (conclude q m).2.stats = m.stats := by
  rw [conclude]
  repeat' split
  all_goals rfl

omit [CodeUnit α] in
theorem startsLeft_start (q : Query α) (position : Nat) :
    (start q position).startsLeft q = q.input.size + 1 - position := by
  rcases Nat.lt_or_ge q.input.size position with hout | hin
  · simp [startsLeft, start, hout, Nat.sub_eq_zero_of_le (Nat.succ_le_of_lt hout)]
  · simp [startsLeft, start, Search.position, Machine.idle, hin, Nat.not_lt.mpr hin]

/-- The counters of a search after it was asked are those of the scan. -/
theorem stats_next (h : s.finished = false) (host : Host) :
    (s.next q host).2.1.stats = (s.machine.scan q host).2.1.stats := by
  rcases hscan : s.machine.scan q host with ⟨_ | error, m, later⟩
  · rw [next_of_scan h hscan]
    exact stats_conclude q m
  · rw [next_of_error h hscan]
    rfl

/-- Behind a scan there is one start less. -/
theorem startsLeft_next (h : s.machine.Sound q) (hgoing : s.finished = false) (host : Host) :
    (s.next q host).2.1.startsLeft q + 1 ≤ s.startsLeft q := by
  have hle : s.position ≤ q.input.size := h.position_le
  have hleft : s.startsLeft q = q.input.size + 1 - s.position := by simp [startsLeft, hgoing]
  have hask := asking_next h host
  generalize (s.next q host).1 = outcome, (s.next q host).2.1 = s' at hask ⊢
  cases hask with
  | idle hfinished => simp [hgoing] at hfinished
  | ends _ _ hends =>
    rw [startsLeft, if_pos hends]
    omega
  | @finds registers m _ _ _ hstart hordered _ hgoes =>
    rw [startsLeft]
    split
    · omega
    · next hmore =>
      obtain ⟨-, hposition, hpast⟩ := hgoes.resolve_left hmore
      have hpast' := Span.start_lt_past hordered
      omega

/-- **A scan is paid for out of the potential**, for there is one start less behind it. -/
theorem potential_next (h : s.machine.Sound q) (host : Host) :
    (s.next q host).2.1.stats.steps + (s.next q host).2.1.potential q ≤
      s.stats.steps + s.potential q := by
  cases hfinished : s.finished with
  | true => rw [next_of_finished hfinished]
  | false =>
    obtain ⟨hposition, hsteps, -⟩ := h.counted_scan host
    have hle : (s.machine.scan q host).2.1.position ≤ q.input.size := (h.scan host).position_le
    have hleft : s.startsLeft q = q.input.size + 1 - s.position := by simp [startsLeft, hfinished]
    have hfewer := startsLeft_next h hfinished host
    have hreach : (s.machine.scan q host).2.1.position - s.machine.position + 1 ≤
        s.startsLeft q := by
      rw [hleft]
      change _ ≤ q.input.size + 1 - s.machine.position
      omega
    rw [potential, potential]
    generalize (s.next q host).2.1.startsLeft q = left at hfewer ⊢
    obtain ⟨more, hmore⟩ : ∃ more, s.startsLeft q = more + 1 := ⟨s.startsLeft q - 1, by omega⟩
    rw [hmore] at hfewer hreach ⊢
    have hrest : left * (left + 1) ≤ more * (more + 1) := Nat.mul_le_mul (by omega) hfewer
    calc (s.next q host).2.1.stats.steps + q.program.size * (left * (left + 1))
        ≤ (s.stats.steps + 2 * q.program.size * (more + 1)) +
            q.program.size * (more * (more + 1)) := by
          rw [stats_next hfinished]
          exact Nat.add_le_add (Nat.le_trans hsteps (Nat.add_le_add_left
            (Nat.mul_le_mul_left _ hreach) _)) (Nat.mul_le_mul_left _ hrest)
      _ = s.stats.steps + q.program.size * ((more + 1) * (more + 1 + 1)) := by ring

/-- No position takes more steps than there are instructions and flags. -/
theorem most_next_le (h : s.machine.Sound q)
    (hmost : s.stats.maxStepsPerPosition ≤ 2 * q.program.size) (host : Host) :
    (s.next q host).2.1.stats.maxStepsPerPosition ≤ 2 * q.program.size := by
  cases hfinished : s.finished with
  | true => rwa [next_of_finished hfinished]
  | false =>
    rw [stats_next hfinished]
    exact Nat.le_trans (h.counted_scan host).2.2 (Nat.max_le.mpr ⟨hmost, Nat.le_refl _⟩)

/-- **The counters keep to their bounds** — whatever the program, the input, the start and the
hosts.

* A scan runs no instruction twice at one position with one flag, and counts all it runs.
* At no time has a position taken more steps than there are instructions and flags.
* A scan that stops at some position, or is ended there by its host, pays for the positions from its
  start to this one.
* Over all scans, the search runs no more than the program once for every two positions from the
  start on, taken in order. -/
theorem steps_bounded (q : Query α) (position : Nat) (calls : List Call) :
    let s := start q position
    let left := q.input.size + 1 - position
    (∀ ask ∈ s.asks q calls, ask.1.finished = false →
        let first := ask.1.machine
        let last := (first.scan q ask.2).2.1
        (first.sitesRun q ask.2).Nodup ∧
          last.stats.steps = first.stats.steps + (first.sitesRun q ask.2).length ∧
          (∀ m, Machine.Scanning q first m →
            m.stats.maxStepsPerPosition ≤ 2 * q.program.size) ∧
          last.stats.steps ≤
            first.stats.steps + 2 * q.program.size * (last.position - first.position + 1)) ∧
      (s.after q calls).stats.maxStepsPerPosition ≤ 2 * q.program.size ∧
      (s.after q calls).stats.steps ≤ q.program.size * left * (left + 1) := by
  intro s left
  -- What is paid and what is still to be paid is never more than at the start.
  have hkept : ∀ (s' : Search) (host : Host),
      (s'.machine.Sound q ∧ s'.stats.maxStepsPerPosition ≤ 2 * q.program.size ∧
        s'.stats.steps + s'.potential q ≤ s.potential q) →
      ((s'.next q host).2.1.machine.Sound q ∧
        (s'.next q host).2.1.stats.maxStepsPerPosition ≤ 2 * q.program.size ∧
        (s'.next q host).2.1.stats.steps + (s'.next q host).2.1.potential q ≤ s.potential q) := by
    rintro s' host ⟨hsound, hmost, hpaid⟩
    exact ⟨sound_next hsound host, most_next_le hsound hmost host,
      Nat.le_trans (potential_next hsound host) hpaid⟩
  have hstart : s.machine.Sound q := sound_start q position
  obtain ⟨hasks, -, hmost, hpaid⟩ :=
    asks_induction hkept ⟨hstart, Nat.zero_le _, Nat.le_of_eq (Nat.zero_add _)⟩ calls
  refine ⟨fun ask hask _ => ?_, hmost, ?_⟩
  · obtain ⟨hsound, hmost, -⟩ := hasks ask hask
    obtain ⟨hnodup, -, hcount⟩ := hsound.sitesRun ask.2
    exact ⟨hnodup, hcount, fun m hm => Nat.le_trans (hm.counted hsound).most_le
      (Nat.max_le.mpr ⟨hmost, Nat.le_refl _⟩), (hsound.counted_scan ask.2).2.1⟩
  · have hbudget : s.potential q = q.program.size * (left * (left + 1)) :=
      congrArg (fun n => q.program.size * (n * (n + 1))) (startsLeft_start q position)
    rw [Nat.mul_assoc, ← hbudget]
    exact Nat.le_trans (Nat.le_add_right _ _) hpaid

/-- The expression `(?:(?:|)a)*`, in which both branches come to the same instruction. -/
def rejoining : Query UInt8 where
  program :=
    ⟨#[.setRegister 0, .fork 3, .jump 3, .fork 6, .consume 0x61 0x61, .jump 1, .setRegister 1,
      .accept], by decide⟩
  registerCount := 2
  enough := by decide
  input := #[0x61]
  pollInterval := defaultPollInterval

/-- On `a`, the second branch is refused where the first one has been: the scan runs seven
instructions at either position, and not sixteen. -/
theorem steps_bounded_rejoining :
    let s := start rejoining 0
    let sites := s.machine.sitesRun rejoining .quiet
    let last := (s.machine.scan rejoining .quiet).2.1
    let after := s.after rejoining [.next .quiet, .next .quiet]
    (s, Host.quiet) ∈ s.asks rejoining [.next .quiet, .next .quiet] ∧ s.finished = false ∧
      sites.map Site.pc = [0, 1, 2, 3, 4, 6, 7, 5, 1, 2, 3, 4, 6, 7] ∧ sites.Nodup ∧
      last.stats.steps = 14 ∧ last.stats.steps ≤ 2 * 8 * (last.position - 0 + 1) ∧
      after.stats.steps = 21 ∧ after.stats.steps ≤ 8 * 2 * 3 := by
  obtain ⟨hscans, -, htotal⟩ := steps_bounded rejoining 0 [.next .quiet, .next .quiet]
  have hask : (start rejoining 0, Host.quiet) ∈
      (start rejoining 0).asks rejoining [.next .quiet, .next .quiet] := List.mem_cons_self
  have hgoing : (start rejoining 0).finished = false := by decide
  obtain ⟨hnodup, -, -, hsteps⟩ := hscans _ hask hgoing
  have hzero : (start rejoining 0).machine.stats.steps = 0 := rfl
  rw [hzero, Nat.zero_add] at hsteps
  exact ⟨hask, hgoing, by cbv, hnodup, by cbv, hsteps, by cbv, htotal⟩

end Search

end RegexMachine
