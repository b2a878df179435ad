import RegexMachine.Proofs.Invariant

/-!
# Proofs/Bounds — no index is ever out of bounds

The machine is total: a look-up past the end gives nothing, and a store past the end changes
nothing. This module says beside it what must be true for no look-up and no store to fall outside.
`stepFaults`, `runFaults`, `nextFaults` and the others walk along with the machine and list the
demands it would break, in the order in which it would break them; `Search.faultsOver` does so for
a whole series of calls. The main statement is that the list is always empty
(`faultsOver_start`): what validation checked of a program is all that its execution relies on.
-/

namespace RegexMachine

/-- A demand on a machine that is not met. -/
inductive Fault where
  /-- A thread stands outside the program. -/
  | counter (pc : Nat)
  /-- A lookbehind is written or read that the program does not have. -/
  | lookbehind (index : Nat)
  /-- A register is written or read that is not there. -/
  | register (r : Nat)
  /-- A register array does not have the length of all others. -/
  | length (size : Nat)
  /-- The position is past the end of the input. -/
  | position (position : Nat)
  /-- A unit is looked at that is not there. -/
  | unit (index : Nat)
  /-- A pair was last run at a later position. -/
  | mark (position : Nat)
  /-- A unit is read although some thread can run without. -/
  | unfinished
  deriving DecidableEq, Repr

/-- Nothing, or the fault of a demand that is not met. -/
def demand (met : Prop) [Decidable met] (fault : Fault) : List Fault := if met then [] else [fault]

@[simp] theorem demand_eq_nil {met : Prop} [Decidable met] {fault : Fault} :
    demand met fault = [] ↔ met := by
  rw [demand]
  split <;> simp_all

/-! ## Demands of single operations -/

/-- Arrays that are given back must have the length of the pool. -/
def RegisterPool.releaseFaults (pool : RegisterPool) (arrays : List Registers) : List Fault :=
  arrays.flatMap fun registers =>
    demand (registers.size = pool.registerCount) (.length registers.size)

/-- The indices of the units an assertion looks at, for an input of `size` units. -/
def Assertion.unitsRead (size position : Nat) : Assertion → List Nat
  | startOfInput | endOfInput => []
  | startOfLine => if position = 0 then [] else [position - 1]
  | endOfLine => if position = size then [] else [position]
  | wordBoundary | notWordBoundary =>
    if size = 0 then []
    else if position = 0 then [0]
    else if position = size then [position - 1]
    else [position - 1, position]

section Demands

variable {α : Type} [CodeUnit α]

theorem isWordBoundary_congr {input input' : Array α} {position : Nat}
    (hsize : input.size = input'.size) (hle : position ≤ input.size)
    (hunits : ∀ i ∈ Assertion.wordBoundary.unitsRead input.size position, input[i]? = input'[i]?) :
    isWordBoundary input position = isWordBoundary input' position := by
  have hbefore : unitBefore? input position = unitBefore? input' position := by
    by_cases h0 : position = 0
    · simp [unitBefore?, h0]
    · have hread := hunits (position - 1) (by
        by_cases hend : position = input.size <;>
          simp [Assertion.unitsRead, h0, hend, show input.size ≠ 0 by omega])
      simpa [unitBefore?, h0] using hread
  have hafter : input[position]? = input'[position]? := by
    by_cases hend : position = input.size
    · rw [Array.getElem?_eq_none (by omega), Array.getElem?_eq_none (by omega)]
    · refine hunits position ?_
      by_cases h0 : position = 0 <;>
        simp [Assertion.unitsRead, h0, hend, show input.size ≠ 0 by omega]
  rw [isWordBoundary, isWordBoundary, hbefore, hafter]

/-- **An assertion depends on the units it looks at alone.** -/
theorem Assertion.holds_congr {input input' : Array α} {position : Nat} (kind : Assertion)
    (hsize : input.size = input'.size) (hle : position ≤ input.size)
    (hunits : ∀ i ∈ kind.unitsRead input.size position, input[i]? = input'[i]?) :
    kind.holds input position = kind.holds input' position := by
  cases kind with
  | startOfInput => rfl
  | endOfInput => simp [holds, hsize]
  | startOfLine =>
    by_cases h0 : position = 0
    · simp [holds, h0]
    · have hbefore := hunits (position - 1) (by simp [unitsRead, h0])
      simp [holds, unitBefore?, h0, hbefore]
  | endOfLine =>
    by_cases hend : position = input.size
    · simp [holds, hend, ← hsize]
    · have hafter := hunits position (by simp [unitsRead, hend])
      simp [holds, hafter, hsize]
  | wordBoundary => exact isWordBoundary_congr hsize hle hunits
  | notWordBoundary => exact congrArg (!·) (isWordBoundary_congr hsize hle hunits)

namespace Machine

/-- What an instruction demands of the machine and of the thread that runs it. -/
def executeFaults (q : Query α) (m : Machine) (t : Thread) : Instruction → List Fault
  | .consume _ _ | .jump _ | .beginLoop => []
  | .assert kind =>
    demand (m.position ≤ q.input.size) (.position m.position) ++
      (kind.unitsRead q.input.size m.position).flatMap
        (fun i => demand (i < q.input.size) (.unit i)) ++
      if kind.holds q.input m.position then [] else m.pool.releaseFaults [t.registers]
  | .fork _ =>
    demand (m.pool.acquire.1.size = m.pool.registerCount) (.length m.pool.acquire.1.size) ++
      demand (t.registers.size = m.pool.registerCount) (.length t.registers.size)
  | .accept => m.pool.releaseFaults (m.best.toList ++ m.active.map Thread.registers)
  | .setRegister r | .clearRegister r => demand (r < t.registers.size) (.register r)
  | .endLoop => if t.consumed then [] else m.pool.releaseFaults [t.registers]
  | .writeLookbehind index =>
    demand (index < m.matched.size) (.lookbehind index) ++ m.pool.releaseFaults [t.registers]
  | .readLookbehind index want =>
    demand (index < m.matched.size) (.lookbehind index) ++
      if m.matched[index]? = some want then [] else m.pool.releaseFaults [t.registers]

/-- What a step demands: the thread whose turn it is stands at an instruction, its pair has a place
in the log and was not run later than here, and the instruction has what it needs. -/
def stepFaults (q : Query α) (m : Machine) : List Fault :=
  match m.running with
  | none => []
  | some t =>
    let slot := VisitLog.slot t.pc t.consumed
    demand (t.pc < q.program.size ∧ slot < m.visits.last.size) (.counter t.pc) ++
      (m.visits.last[slot]?.join).toList.flatMap
        (fun mark => demand (mark ≤ m.position) (.mark mark)) ++
      if m.visits.admits t.pc t.consumed m.position then
        match q.instruction? t.pc with
        | some i => m.executeFaults q t i
        | none => [.counter t.pc]
      else m.pool.releaseFaults [t.registers]

/-- The demands of all steps until no thread can run. -/
def drainFaults (q : Query α) (m : Machine) : List Fault :=
  if m.isIdle then [] else m.stepFaults q ++ drainFaults q (m.step q)
termination_by m.workload
decreasing_by exact workload_step_lt q (Bool.eq_false_iff.mpr ‹_›)

/-- What handing a unit to the blocked threads demands. -/
def feedFaults (q : Query α) (unit : UInt16) (m : Machine) : List Fault :=
  m.blocked.flatMap fun t =>
    demand (t.pc < q.program.size) (.counter t.pc) ++
      if q.accepts t.pc unit then [] else m.pool.releaseFaults [t.registers]

/-- What ending all threads demands. -/
def clearFaults (m : Machine) : List Fault :=
  m.pool.releaseFaults (m.threads.map Thread.registers ++ m.best.toList)

/-- The demands of reading the input. -/
def runFaults (q : Query α) (m : Machine) (host : Host) : List Fault :=
  demand (m.position ≤ q.input.size) (.position m.position) ++
    if m.isSettled then []
    else if h : m.position < q.input.size then
      demand (m.isIdle = true) .unfinished ++
        match host.pollIf (q.pollsAt m.advance.position) with
        | (some _, _) => []
        | (none, host) =>
          m.advance.feedFaults q (CodeUnit.word q.input[m.position]) ++
            (m.read q h).drainFaults q ++ runFaults q ((m.read q h).drain q) host
    else []
termination_by q.input.size - m.position
decreasing_by
  simp only [position_drain, read, position_feed, advance]
  omega

/-- The demands of a whole scan. -/
def scanFaults (q : Query α) (m : Machine) (host : Host) : List Fault :=
  m.clearFaults ++ (m.beginScan q).drainFaults q ++ runFaults q ((m.beginScan q).drain q) host

end Machine

namespace Search

/-- What looking at the result of a scan demands: registers 0 and 1 are there. -/
def concludeFaults (q : Query α) (m : Machine) : List Fault :=
  match m.best with
  | none => []
  | some registers =>
    demand (0 < registers.size) (.register 0) ++ demand (1 < registers.size) (.register 1) ++
      if (registers.span?.filter (·.stop ≤ q.input.size)).isSome then [] else m.clearFaults

/-- The demands of finding one match. -/
def nextFaults (q : Query α) (s : Search) (host : Host) : List Fault :=
  if s.finished then []
  else
    s.machine.scanFaults q host ++
      match s.machine.scan q host with
      | (some _, m, _) => m.clearFaults
      | (none, m, _) => concludeFaults q m

/-- The demands of finding several matches, the registers of each being copied to a slot of the
length all arrays have. -/
def collectFaults (q : Query α) : Nat → Search → Host → List Fault
  | 0, _, _ => []
  | limit + 1, s, host =>
    s.nextFaults q host ++
      match s.next q host with
      | (.ok (some registers), s, host) =>
        demand (registers.size = q.registerCount) (.length registers.size) ++
          collectFaults q limit s host
      | _ => []

/-- The demands of a call. An output can be cut into slots only if these are not empty. -/
def callFaults (q : Query α) (s : Search) : Call → List Fault
  | .next host => s.nextFaults q host
  | .fill host output =>
    demand (0 < q.registerCount) (.length q.registerCount) ++
      s.collectFaults q (output.size / q.registerCount) host

/-- **The demands of a series of calls** — and that each leaves the position in the input. -/
def faultsOver (q : Query α) (s : Search) : List Call → List Fault
  | [] => []
  | call :: calls =>
    let s' := s.perform q call
    s.callFaults q call ++
      demand (s'.position ≤ q.input.size) (.position s'.position) ++ faultsOver q s' calls

end Search

end Demands

/-! ## Every demand is met -/

variable {α : Type} {q : Query α}

theorem RegisterPool.OfLength.releaseFaults {pool : RegisterPool} {n : Nat} (h : pool.OfLength n)
    {arrays : List Registers} (hsize : ∀ registers ∈ arrays, registers.size = n) :
    pool.releaseFaults arrays = [] := by
  refine List.flatMap_eq_nil_iff.mpr fun registers hmem => ?_
  rw [demand_eq_nil, h.registerCount_eq]
  exact hsize registers hmem

theorem Assertion.lt_of_mem_unitsRead {size position i : Nat} {kind : Assertion}
    (hle : position ≤ size) (hi : i ∈ kind.unitsRead size position) : i < size := by
  cases kind with
  | startOfInput | endOfInput => simp [unitsRead] at hi
  | startOfLine =>
    simp only [unitsRead] at hi
    split at hi
    · simp at hi
    · obtain rfl := List.mem_singleton.mp hi
      omega
  | endOfLine =>
    simp only [unitsRead] at hi
    split at hi
    · simp at hi
    · obtain rfl := List.mem_singleton.mp hi
      omega
  | wordBoundary | notWordBoundary =>
    simp only [unitsRead] at hi
    (repeat' split at hi) <;> simp only [List.not_mem_nil, List.mem_cons, or_false] at hi <;> omega

namespace Machine

namespace Sound

variable {m : Machine} {t : Thread}

theorem clearFaults (h : m.Sound q) : m.clearFaults = [] := by
  refine h.pool.releaseFaults fun registers hmem => ?_
  rcases List.mem_append.mp hmem with hmem | hmem
  · obtain ⟨t, ht, rfl⟩ := List.mem_map.mp hmem
    exact (h.fits t ht).size_registers
  · exact h.size_best registers (by simpa using hmem)

/-- Ending a thread that fits demands nothing more. -/
theorem releaseFaults (h : m.Sound q) (ht : t.Fits q) :
    m.pool.releaseFaults [t.registers] = [] :=
  h.pool.releaseFaults fun registers hmem => by
    obtain rfl := List.mem_singleton.mp hmem
    exact ht.size_registers

theorem feedFaults (h : m.Sound q) (unit : UInt16) : m.feedFaults q unit = [] := by
  refine List.flatMap_eq_nil_iff.mpr fun t ht => ?_
  have hfits := h.fits_blocked ht
  simp [hfits.counter_lt, h.releaseFaults hfits]

theorem concludeFaults (h : m.Sound q) : Search.concludeFaults q m = [] := by
  rw [Search.concludeFaults]
  split
  · rfl
  · next registers hbest =>
    have hsize := h.size_best registers (by simp [hbest])
    have htwo := q.two_le_registerCount
    simp [h.clearFaults, show 0 < registers.size by omega, show 1 < registers.size by omega]

variable [CodeUnit α]

/-- **Validation has checked what an instruction demands.** -/
theorem executeFaults (h : m.Sound q) (ht : t.Fits q) {i : Instruction}
    (hi : q.instruction? t.pc = some i) : m.executeFaults q t i = [] := by
  have hend := h.releaseFaults ht
  cases i with
  | consume _ _ | jump _ | beginLoop => rfl
  | assert kind =>
    have hunits : (kind.unitsRead q.input.size m.position).flatMap
        (fun i => demand (i < q.input.size) (.unit i)) = [] :=
      List.flatMap_eq_nil_iff.mpr fun i hmem =>
        demand_eq_nil.mpr (Assertion.lt_of_mem_unitsRead h.position_le hmem)
    simp [Machine.executeFaults, h.position_le, hunits, hend]
  | fork target =>
    have hcopy := h.pool.acquire.1
    simp [Machine.executeFaults, h.pool.registerCount_eq, hcopy, ht.size_registers]
  | accept =>
    refine h.pool.releaseFaults fun registers hmem => ?_
    rcases List.mem_append.mp hmem with hmem | hmem
    · exact h.size_best registers (by simpa using hmem)
    · obtain ⟨u, hu, rfl⟩ := List.mem_map.mp hmem
      exact (h.fits_active hu).size_registers
  | setRegister r =>
    have hr := q.register_lt (.inl hi)
    simp [Machine.executeFaults, ht.size_registers, hr]
  | clearRegister r =>
    have hr := q.register_lt (.inr hi)
    simp [Machine.executeFaults, ht.size_registers, hr]
  | endLoop => simp [Machine.executeFaults, hend]
  | writeLookbehind index =>
    have hindex := q.program.lookbehind_lt (.inl hi)
    simp [Machine.executeFaults, h.size_matched, hindex, hend]
  | readLookbehind index want =>
    have hindex := q.program.lookbehind_lt (.inr ⟨want, hi⟩)
    simp [Machine.executeFaults, h.size_matched, hindex, hend]

/-- **A step breaks no demand.** -/
theorem stepFaults (h : m.Sound q) (hmarks : m.visits.UpTo m.position) :
    m.stepFaults q = [] := by
  rw [Machine.stepFaults]
  split
  · rfl
  · next t hrunning =>
    have ht := h.fits_running hrunning
    have hslot : VisitLog.slot t.pc t.consumed < m.visits.last.size := by
      rw [h.size_visits, VisitLog.slot_lt]
      exact ht.counter_lt
    have hmark : (m.visits.last[VisitLog.slot t.pc t.consumed]?.join).toList.flatMap
        (fun mark => demand (mark ≤ m.position) (.mark mark)) = [] := by
      refine List.flatMap_eq_nil_iff.mpr fun mark hmem => demand_eq_nil.mpr ?_
      refine hmarks t.pc t.consumed mark ?_
      rw [VisitLog.Has]
      simpa [Option.join_eq_some_iff] using hmem
    simp only [ht.counter_lt, hslot, and_self, hmark, demand_eq_nil.mpr, List.nil_append]
    split
    · split
      · next i hi => exact h.executeFaults ht hi
      · next hi =>
        have := ht.counter_lt
        rw [Query.instruction?, Array.getElem?_eq_none_iff] at hi
        exact absurd this (Nat.not_lt.mpr hi)
    · exact h.releaseFaults ht

end Sound

variable [CodeUnit α] {m₀ m : Machine}

theorem Scanning.drainFaults (h : Scanning q m₀ m) (h₀ : m₀.Sound q) : m.drainFaults q = [] := by
  fun_induction Machine.drainFaults q m with
  | case1 m hidle => rfl
  | case2 m hbusy ih =>
    rw [(h.sound h₀).stepFaults (h.upTo h₀), ih h.step]
    rfl

theorem Scanning.runFaults (h : Scanning q m₀ m) (h₀ : m₀.Sound q) (hidle : m.isIdle = true)
    (host : Host) : m.runFaults q host = [] := by
  have hposition := (h.sound h₀).position_le
  induction m, host using Machine.run.induct q with
  | case1 m host hsettled =>
    rw [Machine.runFaults]
    simp [hposition, hsettled]
  | case2 m host hunsettled hlt next error host' hpoll =>
    rw [Machine.runFaults]
    simp [hposition, hunsettled, hlt, hidle, hpoll, next]
  | case3 m host hunsettled hlt unit next host' hpoll ih =>
    have hsound := h.sound h₀
    have hread := h.read hidle (by simpa using hunsettled) hlt
    have hfeed := (hsound.advance hlt).feedFaults unit
    have hrest := ih hread.drain (isIdle_drain _ _) (hread.drain.sound h₀).position_le
    rw [Machine.runFaults]
    simp only [hposition, hunsettled, hlt, hidle, hpoll, next, demand_eq_nil.mpr, dite_true,
      Bool.false_eq_true, if_false, List.nil_append]
    rw [hfeed, hread.drainFaults h₀]
    exact hrest
  | case4 m host hunsettled hend =>
    rw [Machine.runFaults]
    simp [hposition, hend]

theorem Sound.scanFaults (h : m.Sound q) (host : Host) : m.scanFaults q host = [] := by
  have hbegin : Scanning q m (m.beginScan q) := .begin
  rw [Machine.scanFaults, h.clearFaults, hbegin.drainFaults h,
    hbegin.drain.runFaults h (isIdle_drain _ _)]
  rfl

end Machine

namespace Search

variable {s : Search}

theorem best_of_conclude {m : Machine} {registers : Registers}
    (h : (conclude q m).1 = .ok (some registers)) : m.best = some registers := by
  rw [conclude] at h
  split at h
  · simp at h
  · next found hbest =>
    split at h
    · exact hbest.trans (Option.some.inj (Except.ok.inj h) ▸ rfl)
    · simp at h

variable [CodeUnit α]

theorem nextFaults_eq_nil (h : s.machine.Sound q) (host : Host) : s.nextFaults q host = [] := by
  have hscan := h.scan host
  rw [nextFaults, h.scanFaults]
  split
  · rfl
  · split
    · next heq =>
      rw [heq] at hscan
      exact hscan.clearFaults
    · next heq =>
      rw [heq] at hscan
      exact hscan.concludeFaults

/-- The registers of a match are as many as were asked for. -/
theorem size_of_next (h : s.machine.Sound q) {host : Host} {registers : Registers}
    (hfound : (s.next q host).1 = .ok (some registers)) : registers.size = q.registerCount := by
  have hscan := h.scan host
  rw [next] at hfound
  split at hfound
  · simp at hfound
  · split at hfound
    · simp at hfound
    · next m host' heq =>
      rw [heq] at hscan
      exact hscan.size_best registers (best_of_conclude hfound)

theorem collectFaults_eq_nil (h : s.machine.Sound q) (limit : Nat) (host : Host) :
    s.collectFaults q limit host = [] := by
  induction limit generalizing s host with
  | zero => rfl
  | succ limit ih =>
    have hnext := sound_next h host
    rw [collectFaults, nextFaults_eq_nil h]
    split
    · next registers s' host' heq =>
      rw [heq] at hnext
      rw [ih hnext, size_of_next h (by rw [heq])]
      simp
    · rfl

/-- **No index is ever out of bounds** — whatever the program, the input, the start and the hosts,
no call breaks a demand, also after a call that failed. -/
theorem faultsOver_start (q : Query α) (position : Nat) (calls : List Call) :
    (start q position).faultsOver q calls = [] := by
  suffices h : ∀ s : Search, s.machine.Sound q → s.faultsOver q calls = [] from
    h _ (sound_start q position)
  induction calls with
  | nil => exact fun _ _ => rfl
  | cons call calls ih =>
    intro s hs
    have hafter := sound_perform hs call
    have hcall : s.callFaults q call = [] := by
      cases call with
      | next host => exact nextFaults_eq_nil hs host
      | fill host output =>
        have htwo := q.two_le_registerCount
        simp [callFaults, collectFaults_eq_nil hs, show 0 < q.registerCount by omega]
    have hposition : (s.perform q call).position ≤ q.input.size := hafter.position_le
    rw [faultsOver, hcall, ih _ hafter, demand_eq_nil.mpr hposition]
    rfl

end Search

end RegexMachine
