import RegexMachine.Proofs.Step
import RegexMachine.Proofs.Validation
import RegexMachine.Search

/-!
# Proofs/Invariant — what holds of the machine at any time

`Machine.Sound` ties a machine to its query: the position lies in the input, every thread stands at
an instruction of the program, and every blocked one at an instruction that waits, every register
array has the length fixed for the search, and the two tables have their sizes. Each operation of
the machine keeps it, hence every call of a search does (`Search.sound_after`). Within a scan no
mark is later than the position (`Scanning.upTo`); between scans this fails, since the position goes
back to the end of the match.
-/

namespace RegexMachine

/-! ## Register arrays of one length -/

namespace RegisterPool

/-- Every array that is ready for reuse has the length `n`, as new ones will. -/
structure OfLength (pool : RegisterPool) (n : Nat) : Prop where
  registerCount_eq : pool.registerCount = n
  size_free : ∀ registers ∈ pool.free, registers.size = n

variable {pool : RegisterPool} {n : Nat}

theorem ofLength_empty (n : Nat) : (empty n).OfLength n := ⟨rfl, by simp [empty]⟩

theorem OfLength.release (h : pool.OfLength n) {registers : Registers}
    (hsize : registers.size = n) : (pool.release registers).OfLength n := by
  refine ⟨h.registerCount_eq, fun r hr => ?_⟩
  rcases List.mem_cons.mp hr with rfl | hr
  · exact hsize
  · exact h.size_free r hr

theorem OfLength.releaseAll {arrays : List Registers} (h : pool.OfLength n)
    (hsize : ∀ registers ∈ arrays, registers.size = n) : (pool.releaseAll arrays).OfLength n := by
  induction arrays generalizing pool with
  | nil => exact h
  | cons registers arrays ih =>
    exact ih (h.release (hsize _ List.mem_cons_self)) fun r hr =>
      hsize r (List.mem_cons_of_mem _ hr)

theorem OfLength.acquire (h : pool.OfLength n) :
    pool.acquire.1.size = n ∧ pool.acquire.2.OfLength n := by
  rw [RegisterPool.acquire]
  split
  · next registers free hfree =>
    refine ⟨h.size_free registers (by simp [hfree]), h.registerCount_eq, fun r hr => ?_⟩
    exact h.size_free r (by rw [hfree]; exact List.mem_cons_of_mem _ hr)
  · next hfree =>
    exact ⟨by simp [h.registerCount_eq], h.registerCount_eq, h.size_free⟩

/-- **A recycled array keeps nothing of its old content.** -/
theorem OfLength.acquireFilled (h : pool.OfLength n) (fill : Option Nat) :
    (pool.acquireFilled fill).1 = Array.replicate n fill ∧
      (pool.acquireFilled fill).2.OfLength n := by
  refine ⟨?_, h.acquire.2⟩
  change (pool.acquire.1.map fun _ => fill) = _
  rw [Array.map_const', h.acquire.1]

end RegisterPool

/-! ## Threads and machines -/

section Definitions

variable {α : Type}

/-- A thread stands at an instruction of the program, and has all its registers. -/
structure Thread.Fits (q : Query α) (t : Thread) : Prop where
  counter_lt : t.pc < q.program.size
  size_registers : t.registers.size = q.registerCount

/-- Whether the instruction at a counter waits for a unit. -/
def Query.Awaits (q : Query α) (pc : Nat) : Prop :=
  ∃ i, q.instruction? pc = some i ∧ i.waits = true

theorem Query.Awaits.waits {q : Query α} {pc : Nat} {i : Instruction} (h : q.Awaits pc)
    (hi : q.instruction? pc = some i) : i.waits = true := by
  obtain ⟨i', hi', hwaits⟩ := h
  rwa [Option.some.inj (hi.symm.trans hi')]

/-- **What holds of the machine at any time.** -/
structure Machine.Sound (q : Query α) (m : Machine) : Prop where
  position_le : m.position ≤ q.input.size
  fits : ∀ t ∈ m.threads, t.Fits q
  awaits : ∀ t ∈ m.blocked, q.Awaits t.pc
  size_best : ∀ registers ∈ m.best, registers.size = q.registerCount
  pool : m.pool.OfLength q.registerCount
  size_matched : m.matched.size = q.program.lookbehindCount
  size_visits : m.visits.last.size = 2 * q.program.size

/-- A thread a scan begins with. -/
def Query.seed (q : Query α) (pc : Nat) : Thread where
  pc
  registers := Array.replicate q.registerCount none
  consumed := true

end Definitions

variable {α : Type} {q : Query α}

namespace Thread.Fits

variable {t : Thread} {i : Instruction}

/-- **A thread that does not jump finds the next instruction.** -/
theorem advance (h : t.Fits q) (hi : q.instruction? t.pc = some i)
    (hgoes : i.neverFallsThrough = false) : t.advance.Fits q :=
  ⟨q.program.next_lt hi hgoes, h.size_registers⟩

theorem write (h : t.Fits q) (hi : q.instruction? t.pc = some i)
    (hgoes : i.neverFallsThrough = false) (r : Nat) (value : Option Nat) :
    (t.write r value).Fits q :=
  ⟨q.program.next_lt hi hgoes, by simp [Thread.write, h.size_registers]⟩

theorem setConsumed (h : t.Fits q) (consumed : Bool) : { t with consumed }.Fits q :=
  ⟨h.counter_lt, h.size_registers⟩

theorem setCounter (h : t.Fits q) {pc : Nat} (hpc : pc < q.program.size) : { t with pc }.Fits q :=
  ⟨hpc, h.size_registers⟩

theorem seed {pc : Nat} (hpc : pc < q.program.size) : (q.seed pc).Fits q :=
  ⟨hpc, by simp [Query.seed]⟩

theorem woken (h : t.Fits q) {unit : UInt16} (haccepts : q.accepts t.pc unit = true) :
    { t.advance with consumed := true }.Fits q := by
  rw [Query.accepts] at haccepts
  split at haccepts
  · next hi => exact (h.advance hi rfl).setConsumed true
  · exact absurd haccepts (by simp)

end Thread.Fits

namespace Machine

/-! ## Steps -/

namespace Sound

variable {m : Machine} {t : Thread}

theorem fits_running (h : m.Sound q) (ht : m.running = some t) : t.Fits q :=
  h.fits t (by simp [threads, ht])

theorem fits_active (h : m.Sound q) (ht : t ∈ m.active) : t.Fits q :=
  h.fits t (by simp [threads, ht])

theorem fits_blocked (h : m.Sound q) (ht : t ∈ m.blocked) : t.Fits q :=
  h.fits t (by simp [threads, ht])

/-- A thread of a machine whose turn was given to another one. -/
theorem fits_of_turn (h : m.Sound q) (next : Option Thread) (hnext : ∀ u ∈ next, u.Fits q)
    {u : Thread} (hu : u ∈ next.toList ++ m.active ++ m.blocked) : u.Fits q := by
  rw [List.append_assoc, List.mem_append, List.mem_append] at hu
  rcases hu with hu | hu | hu
  · exact hnext u (by simpa using hu)
  · exact h.fits_active hu
  · exact h.fits_blocked hu

theorem drop (h : m.Sound q) (ht : t.Fits q) : (m.drop t).Sound q :=
  { h with
    fits := fun u hu => h.fits_of_turn none (by simp) hu
    pool := h.pool.release ht.size_registers }

theorem resume (h : m.Sound q) (ht : t.Fits q) : (m.resume t).Sound q :=
  { h with fits := fun u hu => h.fits_of_turn (some t) (by simpa using ht) hu }

theorem note (h : m.Sound q) (t : Thread) : (m.note t).Sound q :=
  { h with size_visits := by simp [Machine.note, h.size_visits] }

theorem accept (h : m.Sound q) (ht : t.Fits q) : (m.accept t).Sound q where
  position_le := h.position_le
  fits := fun u hu => h.fits_blocked (by simpa [Machine.accept, threads] using hu)
  awaits := h.awaits
  size_best := fun r hr => by
    obtain rfl : t.registers = r := by simpa [Machine.accept] using hr
    exact ht.size_registers
  pool := by
    refine (h.pool.releaseAll fun r hr => h.size_best r (by simpa using hr)).releaseAll ?_
    intro r hr
    obtain ⟨u, hu, rfl⟩ := List.mem_map.mp hr
    exact (h.fits_active hu).size_registers
  size_matched := h.size_matched
  size_visits := h.size_visits

variable [CodeUnit α]

/-- **An instruction keeps the machine sound.** -/
theorem execute (h : m.Sound q) (ht : t.Fits q) {i : Instruction}
    (hi : q.instruction? t.pc = some i) : (m.execute q t i).Sound q := by
  cases i with
  | consume min max =>
    refine { h with fits := fun u hu => ?_, awaits := fun u hu => ?_ }
    · rcases List.mem_append.mp hu with hu | hu
      · exact h.fits_active hu
      · rcases List.mem_cons.mp hu with rfl | hu
        · exact ht
        · exact h.fits_blocked hu
    · rcases List.mem_cons.mp hu with rfl | hu
      · exact ⟨_, hi, rfl⟩
      · exact h.awaits u hu
  | assert kind =>
    rw [Machine.execute]
    split
    · exact h.resume (ht.advance hi rfl)
    · exact h.drop ht
  | fork target =>
    refine { h with fits := fun u hu => ?_, pool := h.pool.acquire.2 }
    rcases List.mem_cons.mp hu with rfl | hu
    · exact ht.advance hi rfl
    · rcases List.mem_cons.mp hu with rfl | hu
      · exact ht.setCounter (q.program.target_lt (.inl hi))
      · exact h.fits_of_turn none (by simp) hu
  | jump target => exact h.resume (ht.setCounter (q.program.target_lt (.inr hi)))
  | accept => exact h.accept ht
  | setRegister r => exact h.resume (ht.write hi rfl r _)
  | clearRegister r => exact h.resume (ht.write hi rfl r _)
  | beginLoop => exact h.resume ((ht.advance hi rfl).setConsumed false)
  | endLoop =>
    rw [Machine.execute]
    split
    · exact h.resume (ht.advance hi rfl)
    · exact h.drop ht
  | writeLookbehind index =>
    exact drop { h with size_matched := by simp [h.size_matched] } ht
  | readLookbehind index want =>
    rw [Machine.execute]
    split
    · exact h.resume (ht.advance hi rfl)
    · exact h.drop ht

/-- **A step keeps the machine sound.** -/
theorem step (h : m.Sound q) : (m.step q).Sound q := by
  rw [Machine.step]
  split
  · next t hrunning =>
    have ht := h.fits_running hrunning
    split
    · split
      · next i hi => exact (h.note t).execute ht hi
      · exact h.drop ht
    · exact h.drop ht
  · next t active hrunning hactive =>
    refine { h with fits := fun u hu => h.fits u ?_ }
    simpa [threads, hrunning, hactive] using hu
  · exact h

end Sound

/-! ## Scans -/

theorem Sound.clear {m : Machine} (h : m.Sound q) : m.clear.Sound q where
  position_le := h.position_le
  fits := by simp [Machine.clear, threads]
  awaits := by simp [Machine.clear]
  size_best := by simp [Machine.clear]
  pool := by
    refine (h.pool.releaseAll fun r hr => ?_).releaseAll fun r hr =>
      h.size_best r (by simpa using hr)
    obtain ⟨t, ht, rfl⟩ := List.mem_map.mp hr
    exact (h.fits t ht).size_registers
  size_matched := h.size_matched
  size_visits := h.size_visits

theorem foldl_spawn (pcs : List Nat) {m : Machine} (h : m.pool.OfLength q.registerCount) :
    ∃ pool : RegisterPool, pool.OfLength q.registerCount ∧
      pcs.foldl spawn m = { m with active := (pcs.map q.seed).reverse ++ m.active, pool } := by
  induction pcs generalizing m with
  | nil => exact ⟨m.pool, h, rfl⟩
  | cons pc pcs ih =>
    obtain ⟨hblank, hpool⟩ := h.acquireFilled none
    obtain ⟨pool, hlength, heq⟩ := ih (m := m.spawn pc) hpool
    refine ⟨pool, hlength, ?_⟩
    rw [List.foldl_cons, heq]
    simp [spawn, Query.seed, hblank]

/-- **A scan begins with a clean slate** — one thread at every entry, nothing recorded, and of the
machine before it only the position, the counters and the pool. -/
theorem Sound.beginScan_eq {m : Machine} (h : m.Sound q) :
    ∃ pool : RegisterPool, pool.OfLength q.registerCount ∧
      m.beginScan q =
        { position := m.position
          active := ((seeds q).map q.seed).reverse
          pool
          visits := .fresh q.program.size
          matched := noneMatched q
          stats := { m.stats with scans := m.stats.scans + 1 } } := by
  obtain ⟨pool, hpool, heq⟩ := foldl_spawn (seeds q) (m :=
    { m.clear with
      visits := .fresh q.program.size
      matched := noneMatched q
      stats.scans := m.stats.scans + 1
      stepsHere := 0 }) h.clear.pool
  refine ⟨pool, hpool, heq.trans ?_⟩
  simp [Machine.clear]

theorem lt_of_mem_seeds {pc : Nat} (h : pc ∈ seeds q) : pc < q.program.size := by
  rcases List.mem_cons.mp h with rfl | h
  · exact q.program.size_pos
  · exact q.program.lt_of_mem_entries h

theorem Sound.beginScan {m : Machine} (h : m.Sound q) : (m.beginScan q).Sound q := by
  obtain ⟨pool, hpool, heq⟩ := h.beginScan_eq
  rw [heq]
  exact
    { position_le := h.position_le
      fits := fun t ht => by
        obtain ⟨pc, hpc, rfl⟩ : ∃ pc ∈ seeds q, q.seed pc = t := by simpa [threads] using ht
        exact .seed (lt_of_mem_seeds hpc)
      awaits := by simp
      size_best := by simp
      pool := hpool
      size_matched := by simp [noneMatched]
      size_visits := by simp [VisitLog.fresh] }

theorem Sound.advance {m : Machine} (h : m.Sound q) (hlt : m.position < q.input.size) :
    m.advance.Sound q :=
  { h with
    position_le := hlt
    size_matched := by simp [Machine.advance, h.size_matched] }

theorem Sound.wake {m : Machine} (h : m.Sound q) {t : Thread} (ht : t.Fits q) (unit : UInt16) :
    (m.wake q unit t).Sound q := by
  rw [Machine.wake]
  split
  · next haccepts =>
    refine { h with fits := fun u hu => ?_ }
    have hcases : u = { t.advance with consumed := true } ∨ u ∈ m.threads := by
      simp only [threads, List.mem_append, List.mem_cons] at hu ⊢
      tauto
    rcases hcases with rfl | hu
    · exact ht.woken haccepts
    · exact h.fits u hu
  · exact { h with pool := h.pool.release ht.size_registers }

theorem Sound.foldl_wake {m : Machine} (h : m.Sound q) {waiting : List Thread}
    (hfits : ∀ t ∈ waiting, t.Fits q) (unit : UInt16) :
    (waiting.foldl (Machine.wake q unit) m).Sound q := by
  induction waiting generalizing m with
  | nil => exact h
  | cons t waiting ih =>
    exact ih (h.wake (hfits t List.mem_cons_self) unit) fun u hu =>
      hfits u (List.mem_cons_of_mem _ hu)

theorem Sound.feed {m : Machine} (h : m.Sound q) (unit : UInt16) : (m.feed q unit).Sound q := by
  refine foldl_wake (m := { m with blocked := [] }) ?_ (fun t ht => h.fits_blocked ht) unit
  refine { h with fits := fun t ht => h.fits t ?_, awaits := by simp }
  rw [threads, List.append_nil] at ht
  exact List.mem_append_left _ ht

variable [CodeUnit α]

theorem Sound.read {m : Machine} (h : m.Sound q) (hlt : m.position < q.input.size) :
    (m.read q hlt).Sound q :=
  (h.advance hlt).feed _

/-- **All through a scan the machine is sound, and no mark is later than the position.** -/
theorem Scanning.sound_upTo {m₀ m : Machine} (h₀ : m₀.Sound q) (h : Scanning q m₀ m) :
    m.Sound q ∧ m.visits.UpTo m.position := by
  induction h with
  | begin =>
    refine ⟨h₀.beginScan, ?_⟩
    obtain ⟨pool, hpool, heq⟩ := h₀.beginScan_eq
    rw [heq]
    exact VisitLog.upTo_fresh _ _
  | @step m _ ih =>
    obtain ⟨hsound, hmarks⟩ := ih
    refine ⟨hsound.step, ?_⟩
    rw [position_step, Machine.step]
    split
    · next t hrunning =>
      have ht := hsound.fits_running hrunning
      split
      · split
        · rw [visits_execute]
          exact hmarks.record hsound.size_visits ht.counter_lt
        · exact hmarks
      · exact hmarks
    · exact hmarks
    · exact hmarks
  | @read m _ hidle hunsettled hlt ih =>
    obtain ⟨hsound, hmarks⟩ := ih
    refine ⟨hsound.read hlt, ?_⟩
    simp only [Machine.read, visits_feed, position_feed]
    exact hmarks.mono (Nat.le_succ _)

theorem Scanning.sound {m₀ m : Machine} (h : Scanning q m₀ m) (h₀ : m₀.Sound q) : m.Sound q :=
  (sound_upTo h₀ h).1

theorem Scanning.upTo {m₀ m : Machine} (h : Scanning q m₀ m) (h₀ : m₀.Sound q) :
    m.visits.UpTo m.position :=
  (sound_upTo h₀ h).2

theorem Sound.scan {m : Machine} (h : m.Sound q) (host : Host) : (m.scan q host).2.1.Sound q := by
  have hend := Scanning.scan q m host
  split at hend
  · next last host' heq =>
    rw [heq]
    exact hend.1.sound h
  · next error last host' heq =>
    obtain ⟨before, hbefore, -, hlt, rfl⟩ := hend
    rw [heq]
    exact (hbefore.sound h).advance hlt

end Machine

/-! ## Searches -/

namespace Search

section Equations

variable {m : Machine} {registers : Registers}

theorem conclude_of_none (h : m.best = none) :
    conclude q m = (.ok none, { machine := m, finished := true }) := by
  simp [conclude, h]

theorem conclude_of_span {span : Span} (h : m.best = some registers)
    (hspan : registers.span?.filter (·.stop ≤ q.input.size) = some span) :
    conclude q m = (.ok (some registers), passMatch q m span) := by
  simp [conclude, h, hspan]

theorem conclude_of_malformed (h : m.best = some registers)
    (hspan : registers.span?.filter (·.stop ≤ q.input.size) = none) :
    conclude q m =
      (.error (.malformedMatch (registers.position? 0) (registers.position? 1)), fail m) := by
  simp [conclude, h, hspan]

variable [CodeUnit α] {s : Search} {host host' : Host}

theorem next_of_finished (h : s.finished = true) (host : Host) :
    s.next q host = (.ok none, s, host) := by
  rw [next, if_pos h]

theorem next_of_error {error : SearchError} (h : s.finished = false)
    (hscan : s.machine.scan q host = (some error, m, host')) :
    s.next q host = (.error error, fail m, host') := by
  simp [next, h, hscan]

theorem next_of_scan (h : s.finished = false)
    (hscan : s.machine.scan q host = (none, m, host')) :
    s.next q host = ((conclude q m).1, (conclude q m).2, host') := by
  simp [next, h, hscan]

/-- **Where no match is found, no more will be.** -/
theorem finished_of_next (hnone : ∀ registers, (s.next q host).1 ≠ .ok (some registers)) :
    (s.next q host).2.1.finished = true := by
  cases hfinished : s.finished with
  | true => rwa [next_of_finished hfinished]
  | false =>
    rcases hscan : s.machine.scan q host with ⟨_ | error, m, later⟩
    · rw [next_of_scan hfinished hscan] at hnone ⊢
      rcases hbest : m.best with _ | registers
      · rw [conclude_of_none hbest]
      · rcases hspan : registers.span?.filter (·.stop ≤ q.input.size) with _ | span
        · rw [conclude_of_malformed hbest hspan]
          rfl
        · rw [conclude_of_span hbest hspan] at hnone
          exact absurd rfl (hnone registers)
    · rw [next_of_error hfinished hscan]
      rfl

/-- Under a host that never interrupts, every scan is concluded. -/
theorem next_of_quiet (h : s.finished = false) (hquiet : ∀ n, host.answer n = .proceed) :
    s.next q host =
      ((conclude q (s.machine.scan q host).2.1).1, (conclude q (s.machine.scan q host).2.1).2,
        (s.machine.scan q host).2.2) :=
  next_of_scan h (Prod.ext (Machine.error_scan_of_quiet s.machine hquiet) rfl)

end Equations

theorem sound_start (q : Query α) (position : Nat) : (start q position).machine.Sound q where
  position_le := Nat.min_le_right _ _
  fits := by simp [start, Machine.idle, Machine.threads]
  awaits := by simp [start, Machine.idle]
  size_best := by simp [start, Machine.idle]
  pool := RegisterPool.ofLength_empty _
  size_matched := by simp [start, Machine.idle, Machine.noneMatched]
  size_visits := by simp [start, Machine.idle, VisitLog.fresh]

theorem sound_passMatch {m : Machine} (h : m.Sound q) {span : Span}
    (hspan : span.stop ≤ q.input.size) : (passMatch q m span).machine.Sound q := by
  refine { h with position_le := ?_ }
  simp only [passMatch]
  split
  · next hempty =>
    simp only [Bool.and_eq_true, Bool.not_eq_true', beq_eq_false_iff_ne] at hempty
    omega
  · exact hspan

theorem sound_conclude {m : Machine} (h : m.Sound q) : (conclude q m).2.machine.Sound q := by
  rw [conclude]
  split
  · exact h
  · split
    · next span hspan =>
      exact sound_passMatch h (by simpa using (Option.filter_eq_some_iff.mp hspan).2)
    · exact h.clear

variable [CodeUnit α]

/-- What a caller may do with a search, under a host of its own each time. -/
inductive Call where
  | next (host : Host)
  | fill (host : Host) (output : Array (Option Nat))

/-- The search after a call. -/
def perform (q : Query α) (s : Search) : Call → Search
  | .next host => (s.next q host).2.1
  | .fill host output => (s.fill q host output).2.2.1

/-- The search after several calls. -/
def after (q : Query α) (s : Search) (calls : List Call) : Search := calls.foldl (perform q) s

theorem sound_next {s : Search} (h : s.machine.Sound q) (host : Host) :
    (s.next q host).2.1.machine.Sound q := by
  have hscan := h.scan host
  rw [next]
  split
  · exact h
  · split
    · next error m host' heq =>
      rw [heq] at hscan
      exact hscan.clear
    · next m host' heq =>
      rw [heq] at hscan
      exact sound_conclude hscan

theorem sound_collect {s : Search} (h : s.machine.Sound q) (limit : Nat) (host : Host) :
    (collect q limit s host).2.1.machine.Sound q := by
  induction limit generalizing s host with
  | zero => exact h
  | succ limit ih =>
    have hnext := sound_next h host
    rw [collect]
    split
    · next heq => rw [heq] at hnext; exact hnext
    · next heq => rw [heq] at hnext; exact hnext
    · next heq => rw [heq] at hnext; exact ih hnext _

theorem sound_perform {s : Search} (h : s.machine.Sound q) (call : Call) :
    (s.perform q call).machine.Sound q := by
  cases call with
  | next host => exact sound_next h host
  | fill host output => exact sound_collect h _ host

/-- **Whatever was done with a search, its machine is sound.** -/
theorem sound_after {s : Search} (h : s.machine.Sound q) (calls : List Call) :
    (s.after q calls).machine.Sound q := by
  induction calls generalizing s with
  | nil => exact h
  | cons call calls ih => exact ih (sound_perform h call)

end Search

end RegexMachine
