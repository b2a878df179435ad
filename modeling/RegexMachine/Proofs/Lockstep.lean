import Mathlib
import RegexMachine.Proofs.Progress

/-!
# Proofs/Lockstep — two searches side by side

Two searches that differ in what does not matter do the same, call by call. What may differ is said
by a `Pairing`: the second search may be further on in its input by an offset, and register arrays
and hosts are compared by a relation each. `Pairing.Queries` says what this takes of the two
queries: at every counter they have the same instruction, but for what is written to registers, and
reading, writing and polling keep to the comparison.

Then every operation of the machine keeps to it, down to the marks and the counters
(`Pairing.Machines`), hence scans, searches and all that a caller sees of a series of calls
(`Pairing.Searches.reports`).
-/

namespace RegexMachine

/-! ## What is compared -/

/-- **How one search is compared with another.** -/
structure Pairing where
  /-- How much further on the second search is in its input. -/
  offset : Nat
  registers : Registers → Registers → Prop
  hosts : Host → Host → Prop

/-- What an instruction stores in the register it writes, if it is run at a position. -/
def Instruction.stored (position : Nat) : Instruction → Option Nat
  | setRegister _ => some position
  | _ => none

def VisitLog.shift (k : Nat) (log : VisitLog) : VisitLog := ⟨log.last.map (Option.map (· + k))⟩

def Span.shift (k : Nat) (span : Span) : Span := ⟨span.start + k, span.stop + k⟩

/-- The error at an input that is longer by `k` units at its beginning. -/
def SearchError.shift (k : Nat) : SearchError → SearchError
  | malformedMatch start stop => malformedMatch (start.map (· + k)) (stop.map (· + k))
  | error => error

theorem SearchError.shift_zero (error : SearchError) : error.shift 0 = error := by
  cases error <;> simp [shift]

/-- One host is polled at the same positions by both queries, and its answers are the same. -/
theorem Query.poll_eq {α β : Type} {q : Query α} {q' : Query β}
    (hinterval : q'.pollInterval = q.pollInterval) (host : Host) (position : Nat) :
    (host.pollIf (q'.pollsAt position)).1 =
        (host.pollIf (q.pollsAt position)).1.map (SearchError.shift 0) ∧
      (host.pollIf (q.pollsAt position)).2 = (host.pollIf (q'.pollsAt position)).2 := by
  rw [pollsAt, pollsAt, hinterval, show SearchError.shift 0 = id from
    funext SearchError.shift_zero, Option.map_id]
  exact ⟨rfl, rfl⟩

namespace Search

/-- What a caller sees of a call: how the search is asked for matches, where it is then, its
counters, and the host, which counts its polls. -/
structure Report where
  attempts : List Attempt
  position : Nat
  stats : Stats
  host : Host

variable {α : Type} [CodeUnit α] (q : Query α)

def report (s : Search) : Call → Report
  | .next host =>
    { attempts := [s.attempt q host]
      position := (s.next q host).2.1.position
      stats := (s.next q host).2.1.stats
      host := (s.next q host).2.2 }
  | .fill host output =>
    { attempts := s.attemptsOf q (output.size / q.registerCount) host
      position := (s.fill q host output).2.2.1.position
      stats := (s.fill q host output).2.2.1.stats
      host := (s.fill q host output).2.2.2 }

/-- **What a caller sees**, call by call. -/
def reports (s : Search) : List Call → List Report
  | [] => []
  | call :: calls => s.report q call :: reports (s.perform q call) calls

end Search

namespace Pairing

section Definitions

variable (P : Pairing)

structure Threads (t t' : Thread) : Prop where
  pc_eq : t'.pc = t.pc
  consumed_eq : t'.consumed = t.consumed
  registers : P.registers t.registers t'.registers

/-- **Machines in the same state**, as far as they are compared. -/
structure Machines (m m' : Machine) : Prop where
  position_eq : m'.position = m.position + P.offset
  running : Option.Rel P.Threads m.running m'.running
  active : List.Forall₂ P.Threads m.active m'.active
  blocked : List.Forall₂ P.Threads m.blocked m'.blocked
  best : Option.Rel P.registers m.best m'.best
  visits_eq : m'.visits = m.visits.shift P.offset
  matched_eq : m'.matched = m.matched
  stats_eq : m'.stats = m.stats
  stepsHere_eq : m'.stepsHere = m.stepsHere

/-- What is found by asking two searches once. -/
inductive Outcomes : Search.Outcome → Search.Outcome → Prop
  | error (error : SearchError) : Outcomes (.error error) (.error (error.shift P.offset))
  | ok {found found' : Option Registers} (h : Option.Rel P.registers found found') :
    Outcomes (.ok found) (.ok found')

structure Attempts (a a' : Search.Attempt) : Prop where
  scanStart?_eq : a'.scanStart? = a.scanStart?.map (· + P.offset)
  outcomes : P.Outcomes a.outcome a'.outcome

structure Reports (r r' : Search.Report) : Prop where
  attempts : List.Forall₂ P.Attempts r.attempts r'.attempts
  position_eq : r'.position = r.position + P.offset
  stats_eq : r'.stats = r.stats
  hosts : P.hosts r.host r'.host

variable {α β : Type} [CodeUnit α] [CodeUnit β]

/-- **Two instructions do the same**, but for what they write to registers. -/
inductive Instructions (input : Array α) (input' : Array β) : Instruction → Instruction → Prop
  | same {i : Instruction} (hwrites : i.register? = none)
    (hholds : ∀ kind, i = .assert kind → ∀ position,
      kind.holds input' (position + P.offset) = kind.holds input position) :
    Instructions input input' i i
  | write {i i' : Instruction} {r r' : Nat} (hi : i.register? = some r)
    (hi' : i'.register? = some r')
    (hkeeps : ∀ position registers registers', P.registers registers registers' →
      P.registers (registers.setIfInBounds r (i.stored position))
        (registers'.setIfInBounds r' (i'.stored (position + P.offset)))) :
    Instructions input input' i i'

/-- **Queries whose searches do the same.** They have the same program, but for what is written to
registers, and read the same units. Blank register arrays are alike, arrays that are alike bound
matches in the same place, and hosts that are alike give the same answer where they are polled. -/
structure Queries (q : Query α) (q' : Query β) : Prop where
  size_program : q'.program.size = q.program.size
  instruction : ∀ pc,
    Option.Rel (P.Instructions q.input q'.input) (q.instruction? pc) (q'.instruction? pc)
  size_input : q'.input.size = q.input.size + P.offset
  unit_eq : ∀ position, q'.input[position + P.offset]?.map CodeUnit.word =
    q.input[position]?.map CodeUnit.word
  blank : P.registers (Array.replicate q.registerCount none)
    (Array.replicate q'.registerCount none)
  bounds : ∀ registers registers', P.registers registers registers' → ∀ r < 2,
    registers'.position? r = (registers.position? r).map (· + P.offset)
  poll : ∀ host host', P.hosts host host' → ∀ position,
    (host'.pollIf (q'.pollsAt (position + P.offset))).1 =
        (host.pollIf (q.pollsAt position)).1.map (SearchError.shift P.offset) ∧
      P.hosts (host.pollIf (q.pollsAt position)).2
        (host'.pollIf (q'.pollsAt (position + P.offset))).2

/-- Two searches that are asked for the same, with room for as many matches. -/
inductive Calls (q : Query α) (q' : Query β) : Search.Call → Search.Call → Prop
  | next {host host' : Host} (h : P.hosts host host') : Calls q q' (.next host) (.next host')
  | fill {host host' : Host} {output output' : Array (Option Nat)} (h : P.hosts host host')
    (hroom : output'.size / q'.registerCount = output.size / q.registerCount) :
    Calls q q' (.fill host output) (.fill host' output')

/-- **Searches in the same state**, as far as they are compared. -/
structure Searches (q : Query α) (q' : Query β) (s s' : Search) : Prop where
  machines : P.Machines s.machine s'.machine
  finished_eq : s'.finished = s.finished
  sound : s.machine.Sound q
  sound' : s'.machine.Sound q'

end Definitions

end Pairing

/-- **An instruction does the same as itself**, if it tests and writes the same. -/
theorem Pairing.instructions_self {P : Pairing} {α β : Type} [CodeUnit α] [CodeUnit β]
    {input : Array α} {input' : Array β} {i : Instruction}
    (hholds : ∀ kind, i = .assert kind → ∀ position,
      kind.holds input' (position + P.offset) = kind.holds input position)
    (hkeeps : ∀ r, i.register? = some r → ∀ position registers registers',
      P.registers registers registers' →
        P.registers (registers.setIfInBounds r (i.stored position))
          (registers'.setIfInBounds r (i.stored (position + P.offset)))) :
    P.Instructions input input' i i := by
  rcases hi : i.register? with _ | r
  · exact .same hi hholds
  · exact .write hi hi (hkeeps r hi)

/-! ## Marks -/

namespace VisitLog

variable {k size pc position : Nat} {consumed : Bool} {log : VisitLog}

theorem shift_fresh : (fresh size).shift k = fresh size := by
  simp [fresh, shift]

theorem shift_record :
    (log.record pc consumed position).shift k =
      (log.shift k).record pc consumed (position + k) := by
  simp [record, shift, Array.map_setIfInBounds]

/-- **A mark says the same of the position that is further on.** -/
theorem admits_shift :
    (log.shift k).admits pc consumed (position + k) = log.admits pc consumed position := by
  rw [admits, admits, shift, Array.getElem?_map]
  rcases log.last[slot pc consumed]? with _ | _ | mark
  · rfl
  · rfl
  · rw [Bool.eq_iff_iff]
    simp

end VisitLog

/-! ## Steps -/

theorem Instruction.register?_eq_some {i : Instruction} {r : Nat} :
    i.register? = some r ↔ i = .setRegister r ∨ i = .clearRegister r := by
  cases i <;> simp [register?]

theorem Machine.execute_of_register? {α : Type} [CodeUnit α] {q : Query α} {m : Machine}
    {t : Thread} {i : Instruction} {r : Nat} (hi : i.register? = some r) :
    m.execute q t i = m.resume (t.write r (i.stored m.position)) := by
  rcases Instruction.register?_eq_some.mp hi with rfl | rfl <;> rfl

namespace Pairing

variable {P : Pairing} {t t' : Thread} {m m' : Machine} {i i' : Instruction}

/-- Of two cells that are related both are empty, or both hold what is related. -/
theorem rel_cases {γ δ : Type} {R : γ → δ → Prop} {x : Option γ} {y : Option δ}
    (h : Option.Rel R x y) :
    x = none ∧ y = none ∨ ∃ a b, x = some a ∧ y = some b ∧ R a b := by
  cases h with
  | some h => exact .inr ⟨_, _, rfl, rfl, h⟩
  | none => exact .inl ⟨rfl, rfl⟩

theorem Threads.advance (h : P.Threads t t') : P.Threads t.advance t'.advance :=
  { h with pc_eq := congrArg (· + 1) h.pc_eq }

theorem Threads.setConsumed (h : P.Threads t t') (consumed : Bool) :
    P.Threads { t with consumed } { t' with consumed } :=
  { h with consumed_eq := rfl }

theorem Threads.setCounter (h : P.Threads t t') (pc : Nat) :
    P.Threads { t with pc } { t' with pc } :=
  { h with pc_eq := rfl }

section Queries

variable {α β : Type} [CodeUnit α] [CodeUnit β] {q : Query α} {q' : Query β}

theorem Queries.accepts_eq (hq : P.Queries q q') (pc : Nat) (unit : UInt16) :
    q'.accepts pc unit = q.accepts pc unit := by
  have hinstruction := hq.instruction pc
  rw [Query.accepts, Query.accepts]
  generalize q.instruction? pc = i, q'.instruction? pc = i' at hinstruction
  rcases hinstruction with ⟨_ | ⟨hi, hi', -⟩⟩ | _
  · rfl
  · rcases Instruction.register?_eq_some.mp hi with rfl | rfl <;>
      rcases Instruction.register?_eq_some.mp hi' with rfl | rfl <;> rfl
  · rfl

theorem Queries.endsSegment_eq (hq : P.Queries q q') (pc : Nat) :
    q'.program.code[pc]?.map Instruction.endsSegment =
      q.program.code[pc]?.map Instruction.endsSegment := by
  have hinstruction := hq.instruction pc
  rw [Query.instruction?, Query.instruction?] at hinstruction
  generalize q.program.code[pc]? = i, q'.program.code[pc]? = i' at hinstruction ⊢
  rcases hinstruction with ⟨_ | ⟨hi, hi', -⟩⟩ | _
  · rfl
  · rcases Instruction.register?_eq_some.mp hi with rfl | rfl <;>
      rcases Instruction.register?_eq_some.mp hi' with rfl | rfl <;> rfl
  · rfl

/-- Lookbehinds start at the same counters. -/
theorem Queries.entries_eq (hq : P.Queries q q') :
    q'.program.lookbehindEntries = q.program.lookbehindEntries := by
  have hends : ∀ (p : Program) (entry : Nat), entry ∈ p.lookbehindEntries ↔
      entry < p.size ∧ ∃ pc, p.code[pc]?.map Instruction.endsSegment = some true ∧
        entry = pc + 1 := fun p entry => by
    simp only [p.mem_entries, Option.map_eq_some_iff, ← exists_and_right, and_assoc]
  have hmem : ∀ entry,
      entry ∈ q'.program.lookbehindEntries ↔ entry ∈ q.program.lookbehindEntries := fun entry => by
    simp only [hends, hq.size_program, hq.endsSegment_eq]
  have hordered := q.program.pairwise_lt_entries
  have hordered' := q'.program.pairwise_lt_entries
  refine List.Perm.eq_of_pairwise (fun a b _ _ hlt hlt' => absurd hlt (Nat.lt_asymm hlt'))
    hordered' hordered ?_
  exact (List.perm_ext_iff_of_nodup (hordered'.imp Nat.ne_of_lt) (hordered.imp Nat.ne_of_lt)).mpr
    hmem

theorem Queries.seeds_eq (hq : P.Queries q q') : Machine.seeds q' = Machine.seeds q :=
  congrArg (0 :: ·) hq.entries_eq

theorem Queries.noneMatched_eq (hq : P.Queries q q') :
    Machine.noneMatched q' = Machine.noneMatched q := by
  rw [Machine.noneMatched, Machine.noneMatched, Program.lookbehindCount, Program.lookbehindCount,
    hq.entries_eq]

end Queries

namespace Machines

theorem isIdle_eq (h : P.Machines m m') : m'.isIdle = m.isIdle := by
  have hrunning := h.running
  have hactive := h.active
  rw [Machine.isIdle, Machine.isIdle]
  generalize m.running = running, m'.running = running', m.active = active,
    m'.active = active' at hrunning hactive
  cases hrunning <;> cases hactive <;> rfl

theorem isSettled_eq (h : P.Machines m m') : m'.isSettled = m.isSettled := by
  have hbest := h.best
  have hblocked := h.blocked
  rw [Machine.isSettled, Machine.isSettled]
  generalize m.best = best, m'.best = best', m.blocked = blocked,
    m'.blocked = blocked' at hbest hblocked
  cases hbest <;> cases hblocked <;> rfl

theorem drop (h : P.Machines m m') (t t' : Thread) : P.Machines (m.drop t) (m'.drop t') :=
  { h with running := .none }

theorem resume (h : P.Machines m m') (ht : P.Threads t t') :
    P.Machines (m.resume t) (m'.resume t') :=
  { h with running := .some ht }

theorem note (h : P.Machines m m') (ht : P.Threads t t') : P.Machines (m.note t) (m'.note t') :=
  { h with
    visits_eq := by
      simp only [Machine.note, VisitLog.shift_record, h.visits_eq, ht.pc_eq, ht.consumed_eq,
        h.position_eq]
    stats_eq := by simp only [Machine.note, h.stats_eq, h.stepsHere_eq]
    stepsHere_eq := by simp only [Machine.note, h.stepsHere_eq] }

theorem clear (h : P.Machines m m') : P.Machines m.clear m'.clear :=
  { h with running := .none, active := .nil, blocked := .nil, best := .none }

theorem advance (h : P.Machines m m') : P.Machines m.advance m'.advance :=
  { h with
    position_eq := by simp only [Machine.advance, h.position_eq]; omega
    matched_eq := by simp only [Machine.advance, h.matched_eq]
    stepsHere_eq := rfl }

variable {α β : Type} [CodeUnit α] [CodeUnit β] {q : Query α} {q' : Query β}

/-- **An instruction leaves machines in the same state in the same state.** -/
theorem execute (h : P.Machines m m') (ht : P.Threads t t')
    (hi : P.Instructions q.input q'.input i i') :
    P.Machines (m.execute q t i) (m'.execute q' t' i') := by
  cases hi with
  | write hi hi' hkeeps =>
    rw [Machine.execute_of_register? hi, Machine.execute_of_register? hi', h.position_eq]
    exact h.resume ⟨congrArg (· + 1) ht.pc_eq, ht.consumed_eq, hkeeps _ _ _ ht.registers⟩
  | same hwrites hholds =>
    cases i with
    | consume min max => exact { h with running := .none, blocked := .cons ht h.blocked }
    | assert kind =>
      rw [Machine.execute, Machine.execute, h.position_eq, hholds kind rfl]
      split
      · exact h.resume ht.advance
      · exact h.drop t t'
    | fork target =>
      exact
        { h with
          running := .some ht.advance
          active := .cons (ht.setCounter target) h.active }
    | jump target => exact h.resume (ht.setCounter target)
    | accept => exact { h with running := .none, active := .nil, best := .some ht.registers }
    | setRegister | clearRegister => simp [Instruction.register?] at hwrites
    | beginLoop => exact h.resume (ht.advance.setConsumed false)
    | endLoop =>
      rw [Machine.execute, Machine.execute, ht.consumed_eq]
      split
      · exact h.resume ht.advance
      · exact h.drop t t'
    | writeLookbehind index =>
      exact
        { h.drop t t' with
          matched_eq := congrArg (fun matched => Array.setIfInBounds matched index true)
            h.matched_eq }
    | readLookbehind index want =>
      rw [Machine.execute, Machine.execute, h.matched_eq]
      split
      · exact h.resume ht.advance
      · exact h.drop t t'

/-- Threads in the same state are both refused, or both run an instruction. -/
theorem step_of_running (h : P.Machines m m') (hq : P.Queries q q') (hthreads : P.Threads t t')
    (ht : m.running = some t) (ht' : m'.running = some t') :
    P.Machines (m.step q) (m'.step q') := by
  have hadmits : m'.visits.admits t'.pc t'.consumed m'.position =
      m.visits.admits t.pc t.consumed m.position := by
    rw [h.visits_eq, h.position_eq, hthreads.pc_eq, hthreads.consumed_eq, VisitLog.admits_shift]
  rcases hadmitted : m.visits.admits t.pc t.consumed m.position with _ | _
  · rw [Machine.step_of_refused q ht hadmitted,
      Machine.step_of_refused q' ht' (hadmits.trans hadmitted)]
    exact h.drop t t'
  · rcases rel_cases (hq.instruction t.pc) with ⟨hi, hi'⟩ | ⟨i, i', hi, hi', hinstruction⟩ <;>
      rw [← hthreads.pc_eq] at hi'
    · rw [Machine.step_of_missing q ht hi, Machine.step_of_missing q' ht' hi']
      exact h.drop t t'
    · rw [Machine.step_of_admitted q ht hadmitted hi,
        Machine.step_of_admitted q' ht' (hadmits.trans hadmitted) hi']
      exact (h.note hthreads).execute hthreads hinstruction

/-- **A step keeps machines in the same state.** -/
theorem step (h : P.Machines m m') (hq : P.Queries q q') : P.Machines (m.step q) (m'.step q') := by
  rcases rel_cases h.running with ⟨ht, ht'⟩ | ⟨t, t', ht, ht', hthreads⟩
  · have hactive := h.active
    rcases hu : m.active with _ | ⟨u, active⟩ <;> rw [hu] at hactive
    · have hu' := List.forall₂_nil_left_iff.mp hactive
      rwa [Machine.step_of_isIdle q (by simp [Machine.isIdle, ht, hu]),
        Machine.step_of_isIdle q' (by simp [Machine.isIdle, ht', hu'])]
    · obtain ⟨u', active', hfirst, hrest, hu'⟩ := List.forall₂_cons_left_iff.mp hactive
      rw [Machine.step_of_none q ht hu, Machine.step_of_none q' ht' hu']
      exact { h with running := .some hfirst, active := hrest }
  · exact h.step_of_running hq hthreads ht ht'

/-- Machines in the same state run their threads until both are idle. -/
theorem drain (h : P.Machines m m') (hq : P.Queries q q') :
    P.Machines (m.drain q) (m'.drain q') := by
  fun_induction Machine.drain q m generalizing m' with
  | case1 m hidle => rwa [Machine.drain_of_isIdle q' (h.isIdle_eq.trans hidle)]
  | case2 m hbusy ih =>
    rw [Machine.drain_of_busy q' (h.isIdle_eq.trans (Bool.eq_false_iff.mpr hbusy))]
    exact ih (h.step hq)

/-! ## Scans -/

/-- Threads in the same state want the same units. -/
theorem woken (hq : P.Queries q q') (ht : P.Threads t t') (unit : UInt16) :
    Option.Rel P.Threads (q.woken unit t) (q'.woken unit t') := by
  rw [Query.woken, Query.woken, ht.pc_eq, hq.accepts_eq]
  split
  · exact .some (ht.advance.setConsumed true)
  · exact .none

/-- **Reading a unit keeps machines in the same state.** -/
theorem read (h : P.Machines m m') (hq : P.Queries q q') (hlt : m.position < q.input.size)
    (hlt' : m'.position < q'.input.size) : P.Machines (m.read q hlt) (m'.read q' hlt') := by
  have hunit : CodeUnit.word q'.input[m'.position] = CodeUnit.word q.input[m.position] := by
    have hunit := hq.unit_eq m.position
    rw [← h.position_eq, Array.getElem?_eq_getElem hlt, Array.getElem?_eq_getElem hlt'] at hunit
    exact Option.some.inj hunit
  obtain ⟨pool, hpool⟩ := Machine.feed_eq q (CodeUnit.word q.input[m.position]) m.advance
  obtain ⟨pool', hpool'⟩ := Machine.feed_eq q' (CodeUnit.word q.input[m.position]) m'.advance
  rw [Machine.read, Machine.read, hunit, hpool, hpool']
  have hwoken := List.rel_filterMap (R := P.Threads) (P := P.Threads)
    (fun t t' ht => woken hq ht (CodeUnit.word q.input[m.position])) h.blocked
  exact
    { h.advance with
      active := List.rel_append (List.forall₂_reverse_iff.mpr hwoken) h.active
      blocked := .nil }

theorem lt_size_iff (h : P.Machines m m') (hq : P.Queries q q') :
    m'.position < q'.input.size ↔ m.position < q.input.size := by
  rw [h.position_eq, hq.size_input]
  omega

/-- On the way to the next position, both or none of the hosts are polled. -/
theorem poll (h : P.Machines m m') (hq : P.Queries q q') {host host' : Host}
    (hhosts : P.hosts host host') :
    (host'.pollIf (q'.pollsAt (m'.position + 1))).1 =
        (host.pollIf (q.pollsAt (m.position + 1))).1.map (SearchError.shift P.offset) ∧
      P.hosts (host.pollIf (q.pollsAt (m.position + 1))).2
        (host'.pollIf (q'.pollsAt (m'.position + 1))).2 := by
  rw [h.position_eq, Nat.add_right_comm]
  exact hq.poll host host' hhosts (m.position + 1)

/-- **Machines in the same state read the input alike**, and poll the hosts alike. -/
theorem run (h : P.Machines m m') (hq : P.Queries q q') {host host' : Host}
    (hhosts : P.hosts host host') :
    (m'.run q' host').1 = (m.run q host).1.map (SearchError.shift P.offset) ∧
      P.Machines (m.run q host).2.1 (m'.run q' host').2.1 ∧
      P.hosts (m.run q host).2.2 (m'.run q' host').2.2 := by
  induction m, host using Machine.run_induction q generalizing m' host' with
  | settled m host hsettled =>
    rw [Machine.run_of_settled q hsettled,
      Machine.run_of_settled q' (h.isSettled_eq.trans hsettled)]
    exact ⟨rfl, h, hhosts⟩
  | ends m host hunsettled hend =>
    rw [Machine.run_of_end q hunsettled hend,
      Machine.run_of_end q' (h.isSettled_eq.trans hunsettled) (mt (h.lt_size_iff hq).mp hend)]
    exact ⟨rfl, h, hhosts⟩
  | interrupt m host error host₁ hunsettled hlt hpoll =>
    obtain ⟨herror, hhosts₁⟩ := h.poll hq hhosts
    rw [hpoll] at herror hhosts₁
    rw [Machine.run_of_interrupt q hunsettled hlt hpoll, Machine.run_of_interrupt q'
      (h.isSettled_eq.trans hunsettled) ((h.lt_size_iff hq).mpr hlt) (Prod.ext herror rfl)]
    exact ⟨rfl, h.advance, hhosts₁⟩
  | proceed m host host₁ hunsettled hlt hpoll ih =>
    obtain ⟨herror, hhosts₁⟩ := h.poll hq hhosts
    rw [hpoll] at herror hhosts₁
    have hlt' := (h.lt_size_iff hq).mpr hlt
    rw [Machine.run_of_proceed q hunsettled hlt hpoll, Machine.run_of_proceed q'
      (h.isSettled_eq.trans hunsettled) hlt' (Prod.ext herror rfl)]
    exact ih ((h.read hq hlt hlt').drain hq) hhosts₁

/-- Scans begin in the same state. -/
theorem beginScan (h : P.Machines m m') (hq : P.Queries q q') (hsound : m.Sound q)
    (hsound' : m'.Sound q') : P.Machines (m.beginScan q) (m'.beginScan q') := by
  obtain ⟨pool, -, heq⟩ := hsound.beginScan_eq
  obtain ⟨pool', -, heq'⟩ := hsound'.beginScan_eq
  rw [heq, heq']
  exact
    { position_eq := h.position_eq
      running := .none
      active := by
        rw [hq.seeds_eq, List.forall₂_reverse_iff, List.forall₂_map_left_iff,
          List.forall₂_map_right_iff, List.forall₂_same]
        exact fun pc _ => ⟨rfl, rfl, hq.blank⟩
      blocked := .nil
      best := .none
      visits_eq := by
        rw [hq.size_program]
        exact VisitLog.shift_fresh.symm
      matched_eq := hq.noneMatched_eq
      stats_eq := by simp only [h.stats_eq]
      stepsHere_eq := rfl }

/-- **Scans that begin in the same state end in the same state.** -/
theorem scan (h : P.Machines m m') (hq : P.Queries q q') (hsound : m.Sound q)
    (hsound' : m'.Sound q') {host host' : Host} (hhosts : P.hosts host host') :
    (m'.scan q' host').1 = (m.scan q host).1.map (SearchError.shift P.offset) ∧
      P.Machines (m.scan q host).2.1 (m'.scan q' host').2.1 ∧
      P.hosts (m.scan q host).2.2 (m'.scan q' host').2.2 :=
  ((h.beginScan hq hsound hsound').drain hq).run hq hhosts

end Machines

/-! ## Searches -/

section Searches

variable {α β : Type} {q : Query α} {q' : Query β} {registers registers' : Registers}

theorem ofRegisters?_shift (k : Nat) (start stop : Option Nat) :
    Span.ofRegisters? (start.map (· + k)) (stop.map (· + k)) =
      (Span.ofRegisters? start stop).map (Span.shift k) := by
  rcases start with _ | start
  · rfl
  · rcases stop with _ | stop
    · rfl
    · by_cases hle : start ≤ stop <;> simp [Span.ofRegisters?, Span.shift, hle]

/-- A match ends in the input if the match that is further on ends in the longer input. -/
theorem filter_shift {k size : Nat} (span : Option Span) :
    (span.map (Span.shift k)).filter (·.stop ≤ size + k) =
      (span.filter (·.stop ≤ size)).map (Span.shift k) := by
  rcases span with _ | span
  · rfl
  · by_cases hle : span.stop ≤ size <;> simp [Span.shift, Option.filter, hle]

variable [CodeUnit α] [CodeUnit β]

theorem Queries.span?_eq (hq : P.Queries q q') (h : P.registers registers registers') :
    registers'.span?.filter (·.stop ≤ q'.input.size) =
      (registers.span?.filter (·.stop ≤ q.input.size)).map (Span.shift P.offset) := by
  rw [Registers.span?, hq.bounds _ _ h 0 (by decide), hq.bounds _ _ h 1 (by decide),
    ofRegisters?_shift, hq.size_input, filter_shift]
  rfl

/-- Behind matches in the same place searches go on in the same place. -/
theorem Machines.passMatch (h : P.Machines m m') (hq : P.Queries q q') (span : Span) :
    P.Machines (Search.passMatch q m span).machine
        (Search.passMatch q' m' (span.shift P.offset)).machine ∧
      (Search.passMatch q' m' (span.shift P.offset)).finished =
        (Search.passMatch q m span).finished := by
  have hempty : (span.shift P.offset).isEmpty = span.isEmpty := by
    rw [Bool.eq_iff_iff]
    simp [Span.isEmpty, Span.shift]
  have hend : ((span.shift P.offset).stop == q'.input.size) = (span.stop == q.input.size) := by
    rw [Bool.eq_iff_iff]
    simp [Span.shift, hq.size_input]
  simp only [Search.passMatch, hempty, hend]
  refine ⟨{ h with position_eq := ?_ }, trivial⟩
  dsimp only [Span.shift]
  split <;> omega

/-- **What machines in the same state have found is the same.** -/
theorem Machines.conclude (h : P.Machines m m') (hq : P.Queries q q') :
    P.Outcomes (Search.conclude q m).1 (Search.conclude q' m').1 ∧
      P.Machines (Search.conclude q m).2.machine (Search.conclude q' m').2.machine ∧
      (Search.conclude q' m').2.finished = (Search.conclude q m).2.finished := by
  rcases rel_cases h.best with ⟨hbest, hbest'⟩ | ⟨registers, registers', hbest, hbest', hregisters⟩
  · rw [Search.conclude_of_none hbest, Search.conclude_of_none hbest']
    exact ⟨.ok .none, h, rfl⟩
  · have hspan' := hq.span?_eq hregisters
    rcases hspan : registers.span?.filter (·.stop ≤ q.input.size) with _ | span <;>
      rw [hspan] at hspan'
    · rw [Search.conclude_of_malformed hbest hspan, Search.conclude_of_malformed hbest' hspan',
        hq.bounds _ _ hregisters 0 (by decide), hq.bounds _ _ hregisters 1 (by decide)]
      exact ⟨.error (.malformedMatch _ _), h.clear, rfl⟩
    · rw [Search.conclude_of_span hbest hspan, Search.conclude_of_span hbest' hspan']
      exact ⟨.ok (.some hregisters), h.passMatch hq span⟩

namespace Searches

variable {s s' : Search} {host host' : Host}

/-- **Searches in the same state find the same**, and stay in the same state. -/
theorem next (h : P.Searches q q' s s') (hq : P.Queries q q') (hhosts : P.hosts host host') :
    P.Outcomes (s.next q host).1 (s'.next q' host').1 ∧
      P.Searches q q' (s.next q host).2.1 (s'.next q' host').2.1 ∧
      P.hosts (s.next q host).2.2 (s'.next q' host').2.2 := by
  have hsound := Search.sound_next h.sound host
  have hsound' := Search.sound_next h.sound' host'
  rcases hfinished : s.finished with _ | _
  · have hfinished' := h.finished_eq.trans hfinished
    obtain ⟨herror, hmachines, hhosts₁⟩ := h.machines.scan hq h.sound h.sound' hhosts
    rcases hscan : s.machine.scan q host with ⟨error, m, host₁⟩
    rcases hscan' : s'.machine.scan q' host' with ⟨error', m', host₁'⟩
    rw [hscan, hscan'] at herror hmachines hhosts₁
    obtain rfl : error' = error.map (SearchError.shift P.offset) := herror
    rcases error with _ | error
    · rw [Search.next_of_scan hfinished hscan] at hsound ⊢
      rw [Search.next_of_scan hfinished' hscan'] at hsound' ⊢
      obtain ⟨houtcomes, hconcluded, hends⟩ := hmachines.conclude hq
      exact ⟨houtcomes, ⟨hconcluded, hends, hsound, hsound'⟩, hhosts₁⟩
    · rw [Search.next_of_error hfinished hscan] at hsound ⊢
      rw [Search.next_of_error hfinished' hscan'] at hsound' ⊢
      exact ⟨.error error, ⟨hmachines.clear, rfl, hsound, hsound'⟩, hhosts₁⟩
  · rw [Search.next_of_finished hfinished, Search.next_of_finished (h.finished_eq.trans hfinished)]
    exact ⟨.ok .none, h, hhosts⟩

theorem attempts (h : P.Searches q q' s s') (hq : P.Queries q q') (hhosts : P.hosts host host') :
    P.Attempts (s.attempt q host) (s'.attempt q' host') := by
  refine ⟨?_, (h.next hq hhosts).1⟩
  simp only [Search.attempt, Search.position, h.finished_eq, h.machines.position_eq]
  split <;> rfl

/-- Searches in the same state are asked equally often to find several matches. -/
theorem collect (h : P.Searches q q' s s') (hq : P.Queries q q') (hhosts : P.hosts host host')
    (limit : Nat) :
    List.Forall₂ P.Attempts (s.attemptsOf q limit host) (s'.attemptsOf q' limit host') ∧
      P.Searches q q' (Search.collect q limit s host).2.1 (Search.collect q' limit s' host').2.1 ∧
      P.hosts (Search.collect q limit s host).2.2 (Search.collect q' limit s' host').2.2 := by
  induction limit generalizing s s' host host' with
  | zero => exact ⟨.nil, h, hhosts⟩
  | succ limit ih =>
    have hattempts := h.attempts hq hhosts
    obtain ⟨houtcomes, hsearches, hhosts₁⟩ := h.next hq hhosts
    rw [Search.attemptsOf, Search.attemptsOf, Search.collect, Search.collect]
    rcases hnext : s.next q host with ⟨outcome, s₁, host₁⟩
    rcases hnext' : s'.next q' host' with ⟨outcome', s₁', host₁'⟩
    rw [hnext, hnext'] at houtcomes hsearches hhosts₁
    rcases houtcomes with _ | ⟨_ | _⟩
    · exact ⟨.cons hattempts .nil, hsearches, hhosts₁⟩
    · obtain ⟨hrest, hafter⟩ := ih hsearches hhosts₁
      exact ⟨.cons hattempts hrest, hafter⟩
    · exact ⟨.cons hattempts .nil, hsearches, hhosts₁⟩

/-- **A call comes to the same**, and leaves searches in the same state. -/
theorem report {call call' : Search.Call} (h : P.Searches q q' s s') (hq : P.Queries q q')
    (hcall : P.Calls q q' call call') :
    P.Reports (s.report q call) (s'.report q' call') ∧
      P.Searches q q' (s.perform q call) (s'.perform q' call') := by
  cases hcall with
  | next hhosts =>
    obtain ⟨-, hsearches, hhosts₁⟩ := h.next hq hhosts
    exact ⟨⟨.cons (h.attempts hq hhosts) .nil, hsearches.machines.position_eq,
      hsearches.machines.stats_eq, hhosts₁⟩, hsearches⟩
  | @fill host host' output output' hhosts hroom =>
    obtain ⟨hattempts, hsearches, hhosts₁⟩ := h.collect hq hhosts (output.size / q.registerCount)
    rw [Search.report, Search.report, Search.perform, Search.perform, Search.fill, Search.fill,
      hroom]
    exact ⟨⟨hattempts, hsearches.machines.position_eq, hsearches.machines.stats_eq, hhosts₁⟩,
      hsearches⟩

/-- **Searches in the same state give the same reports**, call by call. -/
theorem reports {calls calls' : List Search.Call} (h : P.Searches q q' s s')
    (hq : P.Queries q q') (hcalls : List.Forall₂ (P.Calls q q') calls calls') :
    List.Forall₂ P.Reports (s.reports q calls) (s'.reports q' calls') := by
  induction hcalls generalizing s s' with
  | nil => exact .nil
  | cons hcall _ ih =>
    obtain ⟨hreport, hsearches⟩ := h.report hq hcall
    exact .cons hreport (ih hsearches)

end Searches

/-- Searches begin in the same state, if the second one begins further on by the offset. -/
theorem Queries.start (hq : P.Queries q q') (position : Nat) :
    P.Searches q q' (.start q position) (.start q' (position + P.offset)) where
  machines :=
    { position_eq := by
        rw [Search.start, Search.start, Machine.idle, Machine.idle, hq.size_input,
          Nat.add_min_add_right]
      running := .none
      active := .nil
      blocked := .nil
      best := .none
      visits_eq := by
        rw [Search.start, Search.start, Machine.idle, Machine.idle, hq.size_program,
          VisitLog.shift_fresh]
      matched_eq := hq.noneMatched_eq
      stats_eq := rfl
      stepsHere_eq := rfl }
  finished_eq := by simp [Search.start, hq.size_input]
  sound := Search.sound_start q position
  sound' := Search.sound_start q' _

end Searches

end Pairing

end RegexMachine
