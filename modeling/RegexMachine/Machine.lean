import RegexMachine.Host
import RegexMachine.Query
import RegexMachine.Registers
import RegexMachine.Visits

/-!
# Machine — all threads of a scan, run side by side

The threads of a scan share one position of the input, and none moves on to the next unit before
every other one waits for it too: a scan reads no unit twice. Priority decides among matches. A
thread that accepts ends all threads of lower priority, but those of higher priority go on and may
replace its match.

* `active` holds the threads that can run without another unit, the one of highest priority first;
* `blocked` holds those that wait for a unit, the one of lowest priority first, so that waking them
  in this order puts them back in the order of `active`.

`Machine.step` runs one instruction, or gives the turn to the next active thread. `Machine.drain`
repeats it until no thread can run; it ends because `workload` goes down at every step.
-/

namespace RegexMachine

/-- One way through the program that is being followed. -/
structure Thread where
  pc : Nat
  registers : Registers
  /-- Whether a unit was consumed since the last `beginLoop`. -/
  consumed : Bool
  deriving DecidableEq, Repr

namespace Thread

/-- The thread at the next instruction. -/
def advance (t : Thread) : Thread := { t with pc := t.pc + 1 }

/-- The thread at the next instruction, with another value in one register. -/
def write (t : Thread) (r : Nat) (value : Option Nat) : Thread :=
  { t with pc := t.pc + 1, registers := t.registers.setIfInBounds r value }

end Thread

/-- Counters of a search. -/
structure Stats where
  /-- Instructions run, over all scans. -/
  steps : Nat := 0
  /-- The largest number of instructions run at one position of one scan. -/
  maxStepsPerPosition : Nat := 0
  /-- Scans begun. -/
  scans : Nat := 0
  deriving DecidableEq, Repr

/-- The state of a scan. -/
structure Machine where
  /-- The index of the next unit. -/
  position : Nat
  /-- The thread whose turn it is. -/
  running : Option Thread := none
  active : List Thread := []
  blocked : List Thread := []
  /-- The registers of the best match so far: of all threads that accepted, the one of highest
  priority. -/
  best : Option Registers := none
  pool : RegisterPool
  visits : VisitLog
  /-- For every lookbehind, whether it has matched at this position. -/
  matched : Array Bool
  stats : Stats := {}
  /-- Instructions run at this position. -/
  stepsHere : Nat := 0
  deriving DecidableEq, Repr

namespace Machine

/-! ## One instruction -/

/-- Ends a thread that had its turn. -/
def drop (m : Machine) (t : Thread) : Machine :=
  { m with running := none, pool := m.pool.release t.registers }

/-- Lets a thread keep its turn. -/
def resume (m : Machine) (t : Thread) : Machine := { m with running := some t }

/-- Notes that a thread runs the instruction it is at, in the log and in the counters. -/
def note (m : Machine) (t : Thread) : Machine :=
  let stepsHere := m.stepsHere + 1
  { m with
    visits := m.visits.record t.pc t.consumed m.position
    stepsHere
    stats.steps := m.stats.steps + 1
    stats.maxStepsPerPosition := max m.stats.maxStepsPerPosition stepsHere }

/-- Makes the registers of a thread the best match, and ends all threads of lower priority. -/
def accept (m : Machine) (t : Thread) : Machine :=
  { m with
    running := none
    active := []
    best := some t.registers
    pool := (m.pool.releaseAll m.best.toList).releaseAll (m.active.map Thread.registers) }

variable {α : Type} [CodeUnit α]

/-- Runs one instruction of the thread whose turn it is. -/
def execute (q : Query α) (m : Machine) (t : Thread) : Instruction → Machine
  | .consume _ _ => { m with running := none, blocked := t :: m.blocked }
  | .assert kind => if kind.holds q.input m.position then m.resume t.advance else m.drop t
  | .fork target =>
    let (registers, pool) := m.pool.duplicate t.registers
    { m with
      running := some t.advance
      active := { t with pc := target, registers } :: m.active
      pool }
  | .jump target => m.resume { t with pc := target }
  | .accept => m.accept t
  | .setRegister r => m.resume (t.write r (some m.position))
  | .clearRegister r => m.resume (t.write r none)
  | .beginLoop => m.resume { t.advance with consumed := false }
  | .endLoop => if t.consumed then m.resume t.advance else m.drop t
  | .writeLookbehind index =>
    let m := { m with matched := m.matched.setIfInBounds index true }
    m.drop t
  | .readLookbehind index want =>
    if m.matched[index]? = some want then m.resume t.advance else m.drop t

/-- **One step** — the thread whose turn it is runs one instruction, or ends if that instruction was
already run here with the same flag; if it is no thread's turn, it becomes that of the active
thread of highest priority. -/
def step (q : Query α) (m : Machine) : Machine :=
  match m.running, m.active with
  | some t, _ =>
    if m.visits.admits t.pc t.consumed m.position then
      match q.instruction? t.pc with
      | some instruction => (m.note t).execute q t instruction
      | none => m.drop t
    else m.drop t
  | none, t :: active => { m with running := some t, active }
  | none, [] => m

/-! ## Until no thread can run -/

/-- Whether no thread can run without another unit. -/
def isIdle (m : Machine) : Bool := m.running.isNone && m.active.isEmpty

/-- A bound on the number of steps left at this position. -/
def workload (m : Machine) : Nat :=
  4 * m.visits.pending m.position + 2 * m.active.length + m.running.toList.length

/-- An instruction leaves the log as it is, and makes at most one thread active. -/
theorem workload_execute_le (q : Query α) (m : Machine) (t : Thread) (i : Instruction) :
    (m.execute q t i).workload ≤ 4 * m.visits.pending m.position + 2 * m.active.length + 3 := by
  unfold execute
  repeat' split
  all_goals
    simp only [workload, resume, drop, accept, List.length_cons, List.length_nil,
      Option.toList_some, Option.toList_none]
    omega

/-- **Every step brings the end nearer** — an instruction takes one pair away from those that can
still be run here, and all other steps end a thread or start the turn of an active one. -/
theorem workload_step_lt (q : Query α) {m : Machine} (h : m.isIdle = false) :
    (m.step q).workload < m.workload := by
  unfold step
  split
  next t ht =>
    have hdrop : (m.drop t).workload < m.workload := by
      simp [workload, drop, ht]
    split
    next hadmits =>
      split
      next i _ =>
        have hle := workload_execute_le q (m.note t) t i
        have hpending := VisitLog.pending_record hadmits
        simp only [note, workload, ht, Option.toList_some, List.length_singleton] at hle ⊢
        omega
      next => exact hdrop
    next => exact hdrop
  next t active hrunning hactive =>
    simp only [workload, hrunning, hactive, List.length_cons, Option.toList_some,
      Option.toList_none, List.length_nil]
    omega
  next hrunning hactive => simp [isIdle, hrunning, hactive] at h

/-- Runs every thread until it waits for a unit, accepts or ends. -/
def drain (q : Query α) (m : Machine) : Machine :=
  if m.isIdle then m else drain q (m.step q)
termination_by m.workload
decreasing_by exact workload_step_lt q (Bool.eq_false_iff.mpr ‹_›)

/-- **Draining leaves nothing to run.** -/
theorem isIdle_drain (q : Query α) (m : Machine) : (m.drain q).isIdle = true := by
  fun_induction drain q m with
  | case1 m h => exact h
  | case2 m h ih => exact ih

/-- No instruction moves the machine on to another unit. -/
@[simp] theorem position_step (q : Query α) (m : Machine) : (m.step q).position = m.position := by
  unfold step execute
  repeat' split
  all_goals rfl

@[simp] theorem position_drain (q : Query α) (m : Machine) :
    (m.drain q).position = m.position := by
  fun_induction drain q m with
  | case1 => rfl
  | case2 m h ih => rw [ih, position_step]

end Machine

end RegexMachine
