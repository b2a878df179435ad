import RegexMachine.Machine

/-!
# Scan — one pass over the input, from the position of the machine on

A scan begins with a thread at the main expression and one at every lookbehind. Lookbehinds have
the higher priority, later ones before earlier ones, so that what a lookbehind has to say about a
position is known before any thread asks. The scan then reads one unit after the other until the
input ends, or until there is a match and no thread is left that could better it (`Machine.run`).
-/

namespace RegexMachine

namespace Machine

/-! ## Beginning -/

/-- All threads that are alive. -/
def threads (m : Machine) : List Thread := m.running.toList ++ m.active ++ m.blocked

/-- Ends every thread and forgets the match. -/
def clear (m : Machine) : Machine :=
  { m with
    running := none
    active := []
    blocked := []
    best := none
    pool := (m.pool.releaseAll (m.threads.map Thread.registers)).releaseAll m.best.toList }

/-- Starts a thread, of higher priority than all others, with no position in any register. -/
def spawn (m : Machine) (pc : Nat) : Machine :=
  let (registers, pool) := m.pool.acquireFilled none
  { m with active := { pc, registers, consumed := true } :: m.active, pool }

variable {α : Type}

/-- No lookbehind has matched yet. -/
def noneMatched (q : Query α) : Array Bool := Array.replicate q.program.lookbehindCount false

/-- A machine that has not begun a scan. -/
def idle (q : Query α) (position : Nat) : Machine where
  position
  pool := .empty q.registerCount
  visits := .fresh q.program.size
  matched := noneMatched q

/-- The threads a scan begins with, those of higher priority later. -/
def seeds (q : Query α) : List Nat := 0 :: q.program.lookbehindEntries

/-- Clears away the last scan and starts the threads of the next one. -/
def beginScan (q : Query α) (m : Machine) : Machine :=
  let m := m.clear
  (seeds q).foldl spawn
    { m with
      visits := .fresh q.program.size
      matched := noneMatched q
      stats.scans := m.stats.scans + 1
      stepsHere := 0 }

/-! ## Reading the input -/

/-- Moves on to the next position. What lookbehinds matched at the last one no longer counts. -/
def advance (m : Machine) : Machine :=
  { m with
    position := m.position + 1
    matched := m.matched.map fun _ => false
    stepsHere := 0 }

/-- Hands a unit to a thread that has waited for it, and ends the thread if it wants another. -/
def wake (q : Query α) (unit : UInt16) (m : Machine) (t : Thread) : Machine :=
  if q.accepts t.pc unit then { m with active := { t.advance with consumed := true } :: m.active }
  else { m with pool := m.pool.release t.registers }

/-- Hands a unit to every thread that has waited for one. -/
def feed (q : Query α) (unit : UInt16) (m : Machine) : Machine :=
  m.blocked.foldl (wake q unit) { m with blocked := [] }

@[simp] theorem position_wake (q : Query α) (unit : UInt16) (m : Machine) (t : Thread) :
    (m.wake q unit t).position = m.position := by
  unfold wake
  split <;> rfl

@[simp] theorem position_feed (q : Query α) (unit : UInt16) (m : Machine) :
    (m.feed q unit).position = m.position := by
  suffices h : ∀ (waiting : List Thread) (m : Machine),
      (waiting.foldl (wake q unit) m).position = m.position from h _ _
  intro waiting
  induction waiting with
  | nil => exact fun _ => rfl
  | cons t waiting ih => exact fun m => (ih _).trans (position_wake q unit m t)

variable [CodeUnit α]

/-- Whether a scan may stop before the end of the input: there is a match, and no thread of higher
priority is left. -/
def isSettled (m : Machine) : Bool := m.best.isSome && m.blocked.isEmpty

/-- **Reads the input until the scan is settled or the input ends** — unless the host, which is
polled on the way, ends it before. -/
def run (q : Query α) (m : Machine) (host : Host) : Option SearchError × Machine × Host :=
  if m.isSettled then (none, m, host)
  else if h : m.position < q.input.size then
    let unit := CodeUnit.word q.input[m.position]
    let next := m.advance
    match host.pollIf (q.pollsAt next.position) with
    | (some error, host) => (some error, next, host)
    | (none, host) => run q ((next.feed q unit).drain q) host
  else (none, m, host)
termination_by q.input.size - m.position
decreasing_by
  simp only [position_drain, position_feed, advance]
  omega

/-- One whole scan. -/
def scan (q : Query α) (m : Machine) (host : Host) : Option SearchError × Machine × Host :=
  run q ((m.beginScan q).drain q) host

end Machine

end RegexMachine
