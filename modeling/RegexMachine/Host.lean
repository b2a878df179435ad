/-!
# Host — the program around a search, which may stop it

A long search asks its host from time to time whether it may go on (`Host.poll`). A host is known
by the sequence of its answers; every answer but `Interrupt.proceed` ends the search with a
`SearchError`.
-/

namespace RegexMachine

/-- What a host answers when it is asked whether the search may go on. -/
inductive Interrupt where
  | proceed
  /-- The host wants its turn. -/
  | yield
  /-- The subject has changed its width meanwhile. -/
  | representationChanged
  /-- The host ran out of stack while it served its interrupts. -/
  | stackOverflow
  /-- Serving the interrupts raised an exception in the host. -/
  | exception
  deriving DecidableEq, Repr

/-- Why a search ended before its time. -/
inductive SearchError where
  | stackOverflow
  | exception
  /-- Nothing is wrong: the caller runs the search again. -/
  | retry
  /-- The accepting thread left these values in registers 0 and 1, which bound no span of the
  input. -/
  | malformedMatch (start stop : Option Nat)
  deriving DecidableEq, Repr

namespace SearchError

def isRetry (e : SearchError) : Bool := e == retry

/-- A register in an error message. -/
def registerText : Option Nat → String
  | none => "None"
  | some position => s!"Some({position})"

def message : SearchError → String
  | stackOverflow => "stack overflow while handling interrupts"
  | exception => "exception raised while handling interrupts"
  | retry => "matching was interrupted and must be retried"
  | malformedMatch start stop =>
    let low := registerText start
    let high := registerText stop
    s!"accepting thread reported invalid match bounds {low}..{high}"

end SearchError

/-- The error an answer ends the search with. -/
def Interrupt.error? : Interrupt → Option SearchError
  | proceed => none
  | yield | representationChanged => some .retry
  | stackOverflow => some .stackOverflow
  | exception => some .exception

/-- A host: its answer to every poll, by number, and how often it was polled so far. -/
structure Host where
  answer : Nat → Interrupt
  polls : Nat := 0

namespace Host

/-- A host that never interrupts. -/
def quiet : Host := { answer := fun _ => .proceed }

/-- A host that gives these answers one after the other, and lets the search go on after them. -/
def ofAnswers (answers : Array Interrupt) : Host := { answer := fun n => answers[n]?.getD .proceed }

/-- Asks the host whether the search may go on. -/
def poll (host : Host) : Option SearchError × Host :=
  ((host.answer host.polls).error?, { host with polls := host.polls + 1 })

/-- Asks the host if a poll is due. -/
def pollIf (due : Bool) (host : Host) : Option SearchError × Host :=
  if due then host.poll else (none, host)

end Host

end RegexMachine
