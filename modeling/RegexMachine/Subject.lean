import RegexMachine.CodeUnit

/-!
# Subject — the text that is searched

A `Subject` holds its units in one of two widths, fixed by the caller. An `Input` adds the index of
the unit at which a search begins.
-/

namespace RegexMachine

/-- The text that is searched: bytes, or 16-bit words. -/
inductive Subject where
  | oneByte (units : Array UInt8)
  | twoByte (units : Array UInt16)
  deriving DecidableEq, Repr

namespace Subject

/-- The number of code units. -/
def size : Subject → Nat
  | oneByte units => units.size
  | twoByte units => units.size

def isEmpty (s : Subject) : Bool := s.size == 0

end Subject

/-- A subject, and the index of the code unit at which the first scan starts. -/
structure Input where
  subject : Subject
  start : Nat := 0
  deriving DecidableEq, Repr

/-- Whether the start lies in the subject or at its end. Nothing is found from any other start. -/
def Input.isValid (input : Input) : Bool := input.start ≤ input.subject.size

end RegexMachine
