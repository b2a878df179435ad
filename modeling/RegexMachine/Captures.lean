import RegexMachine.Registers

/-!
# Captures — spans of code units, read off a register array

A successful thread leaves its answer in its registers: registers `2 i` and `2 i + 1` hold the two
ends of group `i`, and group 0 is the overall match. `Span.ofRegisters?` reads one pair,
`Captures.ofRegisters` the whole array.
-/

namespace RegexMachine

/-- A stretch of code units, from the index `start` up to the index `stop`, which it leaves out. -/
structure Span where
  start : Nat
  stop : Nat
  deriving DecidableEq, Repr

namespace Span

def isEmpty (s : Span) : Bool := s.start == s.stop

/-- The span between two registers, if both are defined and in order. -/
def ofRegisters? : Option Nat → Option Nat → Option Span
  | some start, some stop => if start ≤ stop then some ⟨start, stop⟩ else none
  | _, _ => none

end Span

namespace Registers

/-- The position in a register, if there is such a register and it is defined. -/
def position? (registers : Registers) (r : Nat) : Option Nat := registers[r]?.join

/-- The overall match, recorded in registers 0 and 1. -/
def span? (registers : Registers) : Option Span :=
  Span.ofRegisters? (position? registers 0) (position? registers 1)

end Registers

/-- The spans of all groups, group 0 first; a group that took no part has none. -/
structure Captures where
  spans : List (Option Span)
  deriving DecidableEq, Repr

namespace Captures

/-- Consecutive registers taken two by two; the last one of an odd number belongs to no group. -/
def pairUp : List (Option Nat) → List (Option Span)
  | start :: stop :: rest => Span.ofRegisters? start stop :: pairUp rest
  | _ => []

/-- The groups recorded in a register array. -/
def ofRegisters (registers : Registers) : Captures := ⟨pairUp registers.toList⟩

/-- The span of a group, if there is such a group and it took part. -/
def get? (c : Captures) (group : Nat) : Option Span := c.spans[group]?.join

/-- The overall match. -/
def group0? (c : Captures) : Option Span := c.get? 0

def groupCount (c : Captures) : Nat := c.spans.length

end Captures

end RegexMachine
