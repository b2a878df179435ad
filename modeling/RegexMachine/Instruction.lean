import RegexMachine.CodeUnit

/-!
# Instruction — the bytecode, and the zero-width predicates it can test

A program is a sequence of `Instruction`s addressed by their index, the program counter. A thread
runs from its counter until it needs a unit of the subject, is refused, or accepts.
`Assertion.holds` says when a zero-width predicate is true of a position of an input.
-/

namespace RegexMachine

/-- A predicate on a position of the input that consumes nothing. -/
inductive Assertion where
  | startOfInput
  | endOfInput
  | startOfLine
  | endOfLine
  | wordBoundary
  | notWordBoundary
  deriving DecidableEq, Repr

/-- One instruction of a program. -/
inductive Instruction where
  /-- Wait for a code unit, and go on if it lies between `min` and `max`, both included. -/
  | consume (min max : UInt16)
  /-- Go on if the assertion holds at the position. -/
  | assert (kind : Assertion)
  /-- Go on, and start a thread of lower priority at the target. -/
  | fork (target : Nat)
  | jump (target : Nat)
  | accept
  /-- Store the position in a register. -/
  | setRegister (register : Nat)
  /-- Make a register undefined. -/
  | clearRegister (register : Nat)
  /-- Enter the body of a loop: nothing has been consumed in it. -/
  | beginLoop
  /-- Leave the body of a loop, if something was consumed since the last `beginLoop`. -/
  | endLoop
  /-- Record that a lookbehind has matched at the position, and end. -/
  | writeLookbehind (index : Nat)
  /-- Go on if what is recorded for a lookbehind at the position is `want`. -/
  | readLookbehind (index : Nat) (want : Bool)
  deriving DecidableEq, Repr

namespace Instruction

/-- Waits for one given unit. -/
def consumeUnit (unit : UInt16) : Instruction := consume unit unit

/-- Waits for any unit. -/
def consumeAny : Instruction := consume 0 0xffff

/-- The register an instruction writes, if it writes one. -/
def register? : Instruction → Option Nat
  | setRegister r | clearRegister r => some r
  | _ => none

/-- Whether an instruction ends a segment of a program: the main expression ends with `accept`, and
each lookbehind after it with `writeLookbehind`. -/
def endsSegment : Instruction → Bool
  | accept | writeLookbehind _ => true
  | _ => false

/-- Whether a thread never goes on to the next instruction. -/
def neverFallsThrough : Instruction → Bool
  | jump _ | accept | writeLookbehind _ => true
  | _ => false

end Instruction

/-! ## Zero-width predicates -/

section Holds

variable {α : Type}

/-- The unit just before a position. -/
def unitBefore? (input : Array α) (position : Nat) : Option α :=
  if position = 0 then none else input[position - 1]?

variable [CodeUnit α]

/-- **Whether a position is a word boundary** — of its two neighbours exactly one is a word unit. At
an end of the input the only neighbour decides, and an empty input has no boundary. -/
def isWordBoundary (input : Array α) (position : Nat) : Bool :=
  match unitBefore? input position, input[position]? with
  | none, none => false
  | none, some after => isWordUnit after
  | some before, none => isWordUnit before
  | some before, some after => isWordUnit before != isWordUnit after

/-- Whether an assertion is true of a position. A line starts at the start of the input and after
every line terminator, and ends at the end of the input and before every line terminator. -/
def Assertion.holds (input : Array α) (position : Nat) : Assertion → Bool
  | startOfInput => position == 0
  | endOfInput => position == input.size
  | startOfLine => position == 0 || (unitBefore? input position).any isLineTerminator
  | endOfLine => position == input.size || input[position]?.any isLineTerminator
  | wordBoundary => isWordBoundary input position
  | notWordBoundary => !isWordBoundary input position

end Holds

end RegexMachine
