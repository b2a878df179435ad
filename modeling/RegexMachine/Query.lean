import RegexMachine.Program

/-!
# Query — what stays fixed during a search

A search runs a program over an input, with as many registers per thread as the caller asks for.
The state of a search (`RegexMachine.Machine`, `RegexMachine.Search`) holds only what changes.
-/

namespace RegexMachine

/-- The number of units between two polls of the host, if the caller does not choose another. -/
def defaultPollInterval : Nat := 64

/-- A program to be run over an input. -/
structure Query (α : Type) where
  program : Program
  registerCount : Nat
  /-- Every register the program writes is there. -/
  enough : program.registerFault? registerCount = none
  input : Array α
  /-- The host is polled whenever the position reaches a multiple of this; never, if it is zero. -/
  pollInterval : Nat

namespace Query

variable {α : Type}

/-- Pairs a program with an input, if the registers suffice. -/
def ofProgram (program : Program) (registerCount : Nat) (input : Array α) (pollInterval : Nat) :
    Except RegisterError (Query α) :=
  match h : program.registerFault? registerCount with
  | none => .ok ⟨program, registerCount, h, input, pollInterval⟩
  | some fault => .error fault

variable (q : Query α)

/-- Whether the host is polled on reaching a position. -/
def pollsAt (position : Nat) : Bool := q.pollInterval != 0 && position % q.pollInterval == 0

/-- The instruction at a counter. -/
def instruction? (pc : Nat) : Option Instruction := q.program.code[pc]?

/-- Whether a thread that waits at a counter can go on with a unit. -/
def accepts (pc : Nat) (unit : UInt16) : Bool :=
  match q.instruction? pc with
  | some (.consume min max) => min ≤ unit && unit ≤ max
  | _ => false

end Query

end RegexMachine
