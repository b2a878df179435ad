import RegexMachine.Instruction
import RegexMachine.Numeral

/-!
# Program — validated bytecode

A `Program` is a sequence of instructions in which every jump target and lookbehind index is in
bounds, no range is empty and the last instruction does not run past the end (`faultIn? = none`).
`Program.ofCode` makes one, or says what is the first fault.

The main expression comes first and each lookbehind after it, one segment after the other. A
segment therefore starts wherever the instruction before ends one (`lookbehindEntriesIn`).
-/

namespace RegexMachine

/-- Why a sequence of instructions is not a program. -/
inductive ProgramError where
  | empty
  | jumpOutOfBounds (pc target : Nat)
  | lookbehindOutOfBounds (pc index tableSize : Nat)
  | emptyRange (pc : Nat) (min max : UInt16)
  | fallsOffEnd (pc : Nat)
  deriving DecidableEq, Repr

/-- Why a number of registers is too small for a program. -/
inductive RegisterError where
  | tooFew (registerCount : Nat)
  | outOfBounds (pc register registerCount : Nat)
  deriving DecidableEq, Repr

/-! ## Faults -/

/-- What is wrong with the instruction at `pc`, in a program of `size` instructions and `tableSize`
lookbehinds. -/
def Instruction.fault? (size tableSize pc : Nat) : Instruction → Option ProgramError
  | fork target | jump target =>
    if target < size then none else some (.jumpOutOfBounds pc target)
  | writeLookbehind index | readLookbehind index _ =>
    if index < tableSize then none else some (.lookbehindOutOfBounds pc index tableSize)
  | consume min max => if min ≤ max then none else some (.emptyRange pc min max)
  | _ => none

/-- The counters at which lookbehinds start: those right after an instruction that ends a segment,
in increasing order. -/
def lookbehindEntriesIn (code : Array Instruction) : List Nat :=
  (code.pop.toList.zipIdx 1).filterMap fun (instruction, next) =>
    if instruction.endsSegment then some next else none

/-- **The first fault** — the one at the smallest counter, if an instruction is faulty by itself,
and else that of a last instruction which goes on past the end. -/
def faultIn? (code : Array Instruction) : Option ProgramError :=
  match code.back? with
  | none => some .empty
  | some last =>
    let tableSize := (lookbehindEntriesIn code).length
    let fault := code.toList.zipIdx.findSome? fun (instruction, pc) =>
      instruction.fault? code.size tableSize pc
    fault.or (if last.neverFallsThrough then none else some (.fallsOffEnd (code.size - 1)))

/-! ## Programs -/

/-- Bytecode without a fault. -/
structure Program where
  code : Array Instruction
  faultless : faultIn? code = none

namespace Program

/-- Accepts a sequence of instructions, or reports its first fault. -/
def ofCode (code : Array Instruction) : Except ProgramError Program :=
  match h : faultIn? code with
  | none => .ok ⟨code, h⟩
  | some fault => .error fault

variable (p : Program)

/-- The number of instructions. -/
def size : Nat := p.code.size

def isEmpty : Bool := p.code.isEmpty

/-- The counters at which lookbehinds start, in increasing order. -/
def lookbehindEntries : List Nat := lookbehindEntriesIn p.code

def lookbehindCount : Nat := p.lookbehindEntries.length

/-- **What is wrong with a number of registers** — there are fewer than two, or else the first
instruction that writes a register writes one past the last. -/
def registerFault? (registerCount : Nat) : Option RegisterError :=
  if registerCount < 2 then some (.tooFew registerCount)
  else
    p.code.toList.zipIdx.findSome? fun (instruction, pc) =>
      match instruction.register? with
      | some r => if r < registerCount then none else some (.outOfBounds pc r registerCount)
      | none => none

/-- The smallest number of registers that holds registers 0 and 1 and every register written. -/
def minRegisterCount : Nat :=
  (p.code.toList.filterMap Instruction.register?).foldl (fun n r => max n (r + 1)) 2

end Program

/-! ## Wording -/

def ProgramError.message : ProgramError → String
  | empty => "program is empty"
  | jumpOutOfBounds pc target => s!"instruction {pc} jumps to {target}, which is out of bounds"
  | lookbehindOutOfBounds pc index tableSize =>
    s!"instruction {pc} uses lookbehind {index}, but the program only has {tableSize}"
  | emptyRange pc min max =>
    let low := String.ofList (hexadecimal 1 min.toNat)
    let high := String.ofList (hexadecimal 1 max.toNat)
    s!"instruction {pc} consumes an empty range {low}..={high}"
  | fallsOffEnd pc => s!"last instruction {pc} continues past the end of the program"

def RegisterError.message : RegisterError → String
  | tooFew registerCount =>
    s!"at least 2 registers per match are required, got {registerCount}"
  | outOfBounds pc register registerCount =>
    s!"instruction {pc} writes register {register}, but only {registerCount} are available"

end RegexMachine
