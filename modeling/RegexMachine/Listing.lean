import RegexMachine.Program

/-!
# Listing — a program in text

`Program.listing` writes one line per instruction: its counter with at least two digits, a colon,
the mnemonic, the operands. Targets have at least two digits too, code units four hexadecimal ones,
and a range of one unit has a mnemonic of its own.
-/

namespace RegexMachine

/-- The name of an assertion. -/
def Assertion.mnemonic : Assertion → String
  | startOfInput => "START_OF_INPUT"
  | endOfInput => "END_OF_INPUT"
  | startOfLine => "START_OF_LINE"
  | endOfLine => "END_OF_LINE"
  | wordBoundary => "BOUNDARY"
  | notWordBoundary => "NON_BOUNDARY"

namespace Instruction

/-- The word that names the kind of an instruction. -/
def mnemonic : Instruction → String
  | consume min max => if min = max then "CONSUME" else "CONSUME_RANGE"
  | assert _ => "ASSERTION"
  | fork _ => "FORK"
  | jump _ => "JMP"
  | accept => "ACCEPT"
  | setRegister _ => "SET_REGISTER_TO_CP"
  | clearRegister _ => "CLEAR_REGISTER"
  | beginLoop => "BEGIN_LOOP"
  | endLoop => "END_LOOP"
  | writeLookbehind _ => "WRITE_LOOKBEHIND_TABLE"
  | readLookbehind _ true => "READ_LOOKBEHIND_TABLE"
  | readLookbehind _ false => "READ_NEGATIVE_LOOKBEHIND_TABLE"

/-- The operand in text, if an instruction has one that its mnemonic does not tell. -/
def operand : Instruction → Option (List Char)
  | consume min max =>
    let low := hexadecimal 4 min.toNat
    let high := hexadecimal 4 max.toNat
    some (if min = max then low else '[' :: low ++ ',' :: ' ' :: high ++ [']'])
  | assert kind => some kind.mnemonic.toList
  | fork target | jump target => some (decimal 2 target)
  | setRegister r | clearRegister r => some (decimal 1 r)
  | writeLookbehind index | readLookbehind index _ => some (decimal 1 index)
  | accept | beginLoop | endLoop => none

/-- The mnemonic and the operand, a blank between them. -/
def text (instruction : Instruction) : List Char :=
  instruction.mnemonic.toList ++
    match instruction.operand with
    | some operand => ' ' :: operand
    | none => []

/-- One line of a listing. -/
def line (instruction : Instruction) (pc : Nat) : List Char :=
  decimal 2 pc ++ ':' :: ' ' :: instruction.text ++ ['\n']

end Instruction

/-- The lines of a program, in order. -/
def Program.lines (p : Program) : List (List Char) :=
  p.code.toList.zipIdx.map fun (instruction, pc) => instruction.line pc

/-- A program in text. -/
def Program.listing (p : Program) : String := String.ofList p.lines.flatten

end RegexMachine
