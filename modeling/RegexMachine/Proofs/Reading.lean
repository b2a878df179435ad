import Mathlib.Data.List.Basic
import Mathlib.Tactic.Common
import RegexMachine.Listing
import RegexMachine.Proofs.FirstFault
import RegexMachine.Proofs.Numerals

/-!
# Proofs/Reading — a listing says all there is to say of a program

A reader for listings, built as they are written: a text is cut at its line feeds, a line behind its
counter, and what is left at the first blank. The mnemonic in front of the blank tells how to read
the operand behind it; some mnemonics are the beginnings of others, so it is compared as a whole.

Every part reads what its counterpart writes, and nothing else (`Instruction.read?_eq_some_iff`,
`readLines?_eq_some_iff`). So the instructions of a program can be read back from its listing, and
programs with equal listings have equal instructions (`listing_reads_back`). What a listing cannot
show is a range that is empty, for one from a unit to itself is written as that unit; programs have
no such range.
-/

namespace RegexMachine

/-! ## Cutting a text

A cut undoes the joining of two parts by a separator, if the first part does not contain it. -/

/-- What stands in front of the first `c`, and what stands behind it, if there is one. -/
def cut (c : Char) : List Char → List Char × Option (List Char)
  | [] => ([], none)
  | d :: cs =>
    if d = c then ([], some cs)
    else
      let (front, behind) := cut c cs
      (d :: front, behind)

section Cut

variable {c : Char} {cs front behind : List Char}

theorem cut_append (h : c ∉ front) : cut c (front ++ c :: behind) = (front, some behind) := by
  induction front with
  | nil => simp [cut]
  | cons d front ih =>
    have hne : d ≠ c := (List.ne_of_not_mem_cons h).symm
    rw [List.cons_append, cut, if_neg hne, ih (List.not_mem_of_not_mem_cons h)]

theorem cut_of_not_mem (h : c ∉ cs) : cut c cs = (cs, none) := by
  induction cs with
  | nil => rfl
  | cons d cs ih =>
    have hne : d ≠ c := (List.ne_of_not_mem_cons h).symm
    rw [cut, if_neg hne, ih (List.not_mem_of_not_mem_cons h)]

/-- **Nothing is lost by a cut.** -/
theorem eq_of_cut {behind? : Option (List Char)} (h : cut c cs = (front, behind?)) :
    cs = front ++ behind?.elim [] (c :: ·) := by
  induction cs generalizing front with
  | nil => cases h; rfl
  | cons d cs ih =>
    rw [cut] at h
    split at h
    · next heq =>
      cases h
      rw [heq]
      rfl
    · cases h
      exact congrArg (d :: ·) (ih rfl)

end Cut

/-! ## Operands -/

/-- All assertions. -/
def Assertion.all : List Assertion :=
  [startOfInput, endOfInput, startOfLine, endOfLine, wordBoundary, notWordBoundary]

/-- The assertion of a name. -/
def Assertion.read? (cs : List Char) : Option Assertion :=
  all.find? fun kind => kind.mnemonic.toList = cs

/-- Two units in brackets, the smaller one first. -/
def readRange? : List Char → Option Instruction
  | '[' :: cs =>
    match cut ',' cs with
    | (low, some (' ' :: cs)) =>
      match cut ']' cs with
      | (high, some []) => do
        let min ← readUnit? low
        let max ← readUnit? high
        if min < max then some (.consume min max) else none
      | _ => none
    | _ => none
  | _ => none

namespace Instruction

/-- Whether an instruction that waits for a unit waits for any at all. -/
def HasNoEmptyRange : Instruction → Prop
  | consume min max => min ≤ max
  | _ => True

/-- An instruction, known by its mnemonic and its operand. -/
def readOperand? : String → Option (List Char) → Option Instruction
  | "CONSUME", some cs => (readUnit? cs).map consumeUnit
  | "CONSUME_RANGE", some cs => readRange? cs
  | "ASSERTION", some cs => (Assertion.read? cs).map assert
  | "FORK", some cs => (readDecimal? 2 cs).map fork
  | "JMP", some cs => (readDecimal? 2 cs).map jump
  | "ACCEPT", none => some accept
  | "SET_REGISTER_TO_CP", some cs => (readDecimal? 1 cs).map setRegister
  | "CLEAR_REGISTER", some cs => (readDecimal? 1 cs).map clearRegister
  | "BEGIN_LOOP", none => some beginLoop
  | "END_LOOP", none => some endLoop
  | "WRITE_LOOKBEHIND_TABLE", some cs => (readDecimal? 1 cs).map writeLookbehind
  | "READ_LOOKBEHIND_TABLE", some cs => (readDecimal? 1 cs).map (readLookbehind · true)
  | "READ_NEGATIVE_LOOKBEHIND_TABLE", some cs => (readDecimal? 1 cs).map (readLookbehind · false)
  | _, _ => none

/-- An instruction in text. -/
def read? (text : List Char) : Option Instruction :=
  let (mnemonic, operand) := cut ' ' text
  readOperand? (String.ofList mnemonic) operand

/-- An instruction in a line that begins with its counter. -/
def readLine? (pc : Nat) (line : List Char) : Option Instruction :=
  ((decimal 2 pc ++ [':', ' ']).isPrefixOf? line).bind read?

end Instruction

/-- The instructions in a text of lines, the first one at a counter. -/
def readLines? (pc : Nat) (text : List Char) : Option (List Instruction) :=
  match h : cut '\n' text with
  | (line, some rest) =>
    (Instruction.readLine? pc line).bind fun i => (readLines? (pc + 1) rest).map (i :: ·)
  | (line, none) => if line = [] then some [] else none
termination_by text.length
decreasing_by
  rw [eq_of_cut h, List.length_append, Option.elim_some, List.length_cons]
  omega

/-- **The instructions of a listing.** -/
def readListing? (listing : String) : Option (Array Instruction) :=
  (readLines? 0 listing.toList).map List.toArray

/-! ## Operands read back -/

theorem Assertion.read?_eq_some_iff {cs : List Char} {kind : Assertion} :
    Assertion.read? cs = some kind ↔ cs = kind.mnemonic.toList := by
  constructor
  · intro h
    have hname := List.find?_some h
    exact (of_decide_eq_true hname).symm
  · rintro rfl
    cases kind <;> decide

/-- The text of a range of several units. -/
def rangeText (min max : UInt16) : List Char :=
  '[' :: (hexadecimal 4 min.toNat ++ ',' :: ' ' :: (hexadecimal 4 max.toNat ++ [']']))

theorem readRange?_rangeText {min max : UInt16} (h : min < max) :
    readRange? (rangeText min max) = some (.consume min max) := by
  have hcomma (behind : List Char) : cut ',' (hexadecimal 4 min.toNat ++ ',' :: behind) =
      (hexadecimal 4 min.toNat, some behind) :=
    cut_append (not_mem_hexadecimal (by decide))
  have hbracket : cut ']' (hexadecimal 4 max.toNat ++ [']']) =
      (hexadecimal 4 max.toNat, some []) :=
    cut_append (not_mem_hexadecimal (by decide))
  simp [rangeText, readRange?, hcomma, hbracket, readUnit?_eq_some_iff.mpr rfl, h]

theorem readRange?_eq_some_iff {cs : List Char} {i : Instruction} :
    readRange? cs = some i ↔
      ∃ min max, min < max ∧ i = .consume min max ∧ cs = rangeText min max := by
  refine ⟨fun h => ?_, fun ⟨min, max, hlt, hi, hcs⟩ => hi ▸ hcs ▸ readRange?_rangeText hlt⟩
  unfold readRange? at h
  split at h
  case h_2 => cases h
  next cs =>
  split at h
  case h_2 => cases h
  next low cs' hlow =>
  split at h
  case h_2 => cases h
  next high hhigh =>
  obtain ⟨min, hmin, h⟩ := Option.bind_eq_some_iff.mp h
  obtain ⟨max, hmax, h⟩ := Option.bind_eq_some_iff.mp h
  obtain ⟨hlt, h⟩ := Option.ite_none_right_eq_some.mp h
  refine ⟨min, max, hlt, (Option.some.inj h).symm, ?_⟩
  rw [rangeText, ← readUnit?_eq_some_iff.mp hmin, ← readUnit?_eq_some_iff.mp hmax,
    eq_of_cut hlow, eq_of_cut hhigh]
  rfl

namespace Instruction

variable {i : Instruction} {name : String} {operand? : Option (List Char)} {cs : List Char}

/-- **A mnemonic and an operand are what is written of an instruction.** Without empty ranges no
other instruction is written the same. -/
structure IsWritten (i : Instruction) (name : String) (operand? : Option (List Char)) : Prop where
  mnemonic : name = i.mnemonic
  operand : operand? = i.operand
  range : i.HasNoEmptyRange

theorem isWritten_consumeUnit (u : UInt16) :
    (consumeUnit u).IsWritten "CONSUME" (some (hexadecimal 4 u.toNat)) where
  mnemonic := (if_pos rfl).symm
  operand := congrArg some (if_pos rfl).symm
  range := UInt16.le_refl u

theorem isWritten_range {min max : UInt16} (h : min < max) :
    (consume min max).IsWritten "CONSUME_RANGE" (some (rangeText min max)) where
  mnemonic := (if_neg (UInt16.ne_of_lt h)).symm
  operand := by simp [Instruction.operand, rangeText, UInt16.ne_of_lt h]
  range := UInt16.le_of_lt h

/-- A reader of operands, given to a kind of instruction, reads what is written of that kind. -/
theorem isWritten_of_map {α : Type} {read : List Char → Option α} {write : α → List Char}
    {kind : α → Instruction} (h : (read cs).map kind = some i)
    (hread : ∀ {cs a}, read cs = some a ↔ cs = write a)
    (hkind : ∀ a, (kind a).IsWritten name (some (write a))) : i.IsWritten name (some cs) := by
  obtain ⟨a, ha, rfl⟩ := Option.map_eq_some_iff.mp h
  rw [hread.mp ha]
  exact hkind a

theorem isWritten_of_readOperand? (h : readOperand? name operand? = some i) :
    i.IsWritten name operand? := by
  unfold readOperand? at h
  -- The cases are numbered as the lines of `readOperand?`; most operands are in base ten.
  split at h
  case h_1 => exact isWritten_of_map h readUnit?_eq_some_iff isWritten_consumeUnit
  case h_2 =>
    obtain ⟨min, max, hlt, rfl, rfl⟩ := readRange?_eq_some_iff.mp h
    exact isWritten_range hlt
  case h_3 => exact isWritten_of_map h Assertion.read?_eq_some_iff fun _ => ⟨rfl, rfl, trivial⟩
  case h_4 | h_5 | h_7 | h_8 | h_11 | h_12 | h_13 =>
    exact isWritten_of_map h readDecimal?_eq_some_iff fun _ => ⟨rfl, rfl, trivial⟩
  case h_6 | h_9 | h_10 =>
    cases h
    exact ⟨rfl, rfl, trivial⟩
  case h_14 => cases h

/-- A range of one unit and one of several are written in different ways. -/
theorem readOperand?_consume {min max : UInt16} (h : min ≤ max) :
    readOperand? (consume min max).mnemonic (consume min max).operand =
      some (consume min max) := by
  rcases eq_or_ne min max with rfl | hne
  · have hwritten := isWritten_consumeUnit min
    rw [consumeUnit] at hwritten
    rw [← hwritten.mnemonic, ← hwritten.operand]
    exact Option.map_eq_some_iff.mpr ⟨min, readUnit?_eq_some_iff.mpr rfl, rfl⟩
  · have hlt : min < max := UInt16.lt_of_le_of_ne h hne
    have hwritten := isWritten_range hlt
    rw [← hwritten.mnemonic, ← hwritten.operand]
    exact readRange?_rangeText hlt

/-- **Mnemonic and operand tell an instruction.** -/
theorem readOperand?_eq_some_iff :
    readOperand? name operand? = some i ↔ i.IsWritten name operand? := by
  refine ⟨isWritten_of_readOperand?, ?_⟩
  rintro ⟨rfl, rfl, hrange⟩
  have hdecimal (digits n : Nat) : readDecimal? digits (decimal digits n) = some n :=
    readDecimal?_eq_some_iff.mpr rfl
  cases i with
  | consume min max => exact readOperand?_consume hrange
  | assert kind => simp [mnemonic, Instruction.operand, readOperand?, Assertion.read?_eq_some_iff]
  | fork | jump | setRegister | clearRegister | writeLookbehind =>
    simp [mnemonic, Instruction.operand, readOperand?, hdecimal]
  | readLookbehind index want =>
    cases want <;> simp [mnemonic, Instruction.operand, readOperand?, hdecimal]
  | accept | beginLoop | endLoop => rfl

/-! ## Instructions read back -/

theorem text_eq (i : Instruction) :
    i.text = i.mnemonic.toList ++ i.operand.elim [] (' ' :: ·) := by
  unfold text
  cases i.operand <;> rfl

/-- Mnemonics are words in capitals. -/
theorem isUpper_of_mem_mnemonic {c : Char} (h : c ∈ i.mnemonic.toList) : c.isUpper ∨ c = '_' := by
  have hall : i.mnemonic.toList.all fun c => c.isUpper || c = '_' := by
    cases i with
    | consume =>
      rw [mnemonic]
      split <;> decide
    | readLookbehind _ want => cases want <;> rw [mnemonic] <;> decide
    | _ =>
      rw [mnemonic]
      decide
  simpa using List.all_eq_true.mp hall c h

theorem blank_not_mem_mnemonic (i : Instruction) : ' ' ∉ i.mnemonic.toList :=
  fun h => absurd (isUpper_of_mem_mnemonic h) (by decide)

theorem cut_text (i : Instruction) : cut ' ' i.text = (i.mnemonic.toList, i.operand) := by
  rw [text_eq]
  cases i.operand with
  | none => rw [Option.elim_none, List.append_nil, cut_of_not_mem (blank_not_mem_mnemonic i)]
  | some cs => rw [Option.elim_some, cut_append (blank_not_mem_mnemonic i)]

theorem read?_of_cut (h : cut ' ' cs = (name.toList, operand?)) :
    read? cs = readOperand? name operand? := by
  unfold read?
  rw [h]
  exact congrArg (readOperand? · operand?) String.ofList_toList

/-- **A text is read as an instruction exactly if it is that instruction's.** -/
theorem read?_eq_some_iff : read? cs = some i ↔ cs = i.text ∧ i.HasNoEmptyRange := by
  constructor
  · intro h
    have hcut : cut ' ' cs = ((String.ofList (cut ' ' cs).1).toList, (cut ' ' cs).2) := by
      rw [String.toList_ofList]
    obtain ⟨hmnemonic, hoperand, hrange⟩ := readOperand?_eq_some_iff.mp h
    refine ⟨?_, hrange⟩
    rw [text_eq, ← hmnemonic, ← hoperand]
    exact eq_of_cut hcut
  · rintro ⟨rfl, hrange⟩
    rw [read?_of_cut (cut_text i)]
    exact readOperand?_eq_some_iff.mpr ⟨rfl, rfl, hrange⟩

theorem read?_append (h : ' ' ∉ name.toList) :
    read? (name.toList ++ ' ' :: cs) = readOperand? name (some cs) :=
  read?_of_cut (cut_append h)

/-! ## Lines read back -/

theorem newline_not_mem_operand (i : Instruction) (h : i.operand = some cs) : '\n' ∉ cs := by
  have hdecimal (digits n : Nat) : '\n' ∉ decimal digits n := not_mem_decimal (by decide)
  have hhexadecimal (n : Nat) : '\n' ∉ hexadecimal 4 n := not_mem_hexadecimal (by decide)
  cases i with
  | consume min max =>
    cases h
    split
    · exact hhexadecimal _
    · simp [hhexadecimal]
  | assert kind =>
    cases h
    cases kind <;> decide
  | fork | jump | setRegister | clearRegister | writeLookbehind | readLookbehind =>
    cases h
    exact hdecimal _ _
  | accept | beginLoop | endLoop => cases h

theorem newline_not_mem_text (i : Instruction) : '\n' ∉ i.text := by
  rw [text_eq]
  intro h
  rcases List.mem_append.mp h with h | h
  · exact absurd (isUpper_of_mem_mnemonic h) (by decide)
  · cases hoperand : i.operand with
    | none => simp [hoperand] at h
    | some cs =>
      rw [hoperand, Option.elim_some, List.mem_cons] at h
      rcases h with h | h
      · exact absurd h (by decide)
      · exact newline_not_mem_operand i hoperand h

/-- **A line is read exactly if it is that of the instruction at the counter.** -/
theorem readLine?_eq_some_iff {pc : Nat} {front : List Char} :
    readLine? pc front = some i ↔ front ++ ['\n'] = i.line pc ∧ i.HasNoEmptyRange := by
  rw [readLine?, Option.bind_eq_some_iff, line]
  constructor
  · rintro ⟨cs, hcs, h⟩
    obtain ⟨rfl, hrange⟩ := read?_eq_some_iff.mp h
    refine ⟨?_, hrange⟩
    rw [← List.isPrefixOf?_eq_some_iff_append_eq.mp hcs]
    simp
  · rintro ⟨h, hrange⟩
    refine ⟨i.text, ?_, read?_eq_some_iff.mpr ⟨rfl, hrange⟩⟩
    rw [List.append_cancel_right h]
    exact List.isPrefixOf?_eq_some_iff_append_eq.mpr (by simp)

end Instruction

/-- The lines of instructions, the first one at a counter. -/
def linesFrom (pc : Nat) (code : List Instruction) : List Char :=
  ((code.zipIdx pc).map fun (instruction, pc) => instruction.line pc).flatten

variable {i : Instruction} {pc : Nat} {text line rest : List Char} {code : List Instruction}

theorem linesFrom_cons : linesFrom pc (i :: code) = i.line pc ++ linesFrom (pc + 1) code := rfl

theorem cut_line :
    cut '\n' (i.line pc ++ rest) = (decimal 2 pc ++ ':' :: ' ' :: i.text, some rest) := by
  have hline : '\n' ∉ decimal 2 pc ++ ':' :: ' ' :: i.text := by
    simp [not_mem_decimal, i.newline_not_mem_text, digitChars]
  rw [Instruction.line, List.append_assoc]
  exact cut_append hline

theorem readLines?_of_cut (h : cut '\n' text = (line, some rest)) :
    readLines? pc text =
      (Instruction.readLine? pc line).bind fun i => (readLines? (pc + 1) rest).map (i :: ·) := by
  rw [readLines?.eq_def]
  split
  · next hcut =>
    rw [h] at hcut
    cases hcut
    rfl
  · next hcut =>
    rw [h] at hcut
    cases hcut

theorem readLines?_linesFrom (h : ∀ i ∈ code, i.HasNoEmptyRange) :
    readLines? pc (linesFrom pc code) = some code := by
  -- Every line has another counter, so the induction is for all of them.
  induction code generalizing pc with
  | nil =>
    rw [readLines?.eq_def]
    rfl
  | cons i code ih =>
    obtain ⟨hrange, hranges⟩ := List.forall_mem_cons.mp h
    have hline : Instruction.readLine? pc (decimal 2 pc ++ ':' :: ' ' :: i.text) = some i :=
      Instruction.readLine?_eq_some_iff.mpr ⟨rfl, hrange⟩
    rw [linesFrom_cons, readLines?_of_cut cut_line, hline, ih hranges]
    rfl

/-- **A text is read as instructions exactly if it consists of their lines.** -/
theorem readLines?_eq_some_iff :
    readLines? pc text = some code ↔
      text = linesFrom pc code ∧ ∀ i ∈ code, i.HasNoEmptyRange := by
  refine ⟨fun h => ?_, fun ⟨htext, hranges⟩ => htext ▸ readLines?_linesFrom hranges⟩
  fun_induction readLines? pc text generalizing code with
  | case1 pc text line rest hcut ih =>
    obtain ⟨i, hi, h⟩ := Option.bind_eq_some_iff.mp h
    obtain ⟨code, hcode, rfl⟩ := Option.map_eq_some_iff.mp h
    obtain ⟨hline, hrange⟩ := Instruction.readLine?_eq_some_iff.mp hi
    obtain ⟨hrest, hranges⟩ := ih hcode
    refine ⟨?_, List.forall_mem_cons.mpr ⟨hrange, hranges⟩⟩
    rw [eq_of_cut hcut, linesFrom_cons, ← hline, ← hrest, List.append_assoc]
    rfl
  | case2 pc text hcut =>
    cases h
    exact ⟨eq_of_cut hcut, nofun⟩
  | case3 => cases h

/-! ## Listings read back -/

namespace Program

/-- No range of a program is empty. -/
theorem hasNoEmptyRange (p : Program) {i : Instruction} (h : i ∈ p.code) : i.HasNoEmptyRange := by
  cases i with
  | consume min max => exact (faultIn?_eq_none_iff.mp p.faultless).min_le_max min max h
  | _ => trivial

/-- **The listing of a program is read as its instructions**, and no other text is. -/
theorem readListing?_eq_some_code_iff (p : Program) {listing : String} :
    readListing? listing = some p.code ↔ listing = p.listing := by
  rw [readListing?, Option.map_eq_some_iff]
  constructor
  · rintro ⟨code, hread, hcode⟩
    have htext := (readLines?_eq_some_iff.mp hread).1
    rw [Program.listing, Program.lines, ← hcode, ← String.ofList_toList (s := listing), htext]
    rfl
  · rintro rfl
    refine ⟨p.code.toList, readLines?_eq_some_iff.mpr ⟨String.toList_ofList, fun i hi => ?_⟩, rfl⟩
    exact p.hasNoEmptyRange (Array.mem_toList_iff.mp hi)

theorem listing_eq_iff {p p' : Program} : p.listing = p'.listing ↔ p.code = p'.code := by
  have hread := p.readListing?_eq_some_code_iff.mpr rfl
  constructor
  · intro heq
    rw [heq, p'.readListing?_eq_some_code_iff.mpr rfl] at hread
    exact (Option.some.inj hread).symm
  · intro heq
    exact p'.readListing?_eq_some_code_iff.mp (heq ▸ hread)

/-- **A listing loses nothing.** The one text that is read as the instructions of a program is its
listing, so that programs with equal listings have equal instructions. In it `CONSUME` stands for a
range from a unit to itself, and `CONSUME_RANGE` only for a range from a unit to a larger one. -/
theorem listing_reads_back :
    (∀ (p : Program) (text : String), readListing? text = some p.code ↔ text = p.listing) ∧
    (∀ p p' : Program, p.listing = p'.listing ↔ p.code = p'.code) ∧
    (∀ cs i, Instruction.read? ("CONSUME".toList ++ ' ' :: cs) = some i ↔
      ∃ unit, i = .consume unit unit ∧ cs = hexadecimal 4 unit.toNat) ∧
    (∀ cs i, Instruction.read? ("CONSUME_RANGE".toList ++ ' ' :: cs) = some i ↔
      ∃ min max, min < max ∧ i = .consume min max ∧ cs = rangeText min max) := by
  refine ⟨fun p _ => p.readListing?_eq_some_code_iff, fun _ _ => listing_eq_iff, fun cs i => ?_,
    fun cs i => ?_⟩
  · rw [Instruction.read?_append (by decide)]
    constructor
    · intro h
      obtain ⟨unit, hunit, rfl⟩ := Option.map_eq_some_iff.mp h
      exact ⟨unit, rfl, readUnit?_eq_some_iff.mp hunit⟩
    · rintro ⟨unit, rfl, hcs⟩
      exact Option.map_eq_some_iff.mpr ⟨unit, readUnit?_eq_some_iff.mpr hcs, rfl⟩
  · rw [Instruction.read?_append (by decide)]
    exact readRange?_eq_some_iff

end Program

example :
    readListing? "00: CONSUME_RANGE [0x0061, 0x007a]\n01: ACCEPT\n" =
      some #[.consume 0x61 0x7a, .accept] := by
  cbv

end RegexMachine
