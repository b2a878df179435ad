import Mathlib.Tactic.Common
import RegexMachine.Proofs.FirstFault
import RegexMachine.Regex

/-!
# Proofs/RegisterCount — the smallest number of registers is the least that is accepted

A program is asked for its registers twice, by code that has nothing in common.
`Program.minRegisterCount` takes the largest register it writes, and `Program.registerFault?` looks
for the first one that is out of bounds. The two agree on every number of registers: the second
finds a fault exactly where the first one asks for more, and tells the smallest counter at which a
register is missing (`FirstRegisterFault`). So a regex with as many registers as its program writes
can always be made (`minRegisterCount_exact`).
-/

namespace RegexMachine

/-- The instruction at a counter writes a register. -/
def Program.WritesAt (p : Program) (pc r : Nat) : Prop :=
  ∃ i, p.code[pc]? = some i ∧ i.register? = some r

/-- **What is wrong with a number of registers** — two of them are always needed, and then that of
the first instruction to write one. -/
inductive FirstRegisterFault (p : Program) (registerCount : Nat) : RegisterError → Prop
  | tooFew (h : registerCount < 2) : FirstRegisterFault p registerCount (.tooFew registerCount)
  | outOfBounds {pc r : Nat} (htwo : 2 ≤ registerCount) (h : p.WritesAt pc r)
    (hout : registerCount ≤ r)
    (hfirst : ∀ before < pc, ∀ r, p.WritesAt before r → r < registerCount) :
    FirstRegisterFault p registerCount (.outOfBounds pc r registerCount)

namespace Program

variable (p : Program) {registerCount : Nat} {error : RegisterError}

/-- What is wrong with a number of registers at one instruction. -/
def missing? (registerCount : Nat) : Instruction × Nat → Option RegisterError
  | (i, pc) =>
    match i.register? with
    | some r => if r < registerCount then none else some (.outOfBounds pc r registerCount)
    | none => none

theorem registerFault?_eq :
    p.registerFault? registerCount =
      if registerCount < 2 then some (.tooFew registerCount)
      else p.code.toList.zipIdx.findSome? (missing? registerCount) := rfl

theorem missing?_eq_some_iff {pc : Nat} {i : Instruction} :
    missing? registerCount (i, pc) = some error ↔
      ∃ r, i.register? = some r ∧ registerCount ≤ r ∧ .outOfBounds pc r registerCount = error := by
  rcases hr : i.register? with _ | r <;> simp [missing?, hr]

theorem missing?_eq_none_iff {pc : Nat} {i : Instruction} :
    missing? registerCount (i, pc) = none ↔ ∀ r, i.register? = some r → r < registerCount := by
  rcases hr : i.register? with _ | r <;> simp [missing?, hr]

/-- **The check finds the first register that is missing.** -/
theorem registerFault?_eq_some_iff :
    p.registerFault? registerCount = some error ↔ FirstRegisterFault p registerCount error := by
  rw [registerFault?_eq]
  split
  · next hfew =>
    constructor
    · rintro ⟨⟩
      exact .tooFew hfew
    · rintro (- | ⟨htwo, -, -, -⟩)
      · rfl
      · exact absurd hfew (Nat.not_lt.mpr htwo)
  · next htwo =>
    simp only [findSome?_zipIdx_eq_some, Nat.zero_add, Array.getElem?_toList,
      missing?_eq_some_iff, missing?_eq_none_iff]
    constructor
    · rintro ⟨pc, i, hi, ⟨r, hr, hout, rfl⟩, hfirst⟩
      exact .outOfBounds (Nat.not_lt.mp htwo) ⟨i, hi, hr⟩ hout
        fun before hlt r ⟨i, hi, hr⟩ => hfirst before hlt i hi r hr
    · rintro (hfew | ⟨-, ⟨i, hi, hr⟩, hout, hfirst⟩)
      · exact absurd hfew htwo
      · exact ⟨_, i, hi, ⟨_, hr, hout, rfl⟩, fun before hlt i hi r hr =>
          hfirst before hlt r ⟨i, hi, hr⟩⟩

/-- **A number of registers is accepted exactly if it is not below the smallest one.** -/
theorem registerFault?_eq_none_iff_le :
    p.registerFault? registerCount = none ↔ p.minRegisterCount ≤ registerCount :=
  p.registerFault?_eq_none_iff.trans p.minRegisterCount_le_iff.symm

end Program

/-! ## Making a regex -/

namespace Regex

variable {p : Program} {options : Options} {error : RegisterError}

theorem ofProgram_eq_error_iff :
    ofProgram p options = .error error ↔
      p.registerFault? (options.registerCount?.getD p.minRegisterCount) = some error := by
  rw [ofProgram]
  split
  · next hnone => simp [hnone]
  · next fault hfault => simp [hfault]

/-- **A regex that is made has the registers it was checked for.** -/
theorem exists_ofProgram_eq_ok
    (h : p.registerFault? (options.registerCount?.getD p.minRegisterCount) = none) :
    ∃ re, ofProgram p options = .ok re ∧ re.program = p ∧
      re.registerCount = options.registerCount?.getD p.minRegisterCount ∧
      re.pollInterval = options.pollInterval := by
  rw [ofProgram]
  split
  · exact ⟨_, rfl, rfl, rfl, rfl⟩
  · next fault hfault =>
    rw [h] at hfault
    cases hfault

end Regex

namespace Program

/-- **The register requirement of a program is exact.**

* A number of registers is accepted exactly if it is not below the smallest one.
* A number that is refused is either below two, or too small for some instruction. What is told then
  is the smallest counter of these instructions, and the register it writes.
* A regex that is given no number of registers can always be made, and has the smallest one. A regex
  that is given one cannot be made exactly if it is below the smallest one, and what is told is the
  same. -/
theorem minRegisterCount_exact (p : Program) (registerCount pollInterval : Nat) :
    let asked : Options := { registerCount? := some registerCount, pollInterval }
    (p.registerFault? registerCount = none ↔ p.minRegisterCount ≤ registerCount) ∧
      (∀ error, p.registerFault? registerCount = some error ↔
        FirstRegisterFault p registerCount error) ∧
      (∃ re, Regex.ofProgram p { pollInterval } = .ok re ∧ re.program = p ∧
        re.registerCount = p.minRegisterCount ∧ re.pollInterval = pollInterval) ∧
      ((∃ error, Regex.ofProgram p asked = .error error) ↔
        registerCount < p.minRegisterCount) ∧
      ∀ error, Regex.ofProgram p asked = .error error ↔
        FirstRegisterFault p registerCount error := by
  intro asked
  have hfault : ∀ error, Regex.ofProgram p asked = .error error ↔
      p.registerFault? registerCount = some error := fun _ => Regex.ofProgram_eq_error_iff
  refine ⟨p.registerFault?_eq_none_iff_le, fun _ => p.registerFault?_eq_some_iff,
    Regex.exists_ofProgram_eq_ok p.registerFault?_minRegisterCount, ?_,
    fun error => (hfault error).trans p.registerFault?_eq_some_iff⟩
  simp only [hfault]
  rw [← Option.isSome_iff_exists, ← Nat.not_le, ← p.registerFault?_eq_none_iff_le,
    Option.isSome_iff_ne_none]

/-- Registers 0 and 3 are written, so four are needed: of two, the one that is missing is told, and
of one, only that there are too few. -/
example :
    let p : Program := ⟨#[.setRegister 0, .clearRegister 3, .accept], by decide⟩
    p.minRegisterCount = 4 ∧ p.registerFault? 4 = none ∧
      p.registerFault? 2 = some (.outOfBounds 1 3 2) ∧ p.registerFault? 1 = some (.tooFew 1) := by
  decide

end Program

end RegexMachine
