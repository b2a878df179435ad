import Mathlib
import RegexMachine.Proofs.Lockstep

/-!
# Proofs/Noninterference — groups have no part in which match is found

Registers 0 and 1 bound the match, and all others belong to groups. A search looks at the bounds
only, and at these only between two scans. So programs that differ in what they write to the
registers of groups (`Program.AgreesButGroups`), with any numbers of registers, find the same
matches with the same effort, and poll the host at the same times.
-/

namespace RegexMachine

/-! ## What may differ -/

/-- Whether an instruction writes a register that does not bound the match. -/
def Instruction.WritesGroup (i : Instruction) : Prop := ∃ r ∈ i.register?, 2 ≤ r

instance (i : Instruction) : Decidable i.WritesGroup :=
  inferInstanceAs (Decidable (∃ r ∈ i.register?, 2 ≤ r))

/-- **Programs that differ in groups only** — where two instructions differ, each of them sets or
clears a register of a group. -/
structure Program.AgreesButGroups (p p' : Program) : Prop where
  size_eq : p'.size = p.size
  eq_or_writesGroup : ∀ pc < p.size, ∀ i ∈ p.code[pc]?, ∀ i' ∈ p'.code[pc]?,
    i' = i ∨ i.WritesGroup ∧ i'.WritesGroup

instance (p p' : Program) : Decidable (p.AgreesButGroups p') :=
  decidable_of_iff
    (p'.size = p.size ∧ ∀ pc < p.size, ∀ i ∈ p.code[pc]?, ∀ i' ∈ p'.code[pc]?,
      i' = i ∨ i.WritesGroup ∧ i'.WritesGroup)
    ⟨fun h => ⟨h.1, h.2⟩, fun h => ⟨h.1, h.2⟩⟩

/-- The bounds of the match that was found, if one was. -/
def Search.Attempt.bounds (a : Attempt) : Except SearchError (Option (Option Nat × Option Nat)) :=
  a.outcome.map (·.map fun registers => (registers.position? 0, registers.position? 1))

/-- Two searches of which only the bounds of matches are compared, under the same hosts. -/
def Pairing.bounds : Pairing where
  offset := 0
  registers := fun registers registers' => 2 ≤ registers.size ∧ 2 ≤ registers'.size ∧
    ∀ r < 2, registers'.position? r = registers.position? r
  hosts := (· = ·)

namespace Registers

variable {registers registers' : Registers} {r r' : Nat} {value value' : Option Nat}

theorem position?_setIfInBounds_self (h : r < registers.size) :
    position? (registers.setIfInBounds r value) r = value := by
  rw [position?, Array.getElem?_setIfInBounds_self_of_lt h]
  rfl

theorem position?_setIfInBounds_ne (h : r ≠ r') :
    position? (registers.setIfInBounds r value) r' = registers.position? r' := by
  rw [position?, position?, Array.getElem?_setIfInBounds_ne h]

/-- The same write to both arrays keeps equal bounds equal. -/
theorem bounds_setIfInBounds (h : Pairing.bounds.registers registers registers') (r : Nat)
    (value : Option Nat) :
    Pairing.bounds.registers (registers.setIfInBounds r value)
      (registers'.setIfInBounds r value) := by
  obtain ⟨hsize, hsize', hbounds⟩ := h
  refine ⟨by simpa using hsize, by simpa using hsize', fun b hb => ?_⟩
  by_cases heq : r = b
  · subst heq
    rw [position?_setIfInBounds_self (by omega), position?_setIfInBounds_self (by omega)]
  · rw [position?_setIfInBounds_ne heq, position?_setIfInBounds_ne heq, hbounds b hb]

/-- Any writes to groups keep equal bounds equal. -/
theorem bounds_setGroups (h : Pairing.bounds.registers registers registers') (hr : 2 ≤ r)
    (hr' : 2 ≤ r') :
    Pairing.bounds.registers (registers.setIfInBounds r value)
      (registers'.setIfInBounds r' value') := by
  obtain ⟨hsize, hsize', hbounds⟩ := h
  refine ⟨by simpa using hsize, by simpa using hsize', fun b hb => ?_⟩
  rw [position?_setIfInBounds_ne (by omega), position?_setIfInBounds_ne (by omega), hbounds b hb]

theorem bounds_blank {n n' : Nat} (hn : 2 ≤ n) (hn' : 2 ≤ n') :
    Pairing.bounds.registers (Array.replicate n none) (Array.replicate n' none) := by
  refine ⟨by simpa using hn, by simpa using hn', fun r hr => ?_⟩
  rw [position?, position?, Array.getElem?_replicate, Array.getElem?_replicate,
    if_pos (by omega), if_pos (by omega)]

end Registers

section Searches

variable {α : Type} [CodeUnit α] {q q' : Query α}

/-- Programs that differ in groups only do the same, but for the groups. -/
theorem Program.AgreesButGroups.instruction {p p' : Program} (h : p.AgreesButGroups p')
    (input : Array α) (pc : Nat) :
    Option.Rel (Pairing.bounds.Instructions input input) p.code[pc]? p'.code[pc]? := by
  have hsize : p'.code.size = p.code.size := h.size_eq
  rcases Nat.lt_or_ge pc p.code.size with hlt | hge
  · have hi := Array.getElem?_eq_getElem hlt
    have hi' := Array.getElem?_eq_getElem (hsize ▸ hlt)
    rw [hi, hi']
    refine .some ?_
    rcases h.eq_or_writesGroup pc hlt _ hi _ hi' with heq | ⟨⟨r, hr, htwo⟩, r', hr', htwo'⟩
    · rw [heq]
      exact Pairing.instructions_self (fun kind _ position => rfl)
        fun r _ position registers registers' h => Registers.bounds_setIfInBounds h r _
    · exact .write hr hr' fun position registers registers' h =>
        Registers.bounds_setGroups h htwo htwo'
  · rw [Array.getElem?_eq_none hge, Array.getElem?_eq_none (hsize ▸ hge)]
    exact .none

/-- **Queries that differ in groups only are compared by the bounds of matches.** -/
theorem Query.queries_bounds (hprograms : q.program.AgreesButGroups q'.program)
    (hinput : q'.input = q.input) (hinterval : q'.pollInterval = q.pollInterval) :
    Pairing.bounds.Queries q q' where
  size_program := hprograms.size_eq
  instruction := fun pc => by
    rw [hinput]
    exact hprograms.instruction q.input pc
  size_input := by rw [hinput]; rfl
  unit_eq := fun position => by rw [hinput]; rfl
  blank := Registers.bounds_blank q.two_le_registerCount q'.two_le_registerCount
  bounds := fun registers registers' h r hr => by
    rw [h.2.2 r hr]
    exact Option.map_id'.symm
  poll := by
    rintro host _ rfl position
    exact poll_eq hinterval host position

namespace Search

theorem Attempt.bounds_eq {a a' : Attempt} (h : Pairing.bounds.Attempts a a') :
    a'.bounds = a.bounds := by
  have houtcomes := h.outcomes
  rw [bounds, bounds]
  generalize a.outcome = outcome, a'.outcome = outcome' at houtcomes
  rcases houtcomes with error | ⟨⟨h⟩ | _⟩
  · exact congrArg Except.error error.shift_zero
  · simp [Except.map, h.2.2]
  · rfl

/-- **Groups have no part in which match is found.** Let two programs differ in groups only. With
any numbers of registers, over the same input and under the same hosts, two searches that begin at
the same position are asked for matches equally often, and find the same bounds, the same errors and
the same ends. After each call they are at the same position, with the same counters, and have
polled the host equally often. -/
theorem reports_bounds (q q' : Query α) (hprograms : q.program.AgreesButGroups q'.program)
    (hinput : q'.input = q.input) (hinterval : q'.pollInterval = q.pollInterval) (position : Nat)
    (calls calls' : List Call) (hcalls : List.Forall₂ (Pairing.bounds.Calls q q') calls calls') :
    List.Forall₂
      (fun r r' => r'.attempts.map Attempt.scanStart? = r.attempts.map Attempt.scanStart? ∧
        r'.attempts.map Attempt.bounds = r.attempts.map Attempt.bounds ∧
        r'.position = r.position ∧ r'.stats = r.stats ∧ r'.host = r.host)
      ((start q position).reports q calls) ((start q' position).reports q' calls') := by
  have hqueries := Query.queries_bounds hprograms hinput hinterval
  refine ((hqueries.start position).reports hqueries hcalls).imp fun r r' h => ?_
  refine ⟨?_, ?_, h.position_eq, h.stats_eq, h.hosts.symm⟩ <;>
    rw [eq_comm, ← List.forall₂_eq_eq_eq, List.forall₂_map_left_iff, List.forall₂_map_right_iff]
  · refine h.attempts.imp fun a a' h => ?_
    rw [h.scanStart?_eq]
    exact Option.map_id'.symm
  · exact h.attempts.imp fun a a' h => (Attempt.bounds_eq h).symm

/-- The expression `(a)|(b)`, on the input `ab`. The host is polled at each position. -/
def twoGroups : Query UInt8 where
  program :=
    ⟨#[.setRegister 0, .fork 6, .setRegister 2, .consume 0x61 0x61, .setRegister 3, .jump 9,
      .setRegister 4, .consume 0x62 0x62, .setRegister 5, .setRegister 1, .accept], by decide⟩
  registerCount := 6
  enough := by decide
  input := #[0x61, 0x62]
  pollInterval := 1

/-- The same expression, but either branch clears a register of the other one, and sets one that is
left over. -/
def tangledGroups : Query UInt8 where
  program :=
    ⟨#[.setRegister 0, .fork 6, .clearRegister 4, .consume 0x61 0x61, .setRegister 6, .jump 9,
      .clearRegister 2, .consume 0x62 0x62, .setRegister 6, .setRegister 1, .accept], by decide⟩
  registerCount := 7
  enough := by decide
  input := #[0x61, 0x62]
  pollInterval := 1

/-- What the first program finds is enough to know where the second one finds its matches. -/
theorem reports_bounds_two_groups :
    let calls : List Call := [.next .quiet, .fill .quiet (.replicate 6 none)]
    let calls' : List Call := [.next .quiet, .fill .quiet (.replicate 7 none)]
    twoGroups.program.AgreesButGroups tangledGroups.program ∧
      ((start twoGroups 0).reports twoGroups calls).map Report.attempts =
        [[⟨some 0, .ok (some #[some 0, some 1, some 0, some 1, none, none])⟩],
          [⟨some 1, .ok (some #[some 1, some 2, none, none, some 1, some 2])⟩]] ∧
      ((start tangledGroups 0).reports tangledGroups calls').map
          (fun r => r.attempts.map Attempt.bounds) =
        [[.ok (some (some 0, some 1))], [.ok (some (some 1, some 2))]] := by
  intro calls calls'
  have hprograms : twoGroups.program.AgreesButGroups tangledGroups.program := by decide
  have hcalls : List.Forall₂ (Pairing.bounds.Calls twoGroups tangledGroups) calls calls' :=
    .cons (.next rfl) (.cons (.fill rfl (by simp [twoGroups, tangledGroups])) .nil)
  have hfound : ((start twoGroups 0).reports twoGroups calls).map Report.attempts =
      [[⟨some 0, .ok (some #[some 0, some 1, some 0, some 1, none, none])⟩],
        [⟨some 1, .ok (some #[some 1, some 2, none, none, some 1, some 2])⟩]] := by cbv
  have hbounds : (((start twoGroups 0).reports twoGroups calls).map Report.attempts).map
      (List.map Attempt.bounds) = ((start tangledGroups 0).reports tangledGroups calls').map
        (fun r => r.attempts.map Attempt.bounds) := by
    rw [← List.forall₂_eq_eq_eq, List.forall₂_map_left_iff, List.forall₂_map_left_iff,
      List.forall₂_map_right_iff]
    exact (reports_bounds twoGroups tangledGroups hprograms rfl rfl 0 calls calls' hcalls).imp
      fun _ _ h => h.2.1.symm
  exact ⟨hprograms, hfound, by rw [← hbounds, hfound]; rfl⟩

end Search

end Searches

end RegexMachine
