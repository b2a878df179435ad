import Mathlib
import RegexMachine.Proofs.Lockstep

/-!
# Proofs/Padding — more registers than needed only lengthen the answers

The program writes none of the registers that are there beyond those it needs, and a search looks at
registers 0 and 1 only. So with more registers a search goes the same way, and every array it
handles is the shorter one with undefined registers behind it (`Pairing.padded`, an instance of
`RegexMachine.Pairing`). Read two by two, the registers behind give groups that took no part, also
when the first of them is paired with the last one of the shorter array.
-/

namespace RegexMachine

/-! ## Longer arrays -/

/-- An array with undefined registers behind it. -/
def Registers.pad (extra : Nat) (registers : Registers) : Registers :=
  registers ++ Array.replicate extra none

namespace Search

/-- What is found, with longer arrays. An error, or the end, is the same. -/
def Attempt.pad (extra : Nat) (a : Attempt) : Attempt :=
  { a with outcome := a.outcome.map (·.map (Registers.pad extra)) }

end Search

/-- Two searches, with `n` registers and with some more, under the same hosts. -/
def Pairing.padded (n extra : Nat) : Pairing where
  offset := 0
  registers := fun registers registers' => registers.size = n ∧ registers' = registers.pad extra
  hosts := (· = ·)

namespace Registers

variable {n extra r : Nat} {registers : Registers}

theorem pad_replicate :
    Registers.pad extra (Array.replicate n none) = Array.replicate (n + extra) none := by
  rw [pad, Array.replicate_append_replicate]

/-- **The registers of the shorter array are those of the longer one.** -/
theorem position?_pad (h : r < registers.size) :
    (registers.pad extra).position? r = registers.position? r := by
  rw [position?, position?, pad, Array.getElem?_append_left h]

/-- A register of the shorter array is written in the longer one. -/
theorem pad_setIfInBounds (h : r < registers.size) (value : Option Nat) :
    Registers.pad extra (registers.setIfInBounds r value) =
      (registers.pad extra).setIfInBounds r value := by
  rw [pad, pad, Array.setIfInBounds_append_left h]

end Registers

namespace Captures

/-- A group whose end is undefined took no part. -/
theorem ofRegisters?_none (start : Option Nat) : Span.ofRegisters? start none = none := by
  cases start <;> rfl

theorem pairUp_replicate :
    ∀ n, pairUp (List.replicate n none) = List.replicate (n / 2) none
  | 0 => rfl
  | 1 => rfl
  | n + 2 => by
    rw [List.replicate_succ, List.replicate_succ, pairUp, pairUp_replicate n,
      Nat.add_div_right n Nat.two_pos, List.replicate_succ]
    rfl

/-- **Undefined registers behind an array give groups that took no part**, behind the groups of the
array. An odd last register forms such a group with the first register behind it. -/
theorem pairUp_append_replicate (extra : Nat) : ∀ registers : List (Option Nat),
    pairUp (registers ++ List.replicate extra none) =
      pairUp registers ++
        List.replicate ((registers.length + extra) / 2 - registers.length / 2) none
  | [] => by simp [pairUp, pairUp_replicate]
  | [last] => by
    cases extra with
    | zero => simp [pairUp]
    | succ extra =>
      have hcount : (1 + (extra + 1)) / 2 - 1 / 2 = extra / 2 + 1 := by omega
      rw [List.replicate_succ, List.cons_append, List.nil_append, pairUp, pairUp_replicate,
        ofRegisters?_none, List.length_singleton, hcount, List.replicate_succ]
      rfl
  | start :: stop :: rest => by
    have hcount : (rest.length + 1 + 1 + extra) / 2 - (rest.length + 1 + 1) / 2 =
        (rest.length + extra) / 2 - rest.length / 2 := by omega
    rw [List.cons_append, List.cons_append, pairUp, pairUp_append_replicate extra rest,
      List.length_cons, List.length_cons, hcount, pairUp, List.cons_append]

theorem spans_ofRegisters_pad (registers : Registers) (extra : Nat) :
    (ofRegisters (registers.pad extra)).spans =
      (ofRegisters registers).spans ++
        List.replicate ((registers.size + extra) / 2 - registers.size / 2) none := by
  rw [ofRegisters, Registers.pad, Array.toList_append, Array.toList_replicate,
    pairUp_append_replicate, Array.length_toList]
  rfl

end Captures

/-! ## Two searches -/

variable {α : Type} [CodeUnit α] {q q' : Query α} {extra : Nat}

/-- **A query with more registers goes the same way.** -/
theorem Query.queries_padded (hprogram : q'.program = q.program) (hinput : q'.input = q.input)
    (hinterval : q'.pollInterval = q.pollInterval)
    (hcount : q'.registerCount = q.registerCount + extra) :
    (Pairing.padded q.registerCount extra).Queries q q' where
  size_program := congrArg Program.size hprogram
  instruction := fun pc => by
    have hsame : q'.instruction? pc = q.instruction? pc := congrArg (·.code[pc]?) hprogram
    rw [hsame, hinput]
    rcases hi : q.instruction? pc with _ | i
    · exact .none
    · refine .some (Pairing.instructions_self (fun kind _ position => rfl) ?_)
      rintro r hr position registers _ ⟨hsize, rfl⟩
      have hlt : r < registers.size := hsize ▸ q.program.register_lt q.enough hi hr
      exact ⟨by simpa using hsize, (Registers.pad_setIfInBounds hlt _).symm⟩
  size_input := congrArg Array.size hinput
  unit_eq := fun position => by rw [hinput]; rfl
  blank := ⟨by simp, by rw [hcount, Registers.pad_replicate]⟩
  bounds := by
    rintro registers _ ⟨hsize, rfl⟩ r hr
    have htwo := q.two_le_registerCount
    rw [Registers.position?_pad (by omega)]
    exact Option.map_id'.symm
  poll := by
    rintro host _ rfl position
    exact poll_eq hinterval host position

namespace Search

/-- **What is found with more registers is what is found, with longer arrays.** -/
theorem Attempt.eq_pad {n : Nat} {a a' : Attempt} (h : (Pairing.padded n extra).Attempts a a') :
    a' = a.pad extra := by
  obtain ⟨scanStart?, outcome⟩ := a
  obtain ⟨scanStart?', outcome'⟩ := a'
  obtain ⟨hstart, houtcomes⟩ := h
  obtain rfl : scanStart?' = scanStart? := hstart.trans Option.map_id'
  obtain rfl : outcome' = outcome.map (·.map (Registers.pad extra)) := by
    rcases houtcomes with error | ⟨⟨-, rfl⟩ | _⟩
    · exact congrArg Except.error error.shift_zero
    · rfl
    · rfl
  rfl

/-- **More registers only lengthen the answers.** Let two numbers of registers both be enough for a
program. Over the same input and under the same hosts, two searches that begin at the same position
are asked for matches equally often. With the larger number, every array of registers that is found
is the one found with the smaller number, with undefined registers behind it, and errors and ends
are the same. After each call the two searches are at the same position, with the same counters, and
have polled the host equally often.

The groups read off the longer array are those read off the shorter one, and behind them only groups
that took no part. -/
theorem reports_padded (q q' : Query α) (hprogram : q'.program = q.program)
    (hinput : q'.input = q.input) (hinterval : q'.pollInterval = q.pollInterval)
    (hle : q.registerCount ≤ q'.registerCount) (position : Nat) (calls calls' : List Call)
    (hcalls : List.Forall₂
      ((Pairing.padded q.registerCount (q'.registerCount - q.registerCount)).Calls q q')
      calls calls') :
    let extra := q'.registerCount - q.registerCount
    List.Forall₂
        (fun r r' => r'.attempts = r.attempts.map (Attempt.pad extra) ∧
          r'.position = r.position ∧ r'.stats = r.stats ∧ r'.host = r.host)
        ((start q position).reports q calls) ((start q' position).reports q' calls') ∧
      ∀ registers : Registers, registers.size = q.registerCount →
        (registers.pad extra).size = q'.registerCount ∧
          (Captures.ofRegisters (registers.pad extra)).spans =
            (Captures.ofRegisters registers).spans ++
              List.replicate (q'.registerCount / 2 - q.registerCount / 2) none := by
  intro extra
  have hcount : q'.registerCount = q.registerCount + extra := (Nat.add_sub_cancel' hle).symm
  have hqueries := Query.queries_padded hprogram hinput hinterval hcount
  refine ⟨((hqueries.start position).reports hqueries hcalls).imp fun r r' h => ?_,
    fun registers hsize => ?_⟩
  · refine ⟨?_, h.position_eq, h.stats_eq, h.hosts.symm⟩
    have hattempts := h.attempts.imp fun _ _ h => (Attempt.eq_pad h).symm
    rwa [← List.forall₂_map_left_iff, List.forall₂_eq_eq_eq, eq_comm] at hattempts
  · rw [Captures.spans_ofRegisters_pad, hsize, ← hcount]
    exact ⟨by simp [Registers.pad, hsize, hcount], rfl⟩

/-- The expression `a` on `aa`, with a group that is begun and never ended. Of the three registers,
the last one belongs to no group. -/
def halfGroup : Query UInt8 where
  program :=
    ⟨#[.setRegister 0, .setRegister 2, .consume 0x61 0x61, .setRegister 1, .accept], by decide⟩
  registerCount := 3
  enough := by decide
  input := #[0x61, 0x61]
  pollInterval := 1

/-- With six registers, the begun group is paired with an undefined register. -/
theorem reports_padded_half_group :
    let q' : Query UInt8 := { halfGroup with registerCount := 6, enough := by decide }
    let calls : List Call := [.next .quiet, .fill .quiet (.replicate 4 none)]
    let calls' : List Call := [.next .quiet, .fill .quiet (.replicate 7 none)]
    halfGroup.registerCount ≤ q'.registerCount ∧
      ((start halfGroup 0).reports halfGroup calls).map Report.attempts =
        [[⟨some 0, .ok (some #[some 0, some 1, some 0])⟩],
          [⟨some 1, .ok (some #[some 1, some 2, some 1])⟩]] ∧
      ((start q' 0).reports q' calls').map Report.attempts =
        [[⟨some 0, .ok (some #[some 0, some 1, some 0, none, none, none])⟩],
          [⟨some 1, .ok (some #[some 1, some 2, some 1, none, none, none])⟩]] ∧
      (Captures.ofRegisters #[some 0, some 1, some 0, none, none, none]).spans =
        [some ⟨0, 1⟩, none, none] := by
  intro q' calls calls'
  have hle : halfGroup.registerCount ≤ q'.registerCount := by decide
  have hcalls : List.Forall₂ ((Pairing.padded 3 3).Calls halfGroup q') calls calls' :=
    .cons (.next rfl) (.cons (.fill rfl (by simp [halfGroup, q'])) .nil)
  obtain ⟨hreports, hgroups⟩ :=
    reports_padded halfGroup q' rfl rfl rfl hle 0 calls calls' hcalls
  have hfound : ((start halfGroup 0).reports halfGroup calls).map Report.attempts =
      [[⟨some 0, .ok (some #[some 0, some 1, some 0])⟩],
        [⟨some 1, .ok (some #[some 1, some 2, some 1])⟩]] := by cbv
  have hpadded : (((start halfGroup 0).reports halfGroup calls).map Report.attempts).map
      (List.map (Attempt.pad 3)) = ((start q' 0).reports q' calls').map Report.attempts := by
    rw [← List.forall₂_eq_eq_eq, List.forall₂_map_left_iff, List.forall₂_map_left_iff,
      List.forall₂_map_right_iff]
    exact hreports.imp fun _ _ h => h.1.symm
  have hpad : Registers.pad 3 #[some 0, some 1, some 0] =
      #[some 0, some 1, some 0, none, none, none] := by decide
  refine ⟨hle, hfound, by rw [← hpadded, hfound]; cbv, ?_⟩
  rw [← hpad]
  exact (hgroups #[some 0, some 1, some 0] rfl).2.trans (by cbv)

end Search

end RegexMachine
