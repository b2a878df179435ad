import Mathlib
import RegexMachine.Proofs.EntryPoints
import RegexMachine.Proofs.Branches

/-!
# Proofs/Groups — every group of a match lies in the scan that found it

Register arrays are recycled, and those in the pool hold positions of dead threads and of earlier
scans. None of these shows in a match. Arrays are blank when a scan begins, an instruction changes
only the register it writes, and a fork copies all registers. So what is true of blank arrays and
kept by all writes of the program is true of all arrays in use (`Scanning.inUse`), whatever is in
the pool: a register that the program does not write stays undefined.

With the bounds on the positions that are written (`Machine.Sound.within_of_scan`), all groups of a
match are stretches of the input from the beginning of the scan on, or undefined, and group 0 is
defined (`Regex.groups_within_scan`).
-/

namespace RegexMachine

/-! ## Groups between two bounds -/

/-- Whether the program has an instruction that writes a register. -/
def Program.Writes (p : Program) (r : Nat) : Prop := ∃ i ∈ p.code, i.register? = some r

instance (p : Program) (r : Nat) : Decidable (p.Writes r) :=
  inferInstanceAs (Decidable (∃ i ∈ p.code, i.register? = some r))

/-- **All groups are stretches between two bounds**, or undefined, and group 0 is defined. -/
structure Captures.Within (low high : Nat) (c : Captures) : Prop where
  spans : ∀ span, some span ∈ c.spans → low ≤ span.start ∧ span.start ≤ span.stop ∧ span.stop ≤ high
  isSome_group0 : c.group0?.isSome = true

namespace Captures

variable {low high : Nat} {span : Span}

theorem within_of_ofRegisters? {start stop : Option Nat}
    (hstart : ∀ position ∈ start, low ≤ position) (hstop : ∀ position ∈ stop, position ≤ high)
    (h : Span.ofRegisters? start stop = some span) :
    low ≤ span.start ∧ span.start ≤ span.stop ∧ span.stop ≤ high := by
  rcases start with _ | start
  · simp [Span.ofRegisters?] at h
  · rcases stop with _ | stop
    · simp [Span.ofRegisters?] at h
    · obtain ⟨hle, heq⟩ := Option.ite_none_right_eq_some.mp h
      obtain rfl := Option.some.inj heq
      exact ⟨hstart _ rfl, hle, hstop _ rfl⟩

theorem within_of_mem_pairUp {registers : List (Option Nat)}
    (h : ∀ position, some position ∈ registers → low ≤ position ∧ position ≤ high)
    (hspan : some span ∈ pairUp registers) :
    low ≤ span.start ∧ span.start ≤ span.stop ∧ span.stop ≤ high := by
  fun_induction pairUp registers with
  | case1 start stop rest ih =>
    rcases List.mem_cons.mp hspan with hfirst | hrest
    · refine within_of_ofRegisters? (fun position hstart => ?_) (fun position hstop => ?_)
        hfirst.symm
      · exact (h position (by simp [Option.mem_def.mp hstart])).1
      · exact (h position (by simp [Option.mem_def.mp hstop])).2
    · exact ih (fun position hmem => h position (by simp [hmem])) hrest
  | case2 => simp at hspan

/-- **Registers between two bounds make groups between them.** -/
theorem within_ofRegisters {registers : Registers} (h : registers.Within low high)
    (hsize : 2 ≤ registers.size) (hspan : registers.span?.isSome = true) :
    (ofRegisters registers).Within low high where
  spans := fun _ hmem =>
    within_of_mem_pairUp (fun position hposition => h position (by simpa using hposition)) hmem
  isSome_group0 := by rw [group0?_ofRegisters hsize, hspan]

end Captures

/-! ## Arrays in use -/

/-- What is true of all register arrays that belong to a thread or to the best match. -/
structure Machine.InUse (P : Registers → Prop) (m : Machine) : Prop where
  pending : ∀ t ∈ m.pending, P t.registers
  blocked : ∀ t ∈ m.blocked, P t.registers
  best : ∀ registers ∈ m.best, P registers

/-- What blank arrays have, and arrays keep whatever instruction of the program is run. -/
structure Query.Inherits {α : Type} (q : Query α) (P : Registers → Prop) : Prop where
  blank : P (Array.replicate q.registerCount none)
  carry : ∀ registers x, P registers → P (q.carry registers x)

variable {α : Type} {q : Query α}

/-- **A register that the program does not write stays undefined.** -/
theorem Query.inherits_undefined {r : Nat} (h : ¬ q.program.Writes r) :
    q.Inherits fun registers => registers.position? r = none where
  blank := by
    rw [Registers.position?, Array.getElem?_replicate]
    split <;> rfl
  carry := fun registers x hnone => by
    have hne : ∀ {r' : Nat} {i : Instruction}, q.instruction? x.pc = some i →
        i.register? = some r' → r' ≠ r := by
      rintro r' i hi hwrites rfl
      exact h ⟨i, Array.mem_of_getElem? hi, hwrites⟩
    rw [Query.carry, Registers.position?]
    split
    · next r' hi => rwa [Array.getElem?_setIfInBounds_ne (hne hi rfl)]
    · next r' hi => rwa [Array.getElem?_setIfInBounds_ne (hne hi rfl)]
    · exact hnone

namespace Machine

variable [CodeUnit α] {P : Registers → Prop} {V : Verdicts} {m₀ m : Machine} {t u : Thread}

/-- What is true of the array of a thread is true of those of its successors. -/
theorem inherits_successors (hP : q.Inherits P) (ht : P t.registers)
    (hu : u ∈ m.successors q V t) : P u.registers := by
  obtain ⟨x, -, rfl⟩ := List.mem_map.mp hu
  exact hP.carry _ _ ht

theorem InUse.step (h : m.InUse P) (hP : q.Inherits P) (hsound : m.Sound q) :
    (m.step q).InUse P := by
  rcases hrunning : m.running with _ | t
  · obtain ⟨hpending, hblocked, hbest⟩ := step_gives_turn (q := q) hrunning
    exact ⟨hpending ▸ h.pending, hblocked ▸ h.blocked, hbest ▸ h.best⟩
  · have ht : P t.registers := h.pending t (by simp [pending_of_some hrunning])
    have hactive : ∀ u ∈ m.active, P u.registers := fun u hu =>
      h.pending u (by simp [pending_of_some hrunning, hu])
    cases hsound.turn hsound.agrees_known hrunning with
    | refused _ hpending hblocked hbest =>
      exact ⟨hpending ▸ hactive, hblocked ▸ h.blocked, hbest ▸ h.best⟩
    | waits _ _ hpending hblocked hbest =>
      exact ⟨hpending ▸ hactive, hblocked ▸ List.forall_mem_cons.mpr ⟨ht, h.blocked⟩,
        hbest ▸ h.best⟩
    | accepts _ _ hpending hblocked hbest =>
      exact ⟨hpending ▸ by simp, hblocked ▸ h.blocked, hbest ▸ by simpa using ht⟩
    | goes _ _ _ _ hpending hblocked hbest =>
      refine ⟨hpending ▸ fun u hu => ?_, hblocked ▸ h.blocked, hbest ▸ h.best⟩
      rcases List.mem_append.mp hu with hu | hu
      · exact inherits_successors hP ht hu
      · exact hactive u hu

theorem InUse.read (h : m.InUse P) (hP : q.Inherits P) (hsound : m.Sound q)
    (hidle : m.isIdle = true) (hlt : m.position < q.input.size) : (m.read q hlt).InUse P := by
  refine ⟨fun u hu => ?_, by simp [Machine.read], by simpa [Machine.read, advance] using h.best⟩
  rw [hsound.pending_read (V := m.known) hidle hlt] at hu
  obtain ⟨t, ht, hu⟩ := List.mem_flatMap.mp hu
  exact inherits_successors hP (h.blocked t (List.mem_reverse.mp ht)) hu

/-- **What blank arrays have, and keep, all arrays in use have all through a scan.** -/
theorem Scanning.inUse (h : Scanning q m₀ m) (h₀ : m₀.Sound q) (hP : q.Inherits P) :
    m.InUse P := by
  induction h with
  | begin =>
    obtain ⟨pool, -, heq⟩ := h₀.beginScan_eq
    rw [heq]
    refine ⟨fun t ht => ?_, by simp, by simp⟩
    obtain ⟨pc, -, rfl⟩ : ∃ pc ∈ seeds q, q.seed pc = t := by
      simpa [pending_of_none] using ht
    exact hP.blank
  | step h ih => exact ih.step hP (h.sound h₀)
  | read h hidle _ hlt ih => exact ih.read hP (h.sound h₀) hidle hlt

/-- The best match of a scan has what all arrays in use have. -/
theorem Sound.of_scan (h : m.Sound q) (hP : q.Inherits P) {host : Host} {registers : Registers}
    (hnone : (m.scan q host).1 = none) (hbest : (m.scan q host).2.1.best = some registers) :
    P registers := by
  have hend := Scanning.scan q m host
  split at hend
  · next last host' heq =>
    rw [heq] at hbest
    exact (hend.1.inUse h hP).best registers hbest
  · next error last host' heq =>
    rw [heq] at hnone
    simp at hnone

end Machine

/-! ## What is found -/

namespace Search

variable [CodeUnit α] {s s' : Search} {registers : Registers}

/-- What has found a match is a scan. -/
theorem scan_of_next {host : Host} (hfound : (s.next q host).1 = .ok (some registers)) :
    s.finished = false ∧ (s.machine.scan q host).1 = none ∧
      (s.machine.scan q host).2.1.best = some registers := by
  cases hfinished : s.finished with
  | true => simp [next_of_finished hfinished] at hfound
  | false =>
    rcases hscan : s.machine.scan q host with ⟨_ | error, m, later⟩
    · rw [next_of_scan hfinished hscan] at hfound
      exact ⟨rfl, rfl, best_of_conclude hfound⟩
    · simp [next_of_error hfinished hscan] at hfound

/-- Every attempt of a history is made by a search that is sound. -/
theorem Asked.exists_attempt {history : List Attempt} (h : Asked q s history s')
    (hs : s.machine.Sound q) {a : Attempt} (ha : a ∈ history) :
    ∃ (s₁ : Search) (host : Host), s₁.machine.Sound q ∧ a = s₁.attempt q host := by
  induction h with
  | nil => simp at ha
  | @cons s s' rest host h ih =>
    rcases List.mem_cons.mp ha with rfl | ha
    · exact ⟨s, host, hs, rfl⟩
    · exact ih (sound_next hs host) ha

theorem found?_attempt {host : Host} :
    (s.attempt q host).found? = some registers ↔ (s.next q host).1 = .ok (some registers) := by
  rw [Attempt.found?, attempt]
  rcases (s.next q host).1 with error | found <;> simp

/-- The groups of a match that is found. -/
theorem within_of_next (h : s.machine.Sound q) {host : Host}
    (hfound : (s.next q host).1 = .ok (some registers)) :
    registers.Within s.position q.input.size ∧
      (Captures.ofRegisters registers).Within s.position q.input.size := by
  obtain ⟨-, hnone, hbest⟩ := scan_of_next hfound
  obtain ⟨hsize, span, hspan⟩ := exists_span_of_next h hfound
  have hwithin : registers.Within s.position q.input.size := h.within_of_scan hnone hbest
  have htwo := q.two_le_registerCount
  exact ⟨hwithin, Captures.within_ofRegisters hwithin (by omega) (by simp [hspan])⟩

end Search

namespace Regex

open Search

variable {re : Regex} {input : Input} {captures : Captures}

/-- A cursor that is asked for groups again and again. -/
theorem within_of_capturesAfter (times : Nat)
    (h : (re.findAll input).capturesAfter times = some (.ok captures)) :
    let c := (fun c => c.nextCaptures?.2)^[times] (re.findAll input)
    c.search.finished = false ∧ captures.groupCount = re.captureCount ∧
      captures.Within c.search.position input.subject.size := by
  obtain ⟨α, _, q, hruns, hsearch⟩ := re.exists_runs input
  have hsound : (re.findAll input).search.machine.Sound q := by
    rw [hsearch]
    exact sound_start q input.start
  have hc : (fun c => c.nextCaptures?.2)^[times] (re.findAll input) =
      { re.findAll input with search := (re.findAll input).search.askedTimes q times } :=
    hruns.iterate_next times
  rcases hruns.items hsound times with
    ⟨registers, m, houtcome, -, hcaptures, -, hcount⟩ | ⟨error, -, -, hcaptures⟩ | ⟨-, -, hcaptures⟩
  · obtain rfl : captures = .ofRegisters registers := by simpa [hcaptures, eq_comm] using h
    rw [hruns.outcomeAfter_eq] at houtcome
    have hwithin := (within_of_next (sound_askedTimes hsound times) houtcome).2
    rw [hruns.size_eq] at hwithin
    rw [hc]
    exact ⟨(scan_of_next houtcome).1, hcount, hwithin⟩
  · simp [hcaptures] at h
  · simp [hcaptures] at h

theorem within_of_findCaptures (h : re.findCaptures input = .ok (some captures)) :
    captures.groupCount = re.captureCount ∧ captures.Within input.start input.subject.size := by
  obtain ⟨hgoing, hcount, hwithin⟩ := within_of_capturesAfter 0 (congrArg Cursor.item? h)
  obtain ⟨α, _, q, hruns, hsearch⟩ := re.exists_runs input
  have hstart : (re.findAll input).search.position = input.start := by
    rw [Function.iterate_zero_apply, hsearch] at hgoing
    rw [hsearch]
    exact Nat.min_eq_left (by simpa [start] using hgoing)
  rw [Function.iterate_zero_apply, hstart] at hwithin
  exact ⟨hcount, hwithin⟩

/-- **Every group of a match lies in the scan that found it.**

* Whatever the program, the input, the start and the hosts, a match that is found comes from a scan.
  All positions in its registers lie between the one where that scan began and the end of the input,
  and so do its groups; group 0 is defined. A register that the program does not write is undefined.
* So are the groups of every match that the entry points of a regex give. -/
theorem groups_within_scan :
    (∀ {α : Type} [CodeUnit α] (q : Query α) (position : Nat) (calls : List Call),
      ∀ a ∈ (start q position).history q calls, ∀ registers, a.found? = some registers →
        ∃ low, a.scanStart? = some low ∧ registers.size = q.registerCount ∧
          registers.Within low q.input.size ∧
          (∀ r, ¬ q.program.Writes r → registers.position? r = none) ∧
          (Captures.ofRegisters registers).Within low q.input.size) ∧
      ∀ (re : Regex) (input : Input) (captures : Captures),
        (re.findCaptures input = .ok (some captures) →
          captures.groupCount = re.captureCount ∧
            captures.Within input.start input.subject.size) ∧
        ∀ times : Nat,
          let c := (fun c => c.nextCaptures?.2)^[times] (re.findAll input)
          (re.findAll input).capturesAfter times = some (.ok captures) →
            c.search.finished = false ∧ captures.groupCount = re.captureCount ∧
              captures.Within c.search.position input.subject.size := by
  refine ⟨fun q position calls a ha registers hfound => ?_, fun re input captures => ⟨?_, ?_⟩⟩
  · obtain ⟨s, host, hsound, rfl⟩ :=
      (asked_history (start q position) calls).exists_attempt (sound_start q position) ha
    rw [found?_attempt] at hfound
    obtain ⟨hgoing, hnone, hbest⟩ := scan_of_next hfound
    obtain ⟨hwithin, hgroups⟩ := within_of_next hsound hfound
    refine ⟨s.position, by simp [attempt, hgoing], size_of_next hsound hfound, hwithin,
      fun r hr => ?_, hgroups⟩
    exact hsound.of_scan (Query.inherits_undefined hr) hnone hbest
  · exact within_of_findCaptures
  · exact within_of_capturesAfter

/-- The expression `(a)?b`, with two registers more than it needs. -/
def optionalGroup : Regex where
  program :=
    ⟨#[.setRegister 0, .fork 5, .setRegister 2, .consume 0x61 0x61, .setRegister 3,
      .consume 0x62 0x62, .setRegister 1, .accept], by decide⟩
  registerCount := 6
  enough := by decide
  pollInterval := defaultPollInterval

/-- In `abb` the group takes part in the first match, whose array the second scan reuses. None of
its positions is left in the second match. -/
theorem groups_within_second_scan :
    let units : Array UInt8 := #[0x61, 0x62, 0x62]
    let q := optionalGroup.query units
    let calls : List Call := [.next .quiet, .next .quiet]
    let registers : Registers := #[some 2, some 3, none, none, none, none]
    let second : Attempt := ⟨some 2, .ok (some registers)⟩
    let captures : Captures := ⟨[some ⟨2, 3⟩, none, none]⟩
    ((start q 0).next q .quiet).2.1.machine.best =
        some #[some 0, some 2, some 0, some 1, none, none] ∧
      second ∈ (start q 0).history q calls ∧ registers.Within 2 3 ∧
      ¬ q.program.Writes 5 ∧ registers.position? 5 = none ∧
      (optionalGroup.findAll ⟨.oneByte units, 0⟩).capturesAfter 1 = some (.ok captures) ∧
      captures.Within 2 3 := by
  intro units q calls registers second captures
  have hfirst : ((start q 0).next q .quiet).2.1.machine.best =
      some #[some 0, some 2, some 0, some 1, none, none] := by cbv
  have hsecond : second ∈ (start q 0).history q calls := by
    have hat : ((start q 0).history q calls)[1]? = some second := by cbv
    exact List.mem_of_getElem? hat
  have hwrites : ¬ q.program.Writes 5 := by decide
  have hcaptures : (optionalGroup.findAll ⟨.oneByte units, 0⟩).capturesAfter 1 =
      some (.ok captures) := by cbv
  obtain ⟨low, hlow, -, hwithin, hundefined, -⟩ :=
    groups_within_scan.1 q 0 calls second hsecond registers rfl
  obtain rfl : 2 = low := Option.some.inj hlow
  have hgroups : captures.Within 2 3 := by
    obtain ⟨-, -, hgroups⟩ :=
      (groups_within_scan.2 optionalGroup ⟨.oneByte units, 0⟩ captures).2 1 hcaptures
    have hposition : ((fun c => c.nextCaptures?.2)^[1]
      (optionalGroup.findAll ⟨.oneByte units, 0⟩)).search.position = 2 := by cbv
    rwa [hposition] at hgroups
  exact ⟨hfirst, hsecond, hwithin, hwrites, hundefined 5 hwrites, hcaptures, hgroups⟩

end Regex

end RegexMachine
