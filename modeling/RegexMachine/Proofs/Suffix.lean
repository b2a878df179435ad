import Mathlib
import RegexMachine.Proofs.Interruption
import RegexMachine.Proofs.Lockstep

/-!
# Proofs/Suffix — a search further on is a search in the rest of the input

Nothing of the machine depends on where in its input it is, but the marks, the positions in
registers and the end of the input, and these all move along with the start. So a search that begins
at a position is one that begins at the start of the rest of the input, with all positions smaller
by the same number. Only assertions that look back can tell the two apart (`startOfInput`,
`startOfLine` and both word boundaries); lookbehinds cannot, since their threads begin with the
scan.
-/

namespace RegexMachine

/-! ## The rest of the input -/

/-- No assertion of the program looks at what is before the position. -/
def Program.OnlyLooksAhead (p : Program) : Prop :=
  ∀ kind, .assert kind ∈ p.code → kind = .endOfInput ∨ kind = .endOfLine

/-- The query for matches in the rest of the input, from a position on. -/
def Query.suffix {α : Type} (q : Query α) (k : Nat) : Query α :=
  { q with input := q.input.extract k q.input.size }

/-- The positions in the registers, all of them further on. -/
def Registers.shift (k : Nat) (registers : Registers) : Registers :=
  registers.map (Option.map (· + k))

namespace Search

/-- What is found in the rest of an input, as it is found in the whole one. -/
def Outcome.shift (k : Nat) : Outcome → Outcome
  | .error error => .error (error.shift k)
  | .ok found => .ok (found.map (Registers.shift k))

def Attempt.shift (k : Nat) (a : Attempt) : Attempt where
  scanStart? := a.scanStart?.map (· + k)
  outcome := a.outcome.shift k

/-- The host of a call. -/
def Call.host : Call → Host
  | next host | fill host _ => host

end Search

/-- A search in the rest of an input beside one in the whole input, both without interrupts. -/
def Pairing.suffix (k : Nat) : Pairing where
  offset := k
  registers := fun registers registers' => registers' = registers.shift k
  hosts := fun host host' => host.IsQuiet ∧ host'.IsQuiet

variable {α : Type} [CodeUnit α] {q : Query α} {k : Nat}

namespace Registers

variable {registers : Registers} {r : Nat}

theorem position?_shift :
    (registers.shift k).position? r = (registers.position? r).map (· + k) := by
  rw [position?, position?, shift, Array.getElem?_map]
  rcases registers[r]? with _ | _ | position <;> rfl

theorem shift_setIfInBounds {i : Instruction} {position : Nat} :
    Registers.shift k (registers.setIfInBounds r (i.stored position)) =
      (registers.shift k).setIfInBounds r (i.stored (position + k)) := by
  rw [shift, shift, Array.map_setIfInBounds]
  cases i <;> rfl

theorem shift_replicate {n : Nat} :
    Registers.shift k (Array.replicate n none) = Array.replicate n none := by
  simp [shift]

end Registers

namespace Query

omit [CodeUnit α] in
theorem size_suffix (hk : k ≤ q.input.size) : q.input.size = (q.suffix k).input.size + k := by
  simp [suffix, Nat.sub_add_cancel hk]

omit [CodeUnit α] in
theorem getElem?_suffix (position : Nat) :
    q.input[position + k]? = (q.suffix k).input[position]? := by
  rw [suffix, Array.getElem?_extract, Nat.add_comm k]
  split
  · rfl
  · exact Array.getElem?_eq_none (by omega)

/-- An assertion that does not look back says the same of the rest of the input. -/
theorem holds_suffix {kind : Assertion} (h : kind = .endOfInput ∨ kind = .endOfLine)
    (hk : k ≤ q.input.size) (position : Nat) :
    kind.holds q.input (position + k) = kind.holds (q.suffix k).input position := by
  have hend : (position + k == q.input.size) = (position == (q.suffix k).input.size) := by
    rw [size_suffix hk, Bool.eq_iff_iff]
    simp
  rcases h with rfl | rfl
  · exact hend
  · rw [Assertion.holds, Assertion.holds, hend, getElem?_suffix]

/-- **The rest of an input is as good as the whole of it**, for what does not look back. -/
theorem queries_suffix (hk : k ≤ q.input.size) (hahead : q.program.OnlyLooksAhead) :
    (Pairing.suffix k).Queries (q.suffix k) q where
  size_program := rfl
  instruction := fun pc => by
    change Option.Rel _ (q.instruction? pc) (q.instruction? pc)
    rcases hi : q.instruction? pc with _ | i
    · exact .none
    · refine .some (Pairing.instructions_self ?_ ?_)
      · rintro kind rfl
        exact holds_suffix (hahead kind (Array.mem_of_getElem? hi)) hk
      · rintro r - position registers _ rfl
        exact Registers.shift_setIfInBounds.symm
  size_input := size_suffix hk
  unit_eq := fun position => congrArg (Option.map CodeUnit.word) (getElem?_suffix position)
  blank := Registers.shift_replicate.symm
  bounds := by
    rintro registers _ rfl r -
    exact Registers.position?_shift
  poll := by
    rintro host host' ⟨hquiet, hquiet'⟩ position
    obtain ⟨later, hpoll, hlater⟩ := hquiet.pollIf ((q.suffix k).pollsAt position)
    obtain ⟨later', hpoll', hlater'⟩ := hquiet'.pollIf (q.pollsAt (position + k))
    rw [Pairing.suffix, hpoll, hpoll']
    exact ⟨rfl, hlater, hlater'⟩

end Query

/-! ## Two searches -/

namespace Search

theorem Outcome.eq_shift {outcome outcome' : Outcome}
    (h : (Pairing.suffix k).Outcomes outcome outcome') : outcome' = outcome.shift k := by
  cases h with
  | error => rfl
  | ok h =>
    cases h with
    | some h => exact congrArg (fun registers => Except.ok (some registers)) h
    | none => rfl

theorem Attempt.eq_shift {a a' : Attempt} (h : (Pairing.suffix k).Attempts a a') :
    a' = a.shift k := by
  obtain ⟨scanStart?, outcome⟩ := a
  obtain ⟨scanStart?', outcome'⟩ := a'
  obtain ⟨rfl, houtcomes⟩ := h
  obtain rfl := Outcome.eq_shift houtcomes
  rfl

/-- **To begin further on is to search the rest of the input.** Whatever series of calls is made,
without interrupts, both searches are asked for matches equally often, and each time a scan of the
one begins further on than that of the other, and what it finds lies further on, with all its
registers, also the bounds in an error. After each call the one search is further on than the other,
and their counters are equal. -/
theorem reports_suffix (q : Query α) (k : Nat) (hk : k ≤ q.input.size)
    (hahead : q.program.OnlyLooksAhead) (calls : List Call)
    (hquiet : ∀ call ∈ calls, call.host.IsQuiet) :
    List.Forall₂
      (fun part whole =>
        whole.attempts = part.attempts.map (Attempt.shift k) ∧
          whole.position = part.position + k ∧ whole.stats = part.stats)
      ((start (q.suffix k) 0).reports (q.suffix k) calls) ((start q k).reports q calls) := by
  have hqueries := Query.queries_suffix hk hahead
  have hcalls : List.Forall₂ ((Pairing.suffix k).Calls (q.suffix k) q) calls calls :=
    List.forall₂_same.mpr fun call hcall => by
      have hhost := hquiet call hcall
      cases call with
      | next host => exact .next ⟨hhost, hhost⟩
      | fill host output => exact .fill ⟨hhost, hhost⟩ rfl
  have hstart := hqueries.start 0
  rw [show (Pairing.suffix k).offset = k from rfl, Nat.zero_add] at hstart
  refine (hstart.reports hqueries hcalls).imp fun part whole h => ?_
  refine ⟨?_, h.position_eq, h.stats_eq⟩
  have hattempts := h.attempts.imp fun _ _ h => (Attempt.eq_shift h).symm
  rwa [← List.forall₂_map_left_iff, List.forall₂_eq_eq_eq, eq_comm] at hattempts

/-- The expression `a$|\n`, but the second branch does not set the end of the match, on the input
`xa\n`. -/
def endOrBreak : Query UInt8 where
  program :=
    ⟨#[.setRegister 0, .fork 6, .consume 0x61 0x61, .assert .endOfLine, .setRegister 1, .jump 7,
      .consume 0x0a 0x0a, .accept], by decide⟩
  registerCount := 2
  enough := by decide
  input := #[0x78, 0x61, 0x0a]
  pollInterval := defaultPollInterval

/-- From the `a` on there is a match and then an error. What is found in `a\n` is enough to know
it. -/
theorem reports_suffix_behind_x :
    let calls : List Call := [.next .quiet, .next .quiet]
    1 ≤ endOrBreak.input.size ∧ endOrBreak.program.OnlyLooksAhead ∧
      ((start (endOrBreak.suffix 1) 0).reports (endOrBreak.suffix 1) calls).map Report.attempts =
        [[⟨some 0, .ok (some #[some 0, some 1])⟩],
          [⟨some 1, .error (.malformedMatch (some 1) none)⟩]] ∧
      ((start endOrBreak 1).reports endOrBreak calls).map Report.attempts =
        [[⟨some 1, .ok (some #[some 1, some 2])⟩],
          [⟨some 2, .error (.malformedMatch (some 2) none)⟩]] := by
  intro calls
  have hsize : 1 ≤ endOrBreak.input.size := by decide
  have hahead : endOrBreak.program.OnlyLooksAhead := fun kind hkind =>
    .inr (by simpa [endOrBreak] using hkind)
  have hquiet : ∀ call ∈ calls, call.host.IsQuiet := by
    simp [calls, Call.host, Host.IsQuiet, Host.quiet]
  have hpart : ((start (endOrBreak.suffix 1) 0).reports (endOrBreak.suffix 1) calls).map
      Report.attempts = [[⟨some 0, .ok (some #[some 0, some 1])⟩],
        [⟨some 1, .error (.malformedMatch (some 1) none)⟩]] := by cbv
  have hwhole : (((start (endOrBreak.suffix 1) 0).reports (endOrBreak.suffix 1) calls).map
      Report.attempts).map (List.map (Attempt.shift 1)) =
        ((start endOrBreak 1).reports endOrBreak calls).map Report.attempts := by
    rw [← List.forall₂_eq_eq_eq, List.forall₂_map_left_iff, List.forall₂_map_left_iff,
      List.forall₂_map_right_iff]
    exact (reports_suffix endOrBreak 1 hsize hahead calls hquiet).imp fun _ _ h => h.1.symm
  refine ⟨hsize, hahead, hpart, ?_⟩
  rw [← hwhole, hpart]
  cbv

end Search

end RegexMachine
