import Mathlib
import RegexMachine.Proofs.Lookbehind

/-!
# Proofs/Ancestry — which entry a match comes from

Every thread of a scan descends from one of those the scan began with: a fork makes two threads out
of one, and all other instructions leave at most the one. A `Lineage` notes, beside every thread of
a machine, the entry at which its ancestor began, and beside the best match the entry of the thread
that accepted. It is moved along with the machine (`Machine.Traced`) and has no part in what the
machine does.

The entry a match comes from leads to an `accept` by the instructions of the program
(`Search.best_descends`). So a match comes from the main expression if no lookbehind leads to an
`accept` (`Program.OnlySignals`), as in programs that are laid out well. The checks on a program do
not ask for this. The instruction after any `accept` but the last counts as the entry of a
lookbehind, whatever it is, and a thread that begins there may accept. In a program that has one
`accept` for every alternative, the second alternative is such an entry, and outranks the first
(`Search.second_alternative_wins`).
-/

namespace RegexMachine

/-! ## Descent -/

namespace Program

/-- Threads that begin at one counter can come to the other. -/
def Leads (p : Program) : Nat → Nat → Prop := Relation.ReflTransGen p.Follows

/-- **Lookbehinds only give signals**: none leads to an `accept`. -/
def OnlySignals (p : Program) : Prop :=
  ∀ entry ∈ p.lookbehindEntries, ∀ pc, p.Leads entry pc → p.code[pc]? ≠ some .accept

variable {p : Program} {pc pc' : Nat}

theorem WellLaidOut.segmentOf_leads (h : p.WellLaidOut) (hleads : p.Leads pc pc') :
    p.segmentOf pc' = p.segmentOf pc := by
  induction hleads with
  | refl => rfl
  | tail _ hfollows ih => rw [h.segmentOf_follows hfollows, ih]

/-- **In a program that is laid out well, lookbehinds only give signals.** -/
theorem WellLaidOut.onlySignals (h : p.WellLaidOut) : p.OnlySignals := by
  intro entry hentry pc hleads haccept
  refine p.segmentOf_entry hentry ?_
  rw [← h.segmentOf_leads hleads, h.segmentOf_accept haccept]

end Program

section Definitions

variable {α : Type}

/-- An entry of a scan from which a thread can have come to where it stands. -/
structure Query.Begets (q : Query α) (entry : Nat) (t : Thread) : Prop where
  mem_seeds : entry ∈ Machine.seeds q
  leads : q.program.Leads entry t.pc

/-- The instruction that a step runs, if it runs one. -/
def Machine.ran? (q : Query α) (m : Machine) : Option Instruction :=
  match m.running with
  | some t =>
    if m.visits.admits t.pc t.consumed m.position then q.instruction? t.pc else none
  | none => none

/-- **Where the threads of a machine come from**: for each, in the place that it has there, the
entry at which its ancestor began. -/
structure Lineage where
  running : Option Nat := none
  active : List Nat := []
  blocked : List Nat := []
  /-- The entry of the thread that accepted. -/
  best : Option Nat := none
  deriving DecidableEq, Repr

namespace Lineage

/-- The thread of an entry runs an instruction, which leaves the machine `m'`. -/
def execute (l : Lineage) (entry : Nat) (m' : Machine) : Instruction → Lineage
  | .consume _ _ => { l with running := none, blocked := entry :: l.blocked }
  | .fork _ => { l with active := entry :: l.active }
  | .accept => { l with running := none, active := [], best := some entry }
  | _ => { l with running := m'.running.map fun _ => entry }

/-- The threads that have waited for a unit go on with it, or end. -/
def feed (q : Query α) (unit : UInt16) (m : Machine) (l : Lineage) : Lineage :=
  { l with
    active := ((m.blocked.zip l.blocked).filterMap fun x =>
      (q.woken unit x.1).map fun _ => x.2).reverse ++ l.active
    blocked := [] }

/-- The lineage after a step of the machine. -/
def step [CodeUnit α] (q : Query α) (m : Machine) (l : Lineage) : Lineage :=
  match l.running, l.active with
  | some entry, _ =>
    match m.ran? q with
    | some i => l.execute entry (m.step q) i
    | none => { l with running := none }
  | none, entry :: active => { l with running := some entry, active }
  | none, [] => l

/-- **A lineage of a machine**: every thread has an entry from which it can have come, and so has
the best match. -/
structure Of (q : Query α) (m : Machine) (l : Lineage) : Prop where
  running : Option.Rel q.Begets l.running m.running
  active : List.Forall₂ q.Begets l.active m.active
  blocked : List.Forall₂ q.Begets l.blocked m.blocked
  isSome_best : l.best.isSome = m.best.isSome
  accepts : ∀ entry ∈ l.best, ∃ t, q.Begets entry t ∧ q.instruction? t.pc = some .accept

end Lineage

/-- **A scan begun with the machine `m₀` passes through `m`, and these are the entries its threads
come from.** -/
inductive Machine.Traced [CodeUnit α] (q : Query α) (m₀ : Machine) : Machine → Lineage → Prop
  | begin : Traced q m₀ (m₀.beginScan q) { active := (seeds q).reverse }
  | step {m : Machine} {l : Lineage} (h : Traced q m₀ m l) :
    Traced q m₀ (m.step q) (l.step q m)
  | read {m : Machine} {l : Lineage} (h : Traced q m₀ m l) (hidle : m.isIdle = true)
      (hunsettled : m.isSettled = false) (hlt : m.position < q.input.size) :
    Traced q m₀ (m.read q hlt) (l.feed q (CodeUnit.word q.input[m.position]) m)

end Definitions

variable {α : Type} {q : Query α} {m m₀ : Machine} {l : Lineage} {t u : Thread}
  {entry : Nat} {i : Instruction}

namespace Query.Begets

theorem follows (h : q.Begets entry t) (hfollows : q.program.Follows t.pc u.pc) :
    q.Begets entry u :=
  ⟨h.mem_seeds, h.leads.tail hfollows⟩

/-- A thread goes on to the next instruction. -/
theorem next (h : q.Begets entry t) (hi : q.instruction? t.pc = some i)
    (hgoes : i.neverFallsThrough = false) (hpc : u.pc = t.pc + 1) : q.Begets entry u :=
  h.follows ⟨i, hi, .inl ⟨hpc, hgoes⟩⟩

theorem woken (h : q.Begets entry t) {unit : UInt16} (hwoken : q.woken unit t = some u) :
    q.Begets entry u := by
  rw [Query.woken] at hwoken
  split at hwoken
  · next haccepts =>
    rw [Query.accepts] at haccepts
    split at haccepts
    · next hi => exact h.next hi rfl (congrArg Thread.pc (Option.some.inj hwoken)).symm
    · cases haccepts
  · cases hwoken

end Query.Begets

namespace Lineage

theorem forall₂_woken {entries : List Nat} {waiting : List Thread}
    (h : List.Forall₂ q.Begets entries waiting) (unit : UInt16) :
    List.Forall₂ q.Begets
      ((waiting.zip entries).filterMap fun x => (q.woken unit x.1).map fun _ => x.2)
      (waiting.filterMap (q.woken unit)) := by
  induction h with
  | nil => exact .nil
  | @cons entry t entries waiting hbegets _ ih =>
    rw [List.zip_cons_cons, List.filterMap_cons, List.filterMap_cons]
    rcases hwoken : q.woken unit t with _ | u
    · exact ih
    · exact .cons (hbegets.woken hwoken) ih

theorem Of.feed (h : l.Of q m) (unit : UInt16) : (l.feed q unit m).Of q (m.feed q unit) where
  running := by
    rw [Machine.running_feed]
    exact h.running
  active := by
    rw [Machine.active_feed]
    exact List.rel_append (List.forall₂_reverse_iff.mpr (forall₂_woken h.blocked unit)) h.active
  blocked := by
    rw [Machine.blocked_feed]
    exact .nil
  isSome_best := by
    rw [Machine.best_feed]
    exact h.isSome_best
  accepts := h.accepts

theorem Of.drop (h : l.Of q m) (t : Thread) : { l with running := none }.Of q (m.drop t) :=
  { h with running := .none }

theorem Of.resume (h : l.Of q m) (hbegets : q.Begets entry t) :
    { l with running := some entry }.Of q (m.resume t) :=
  { h with running := .some hbegets }

variable [CodeUnit α]

/-- **A thread that runs an instruction hands its entry on** to those it leaves. -/
theorem Of.execute (h : l.Of q m) (hbegets : q.Begets entry t) (hentry : l.running = some entry)
    (hi : q.instruction? t.pc = some i) :
    (l.execute entry (m.execute q t i) i).Of q (m.execute q t i) := by
  cases i with
  | consume min max => exact { h with running := .none, blocked := .cons hbegets h.blocked }
  | fork target =>
    exact
      { h with
        running := hentry ▸ .some (hbegets.next hi rfl rfl)
        active := .cons (hbegets.follows ⟨_, hi, .inr (.inl rfl)⟩) h.active }
  | accept =>
    exact
      { running := .none
        active := .nil
        blocked := h.blocked
        isSome_best := rfl
        accepts := fun entry' hentry' => by
          obtain rfl := Option.some.inj hentry'
          exact ⟨t, hbegets, hi⟩ }
  | jump target => exact h.resume (hbegets.follows ⟨_, hi, .inr (.inr rfl)⟩)
  | setRegister | clearRegister | beginLoop => exact h.resume (hbegets.next hi rfl rfl)
  | writeLookbehind index => exact { h with running := .none }
  | assert | endLoop | readLookbehind =>
    rw [Machine.execute]
    split
    · exact h.resume (hbegets.next hi rfl rfl)
    · exact h.drop t

/-- **A step of the machine keeps the lineage.** -/
theorem Of.step (h : l.Of q m) : (l.step q m).Of q (m.step q) := by
  have hrunning := h.running
  have hactive := h.active
  rcases hm : m.running with _ | t
  · rw [hm] at hrunning
    generalize hl : l.running = running at hrunning
    cases hrunning
    rcases ha : m.active with _ | ⟨t, active⟩
    · rw [ha] at hactive
      generalize hl' : l.active = entries at hactive
      cases hactive
      rw [Machine.step_of_isIdle q (by simp [Machine.isIdle, hm, ha]), Lineage.step, hl, hl']
      exact h
    · rw [ha] at hactive
      generalize hl' : l.active = entries at hactive
      cases hactive with
      | cons hbegets hrest =>
        rw [Machine.step_of_none q hm ha, Lineage.step, hl, hl']
        exact { h with running := .some hbegets, active := hrest }
  · rw [hm] at hrunning
    generalize hl : l.running = running at hrunning
    cases hrunning with
    | @some entry _ hbegets =>
      rw [Lineage.step, hl]
      rcases hadmits : m.visits.admits t.pc t.consumed m.position with _ | _
      · rw [Machine.step_of_refused q hm hadmits]
        simpa [Machine.ran?, hm, hadmits] using h.drop t
      · rcases hi : q.instruction? t.pc with _ | i
        · rw [Machine.step_of_missing q hm hi]
          simpa [Machine.ran?, hm, hadmits, hi] using h.drop t
        · have hnote : l.Of q (m.note t) := { h with }
          rw [Machine.step_of_admitted q hm hadmits hi]
          simpa [Machine.ran?, hm, hadmits, hi] using hnote.execute hbegets hl hi

end Lineage

/-! ## All through a scan -/

namespace Machine

/-- A scan begins with one thread at every entry. -/
theorem Sound.of_beginScan (h : m.Sound q) :
    Lineage.Of q (m.beginScan q) { active := (seeds q).reverse } := by
  obtain ⟨pool, -, heq⟩ := h.beginScan_eq
  rw [heq]
  refine
    { running := .none
      active := ?_
      blocked := .nil
      isSome_best := rfl
      accepts := nofun }
  rw [List.forall₂_reverse_iff, List.forall₂_map_right_iff, List.forall₂_same]
  exact fun pc hpc => ⟨hpc, .refl⟩

variable [CodeUnit α]

namespace Traced

/-- **All through a scan, the entries noted are those the threads come from.** -/
theorem of (h : Traced q m₀ m l) (h₀ : m₀.Sound q) : l.Of q m := by
  induction h with
  | begin => exact h₀.of_beginScan
  | step _ ih => exact ih.step
  | @read m l _ hidle hunsettled hlt ih =>
    have hadvance : l.Of q m.advance := { ih with }
    exact hadvance.feed _

theorem iterate (h : Traced q m₀ m l) (n : Nat) :
    let x := (fun x : Machine × Lineage => (x.1.step q, x.2.step q x.1))^[n] (m, l)
    Traced q m₀ x.1 x.2 := by
  induction n with
  | zero => exact h
  | succ n ih =>
    rw [Function.iterate_succ_apply']
    exact ih.step

end Traced

/-- The states of a scan are those that have a lineage. -/
theorem scanning_iff_exists_traced : Scanning q m₀ m ↔ ∃ l, Traced q m₀ m l := by
  constructor
  · intro h
    induction h with
    | begin => exact ⟨_, .begin⟩
    | step _ ih =>
      obtain ⟨l, hl⟩ := ih
      exact ⟨_, hl.step⟩
    | read _ hidle hunsettled hlt ih =>
      obtain ⟨l, hl⟩ := ih
      exact ⟨_, hl.read hidle hunsettled hlt⟩
  · rintro ⟨l, hl⟩
    induction hl with
    | begin => exact .begin
    | step _ ih => exact ih.step
    | read _ hidle hunsettled hlt ih => exact ih.read hidle hunsettled hlt

end Machine

namespace Search

variable [CodeUnit α]

/-- **A match comes from an entry that leads to an `accept`** — at any time of any scan, the thread
that left the best match descends from one of the threads the scan began with, and could come from
its entry to an `accept` by the instructions of the program. If lookbehinds only give signals, that
entry is the main expression. -/
theorem best_descends (q : Query α) (position : Nat) (calls : List Call) (m : Machine)
    (h : Machine.Scanning q ((start q position).after q calls).machine m) :
    (∃ l, Machine.Traced q ((start q position).after q calls).machine m l) ∧
      ∀ l, Machine.Traced q ((start q position).after q calls).machine m l →
        l.Of q m ∧
          ∀ entry ∈ l.best,
            (entry ∈ Machine.seeds q ∧
              ∃ pc, q.program.Leads entry pc ∧ q.instruction? pc = some .accept) ∧
            (q.program.OnlySignals → entry = 0) := by
  refine ⟨Machine.scanning_iff_exists_traced.mp h, fun l hl => ?_⟩
  have hof := hl.of (sound_after (sound_start q position) calls)
  refine ⟨hof, fun entry hentry => ?_⟩
  obtain ⟨t, ⟨hseed, hleads⟩, haccept⟩ := hof.accepts entry hentry
  refine ⟨⟨hseed, t.pc, hleads, haccept⟩, fun hsignals => ?_⟩
  exact (List.mem_cons.mp hseed).resolve_right fun hlookbehind =>
    hsignals entry hlookbehind t.pc hleads haccept

/-- The match of `(?<=ab)c` in `abc` comes from the main expression. -/
theorem best_descends_behind_ab :
    let first := (start behindAb 0).machine
    let last := (first.scan behindAb .quiet).2.1
    Machine.Scanning behindAb first last ∧ behindAb.program.OnlySignals ∧
      last.best = some #[some 2, some 3] ∧
      ∃ l, Machine.Traced behindAb first last l ∧ l.best = some 0 := by
  intro first last
  have hscanning : Machine.Scanning behindAb first last := by
    have hend := Machine.Scanning.scan behindAb first .quiet
    have hquiet : (first.scan behindAb .quiet).1 = none :=
      Machine.error_scan_of_quiet _ fun _ => rfl
    split at hend
    · next heq =>
      simpa only [last, heq] using hend.1
    · next heq => simp [heq] at hquiet
  have hsignals : behindAb.program.OnlySignals :=
    Program.WellLaidOut.onlySignals (by decide)
  have hbest : last.best = some #[some 2, some 3] := by
    change ((start behindAb 0).machine.scan behindAb .quiet).2.1.best = _
    cbv
  obtain ⟨⟨l, hl⟩, hdescends⟩ := best_descends behindAb 0 [] last hscanning
  obtain ⟨hof, hentries⟩ := hdescends l hl
  have hsome := hof.isSome_best
  rw [hbest] at hsome
  obtain ⟨entry, hentry⟩ := Option.isSome_iff_exists.mp hsome
  have hmain := (hentries entry hentry).2 hsignals
  exact ⟨hscanning, hsignals, hbest, l, hl, hentry.trans (congrArg some hmain)⟩

/-- The expression `a|ab` with an `accept` for either alternative, on the input `ab`. -/
def alternatives : Query UInt8 where
  program :=
    ⟨#[.fork 5, .setRegister 0, .consume 0x61 0x61, .setRegister 1, .accept, .setRegister 0,
      .consume 0x61 0x61, .consume 0x62 0x62, .setRegister 1, .accept], by decide⟩
  registerCount := 2
  enough := by decide
  input := #[0x61, 0x62]
  pollInterval := defaultPollInterval

/-- The program has no instruction for lookbehinds, but the entry of the second alternative follows
an `accept`. The scan begins a thread there, and the match that this one leaves takes the place of
the one of the first alternative, `0..1`. -/
theorem second_alternative_wins :
    let first := (start alternatives 0).machine
    let last := (first.scan alternatives .quiet).2.1
    alternatives.program.lookbehindEntries = [5] ∧ last.best = some #[some 0, some 2] ∧
      ∃ l, Machine.Traced alternatives first last l ∧ l.best = some 5 := by
  intro first last
  -- Nine steps, five behind the first unit, and three behind the second one.
  have hbegin : Machine.Traced alternatives first _ _ := .begin
  have hstart := hbegin.iterate 9
  have hmiddle :=
    (hstart.read (by decide +kernel) (by decide +kernel) (by decide +kernel)).iterate 5
  have hend :=
    (hmiddle.read (by decide +kernel) (by decide +kernel) (by decide +kernel)).iterate 3
  obtain ⟨m, l, htraced, hm, hl⟩ : ∃ m l,
      Machine.Traced alternatives first m l ∧ m = last ∧ l.best = some 5 :=
    ⟨_, _, hend, by decide +kernel, by decide +kernel⟩
  exact ⟨by decide, by decide +kernel, l, hm ▸ htraced, hl⟩

end Search

end RegexMachine
