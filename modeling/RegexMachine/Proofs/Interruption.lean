import Mathlib
import RegexMachine.Proofs.Bounds
import RegexMachine.Proofs.Cursor

/-!
# Proofs/Interruption — a host can end a call early, and do nothing else

A host is asked between two positions of a scan, and nothing but the end of the scan depends on what
it answers. So there are two ways a call can go. If every answer lets the search go on
(`Host.Permits`), the call does what it does under any other host that never interrupts. Or else one
answer is an error (`Host.Refuses`), which ends the call at once; until then it has found the first
of the matches that the whole call would find (`Search.collect_permits_or_refuses`).

Matches are written one after the other from the beginning of the output. What an interrupted call
leaves there is therefore written once more, unchanged, when the call is repeated
(`fill_interrupted`).
-/

namespace RegexMachine

/-! ## Answers -/

/-- **The error that an answer stands for.** A host that wants its turn, or whose subject has
changed its width, asks for the search to be run again. -/
inductive Interrupt.Stops : Interrupt → SearchError → Prop
  | yield : Stops .yield .retry
  | representationChanged : Stops .representationChanged .retry
  | stackOverflow : Stops .stackOverflow .stackOverflow
  | exception : Stops .exception .exception

theorem Interrupt.stops_iff {answer : Interrupt} {error : SearchError} :
    answer.Stops error ↔ answer.error? = some error := by
  constructor
  · rintro ⟨⟩ <;> rfl
  · intro h
    cases answer with
    | proceed => simp [error?] at h
    | yield | representationChanged | stackOverflow | exception =>
      obtain rfl := Option.some.inj h
      constructor

theorem Interrupt.error?_eq_none {answer : Interrupt} :
    answer.error? = none ↔ answer = .proceed := by
  cases answer <;> simp [error?]

namespace Host

/-- The host lets the search go on at all its polls before the one of number `n`. -/
def ProceedsTo (host : Host) (n : Nat) : Prop :=
  host.polls ≤ n ∧ ∀ k, host.polls ≤ k → k < n → host.answer k = .proceed

/-- **The host was polled and let the search go on every time.** -/
def Permits (host later : Host) : Prop :=
  ∃ n, host.ProceedsTo n ∧ later = { host with polls := n }

/-- **The host was polled until it ended the search with an error**, and not any more after that. -/
def Refuses (host : Host) (error : SearchError) (later : Host) : Prop :=
  ∃ n, host.ProceedsTo n ∧ (host.answer n).Stops error ∧ later = { host with polls := n + 1 }

variable {host later last again : Host} {error : SearchError} {due : Bool}

theorem ProceedsTo.refl (host : Host) : host.ProceedsTo host.polls :=
  ⟨Nat.le_refl _, fun _ hle hlt => absurd hle (Nat.not_le.mpr hlt)⟩

theorem ProceedsTo.trans {n n' : Nat} (h : host.ProceedsTo n)
    (h' : { host with polls := n }.ProceedsTo n') : host.ProceedsTo n' :=
  ⟨Nat.le_trans h.1 h'.1, fun k hle hlt =>
    (Nat.lt_or_ge k n).elim (h.2 k hle) fun hge => h'.2 k hge hlt⟩

theorem ProceedsTo.succ {n : Nat} (h : host.ProceedsTo n) (hn : host.answer n = .proceed) :
    host.ProceedsTo (n + 1) :=
  ⟨Nat.le_succ_of_le h.1, fun k hle hlt =>
    (Nat.lt_or_eq_of_le (Nat.le_of_lt_succ hlt)).elim (h.2 k hle) fun heq => heq ▸ hn⟩

theorem Permits.refl (host : Host) : host.Permits host := ⟨host.polls, .refl host, rfl⟩

theorem Permits.trans (h : host.Permits later) (h' : later.Permits last) : host.Permits last := by
  obtain ⟨n, hn, rfl⟩ := h
  obtain ⟨n', hn', rfl⟩ := h'
  exact ⟨n', hn.trans hn', rfl⟩

theorem Permits.refuses (h : host.Permits later) (h' : later.Refuses error last) :
    host.Refuses error last := by
  obtain ⟨n, hn, rfl⟩ := h
  obtain ⟨n', hn', hstops, rfl⟩ := h'
  exact ⟨n', hn.trans hn', hstops, rfl⟩

theorem permits_of_pollIf (h : host.pollIf due = (none, later)) : host.Permits later := by
  cases due with
  | false =>
    obtain rfl : host = later := (Prod.ext_iff.mp h).2
    exact .refl host
  | true =>
    obtain ⟨hanswer, rfl⟩ := Prod.ext_iff.mp h
    exact ⟨host.polls + 1, (ProceedsTo.refl host).succ (Interrupt.error?_eq_none.mp hanswer), rfl⟩

theorem refuses_of_pollIf (h : host.pollIf due = (some error, later)) :
    host.Refuses error later := by
  cases due with
  | false => exact absurd (Prod.ext_iff.mp h).1 (by simp [pollIf])
  | true =>
    obtain ⟨hanswer, rfl⟩ := Prod.ext_iff.mp h
    exact ⟨host.polls, .refl host, Interrupt.stops_iff.mpr hanswer, rfl⟩

/-- A host that never interrupts. -/
def IsQuiet (host : Host) : Prop := ∀ n, host.answer n = .proceed

theorem IsQuiet.pollIf (h : again.IsQuiet) (due : Bool) :
    ∃ later : Host, again.pollIf due = (none, later) ∧ later.IsQuiet :=
  ⟨(again.pollIf due).2, Prod.ext (error_pollIf_of_quiet h due) rfl, fun n => by
    rw [answer_pollIf]
    exact h n⟩

theorem IsQuiet.not_refuses (h : host.IsQuiet) : ¬ host.Refuses error later := by
  rintro ⟨n, -, hstops, -⟩
  rw [h n] at hstops
  cases hstops

end Host

/-! ## One scan -/

namespace Machine

variable {α : Type} [CodeUnit α]

/-- **A host ends a scan, or has no part in it.** -/
theorem run_permits_or_refuses (q : Query α) (m : Machine) (host : Host) :
    (∃ last later, m.run q host = (none, last, later) ∧ host.Permits later ∧
        ∀ again : Host, again.IsQuiet →
          ∃ later, m.run q again = (none, last, later) ∧ later.IsQuiet) ∨
      ∃ error last later, m.run q host = (some error, last, later) ∧ host.Refuses error later := by
  induction m, host using run_induction q with
  | settled m host hsettled =>
    exact .inl ⟨m, host, run_of_settled q hsettled host, .refl host, fun again hquiet =>
      ⟨again, run_of_settled q hsettled again, hquiet⟩⟩
  | ends m host hunsettled hend =>
    exact .inl ⟨m, host, run_of_end q hunsettled hend host, .refl host, fun again hquiet =>
      ⟨again, run_of_end q hunsettled hend again, hquiet⟩⟩
  | interrupt m host error later hunsettled hlt hpoll =>
    exact .inr ⟨error, m.advance, later, run_of_interrupt q hunsettled hlt hpoll,
      Host.refuses_of_pollIf hpoll⟩
  | proceed m host host' hunsettled hlt hpoll ih =>
    have hpermits := Host.permits_of_pollIf hpoll
    rw [run_of_proceed q hunsettled hlt hpoll]
    rcases ih with ⟨last, later, hrun, hrest, hsame⟩ | ⟨error, last, later, hrun, hrefuses⟩
    · refine .inl ⟨last, later, hrun, hpermits.trans hrest, fun again hquiet => ?_⟩
      obtain ⟨again', hpoll', hquiet'⟩ := hquiet.pollIf (q.pollsAt (m.position + 1))
      rw [run_of_proceed q hunsettled hlt hpoll']
      exact hsame again' hquiet'
    · exact .inr ⟨error, last, later, hrun, hpermits.refuses hrefuses⟩

end Machine

/-! ## One match, and several -/

namespace Search

variable {α : Type} [CodeUnit α] {q : Query α} {s : Search}

/-- **A host ends a call with its error, or has no part in it.** -/
theorem next_permits_or_refuses (q : Query α) (s : Search) (host : Host) :
    (∃ outcome s' later, s.next q host = (outcome, s', later) ∧ host.Permits later ∧
        ∀ again : Host, again.IsQuiet →
          ∃ later, s.next q again = (outcome, s', later) ∧ later.IsQuiet) ∨
      ∃ error s' later, s.next q host = (.error error, s', later) ∧
        host.Refuses error later := by
  cases hfinished : s.finished with
  | true =>
    exact .inl ⟨.ok none, s, host, next_of_finished hfinished host, .refl host,
      fun again hquiet => ⟨again, next_of_finished hfinished again, hquiet⟩⟩
  | false =>
    rcases Machine.run_permits_or_refuses q ((s.machine.beginScan q).drain q) host with
      ⟨last, later, hrun, hpermits, hsame⟩ | ⟨error, last, later, hrun, hrefuses⟩
    · refine .inl ⟨_, _, later, next_of_scan hfinished hrun, hpermits, fun again hquiet => ?_⟩
      obtain ⟨later', hrun', hquiet'⟩ := hsame again hquiet
      exact ⟨later', next_of_scan hfinished hrun', hquiet'⟩
    · exact .inr ⟨error, fail last, later, next_of_error hfinished hrun, hrefuses⟩

theorem quiet_next {host : Host} (h : host.IsQuiet) (q : Query α) (s : Search) :
    (s.next q host).2.2.IsQuiet := by
  rcases next_permits_or_refuses q s host with
    ⟨outcome, s', later, -, -, hsame⟩ | ⟨error, s', later, -, hrefuses⟩
  · obtain ⟨later', hnext, hquiet⟩ := hsame host h
    rwa [hnext]
  · exact absurd hrefuses h.not_refuses

section Equations

variable {s' last : Search} {host later latest : Host} {limit : Nat} {registers : Registers}
  {rest : Batch}

theorem collect_of_none (h : s.next q host = (.ok none, s', later)) :
    collect q (limit + 1) s host = ({}, s', later) := by
  simp [collect, h]

theorem collect_of_error {error : SearchError} (h : s.next q host = (.error error, s', later)) :
    collect q (limit + 1) s host = ({ error? := some error }, s', later) := by
  simp [collect, h]

theorem collect_of_found (h : s.next q host = (.ok (some registers), s', later))
    (hrest : collect q limit s' later = (rest, last, latest)) :
    collect q (limit + 1) s host =
      ({ rest with found := registers :: rest.found }, last, latest) := by
  simp [collect, h, hrest]

end Equations

/-- **Until a host ends a call, the call finds what it would find without interrupts.** -/
theorem collect_permits_or_refuses (q : Query α) (limit : Nat) (s : Search) (host : Host) :
    (∃ batch s' later, collect q limit s host = (batch, s', later) ∧ host.Permits later ∧
        ∀ again : Host, again.IsQuiet →
          ∃ later, collect q limit s again = (batch, s', later) ∧ later.IsQuiet) ∨
      ∃ error batch s' later, collect q limit s host = (batch, s', later) ∧
        host.Refuses error later ∧ batch.error? = some error ∧
        ∀ again : Host, again.IsQuiet → batch.found <+: (collect q limit s again).1.found := by
  induction limit generalizing s host with
  | zero => exact .inl ⟨{}, s, host, rfl, .refl host, fun again hquiet => ⟨again, rfl, hquiet⟩⟩
  | succ limit ih =>
    rcases next_permits_or_refuses q s host with
      ⟨outcome, s', later, hnext, hpermits, hsame⟩ | ⟨error, s', later, hnext, hrefuses⟩
    · rcases outcome with error | _ | registers
      · refine .inl ⟨_, _, _, collect_of_error hnext, hpermits, fun again hquiet => ?_⟩
        obtain ⟨later', hnext', hquiet'⟩ := hsame again hquiet
        exact ⟨later', collect_of_error hnext', hquiet'⟩
      · refine .inl ⟨_, _, _, collect_of_none hnext, hpermits, fun again hquiet => ?_⟩
        obtain ⟨later', hnext', hquiet'⟩ := hsame again hquiet
        exact ⟨later', collect_of_none hnext', hquiet'⟩
      · rcases ih s' later with ⟨rest, last, latest, hrest, hpermits', hsame'⟩ |
          ⟨error, rest, last, latest, hrest, hrefuses, herror, hprefix⟩
        · refine .inl ⟨_, _, _, collect_of_found hnext hrest, hpermits.trans hpermits',
            fun again hquiet => ?_⟩
          obtain ⟨later', hnext', hquiet'⟩ := hsame again hquiet
          obtain ⟨latest', hrest', hquiet''⟩ := hsame' later' hquiet'
          exact ⟨latest', collect_of_found hnext' hrest', hquiet''⟩
        · refine .inr ⟨error, _, _, _, collect_of_found hnext hrest, hpermits.refuses hrefuses,
            herror, fun again hquiet => ?_⟩
          obtain ⟨later', hnext', hquiet'⟩ := hsame again hquiet
          rw [collect_of_found hnext' rfl]
          exact List.cons_prefix_cons.mpr ⟨rfl, hprefix later' hquiet'⟩
    · exact .inr ⟨error, _, _, _, collect_of_error hnext, hrefuses, rfl,
        fun _ _ => List.nil_prefix⟩

/-! ## What is written -/

namespace Batch

variable {b b' : Batch} {output : Array (Option Nat)} {n cell : Nat}

/-- The registers of all matches, one match after the other. -/
def written (b : Batch) : List (Option Nat) := (b.found.map Array.toList).flatten

theorem length_written (hsize : ∀ registers ∈ b.found, registers.size = n) :
    b.written.length = b.found.length * n := by
  rw [written]
  generalize b.found = found at hsize ⊢
  induction found with
  | nil => exact (Nat.zero_mul n).symm
  | cons registers found ih =>
    obtain ⟨hfirst, hrest⟩ := List.forall_mem_cons.mp hsize
    rw [List.map_cons, List.flatten_cons, List.length_append, ih hrest, Array.length_toList, hfirst,
      List.length_cons, Nat.succ_mul, Nat.add_comm]

theorem isPrefix_written (h : b.found <+: b'.found) : b.written <+: b'.written := by
  obtain ⟨rest, hrest⟩ := h
  exact ⟨(rest.map Array.toList).flatten, by rw [written, written, ← hrest]; simp⟩

theorem toList_writeOver (b : Batch) (output : Array (Option Nat)) :
    (b.writeOver output).toList = b.written ++ output.toList.drop b.written.length := by
  simp [writeOver, written]

theorem size_writeOver (h : b.written.length ≤ output.size) :
    (b.writeOver output).size = output.size := by
  change (b.written.toArray ++ output.extract b.written.length output.size).size = _
  rw [Array.size_append, Array.size_extract, List.size_toArray]
  omega

/-- **A batch is written over the beginning of the output**, and the rest is left as it was. -/
theorem getElem?_writeOver (h : b.written.length ≤ output.size) (cell : Nat) :
    (b.writeOver output)[cell]? =
      if cell < b.written.length then b.written[cell]? else output[cell]? := by
  change (b.written.toArray ++ output.extract b.written.length output.size)[cell]? = _
  rw [Array.getElem?_append, List.size_toArray, List.getElem?_toArray, Array.getElem?_extract]
  split
  · rfl
  · split
    · rw [Nat.add_sub_cancel' (by omega)]
    · rw [Array.getElem?_eq_none (by omega)]

/-- **The beginning of a batch writes the beginning of what the batch writes.** -/
theorem getElem?_writeOver_of_prefix (h : b.found <+: b'.found)
    (hle : b'.written.length ≤ output.size) (cell : Nat) :
    (b.writeOver output)[cell]? =
      if cell < b.written.length then (b'.writeOver output)[cell]? else output[cell]? := by
  obtain ⟨rest, hrest⟩ := isPrefix_written h
  have hle' : b.written.length ≤ b'.written.length := (isPrefix_written h).length_le
  rw [getElem?_writeOver (Nat.le_trans hle' hle), getElem?_writeOver hle]
  split
  · next hlt => rw [if_pos (Nat.lt_of_lt_of_le hlt hle'), ← hrest, List.getElem?_append_left hlt]
  · rfl

theorem length_of_result {total : Nat} (h : b.result = .ok total) : b.found.length = total := by
  rw [result] at h
  split at h
  · cases h
  · exact Except.ok.inj h

/-- **What the beginning of a batch leaves in the output is overwritten by the batch.** -/
theorem writeOver_writeOver (h : b.found <+: b'.found) (hle : b'.written.length ≤ output.size) :
    b'.writeOver (b.writeOver output) = b'.writeOver output := by
  have hle' : b.written.length ≤ b'.written.length := (isPrefix_written h).length_le
  have hsize := size_writeOver (Nat.le_trans hle' hle)
  refine Array.ext_getElem? fun cell => ?_
  rw [getElem?_writeOver (by rwa [hsize]), getElem?_writeOver hle,
    getElem?_writeOver (Nat.le_trans hle' hle)]
  split
  · rfl
  · rw [if_neg (by omega)]

end Batch

section Fill

variable {host again : Host} {output : Array (Option Nat)}

theorem result_fill (q : Query α) (s : Search) (host : Host) (output : Array (Option Nat)) :
    (s.fill q host output).1 = (collect q (output.size / q.registerCount) s host).1.result :=
  rfl

theorem output_fill (q : Query α) (s : Search) (host : Host) (output : Array (Option Nat)) :
    (s.fill q host output).2.1 =
      (collect q (output.size / q.registerCount) s host).1.writeOver output :=
  rfl

theorem size_of_mem_collect (h : s.machine.Sound q) (limit : Nat) (host : Host) :
    ∀ registers ∈ (collect q limit s host).1.found, registers.size = q.registerCount := by
  induction limit generalizing s host with
  | zero => exact fun _ hmem => absurd hmem List.not_mem_nil
  | succ limit ih =>
    have hsound := sound_next h host
    have hsize : ∀ registers, (s.next q host).1 = .ok (some registers) →
        registers.size = q.registerCount := fun _ hfound => size_of_next h hfound
    rcases hnext : s.next q host with ⟨error | _ | registers, s', later⟩
    · simp [collect_of_error hnext]
    · simp [collect_of_none hnext]
    · rw [hnext] at hsound hsize
      rw [collect_of_found hnext rfl]
      exact List.forall_mem_cons.mpr ⟨hsize registers rfl, ih hsound later⟩

theorem length_collect_le (q : Query α) (limit : Nat) (s : Search) (host : Host) :
    (collect q limit s host).1.found.length ≤ limit := by
  induction limit generalizing s host with
  | zero => exact Nat.le_refl 0
  | succ limit ih =>
    rcases hnext : s.next q host with ⟨error | _ | registers, s', later⟩
    · simp [collect_of_error hnext]
    · simp [collect_of_none hnext]
    · rw [collect_of_found hnext rfl]
      exact Nat.succ_le_succ (ih s' later)

/-- The matches found by a call, as they fit in the output. -/
theorem length_written_collect (h : s.machine.Sound q) (host : Host) (output : Array (Option Nat)) :
    let batch := (collect q (output.size / q.registerCount) s host).1
    batch.written.length = batch.found.length * q.registerCount ∧
      batch.written.length ≤ output.size := by
  intro batch
  have hlength : batch.written.length = batch.found.length * q.registerCount :=
    Batch.length_written (size_of_mem_collect h _ host)
  refine ⟨hlength, hlength ▸ ?_⟩
  calc batch.found.length * q.registerCount
      ≤ output.size / q.registerCount * q.registerCount :=
        Nat.mul_le_mul_right _ (length_collect_le q _ s host)
    _ ≤ output.size := Nat.div_mul_le_self _ _

/-- Hosts that never interrupt are all the same to a search. -/
theorem collect_eq_of_quiet (hhost : host.IsQuiet) (hagain : again.IsQuiet) (limit : Nat) :
    (collect q limit s again).1 = (collect q limit s host).1 := by
  rcases collect_permits_or_refuses q limit s host with
    ⟨batch, s', later, hcollect, -, hsame⟩ | ⟨error, batch, s', later, -, hrefuses, -⟩
  · obtain ⟨later', hcollect', -⟩ := hsame again hagain
    rw [hcollect, hcollect']
  · exact absurd hrefuses hhost.not_refuses

/-- Under any host a call finds the first of the matches that it finds without interrupts. -/
theorem isPrefix_found (hquiet : again.IsQuiet) (limit : Nat) (host : Host) :
    (collect q limit s host).1.found <+: (collect q limit s again).1.found := by
  rcases collect_permits_or_refuses q limit s host with
    ⟨batch, s', later, hcollect, -, hsame⟩ | ⟨error, batch, s', later, hcollect, -, -, hprefix⟩
  · obtain ⟨later', hcollect', -⟩ := hsame again hquiet
    simp only [hcollect, hcollect', List.prefix_rfl]
  · rw [hcollect]
    exact hprefix again hquiet

/-- **A call repairs what another one has left in the output.** -/
theorem fill_again (h : s.machine.Sound q) (hquiet : again.IsQuiet) (host : Host)
    (output : Array (Option Nat)) :
    let left := (s.fill q host output).2.1
    (s.fill q again left).1 = (s.fill q .quiet output).1 ∧
      (s.fill q again left).2.1 = (s.fill q .quiet output).2.1 := by
  have hwhole : Host.IsQuiet .quiet := fun _ => rfl
  have hsize : (s.fill q host output).2.1.size = output.size :=
    Batch.size_writeOver (length_written_collect h host output).2
  intro left
  have hsame : (collect q (left.size / q.registerCount) s again).1 =
      (collect q (output.size / q.registerCount) s .quiet).1 := by
    rw [hsize]
    exact collect_eq_of_quiet hwhole hquiet _
  simp only [result_fill, output_fill, hsame]
  exact ⟨trivial, Batch.writeOver_writeOver (isPrefix_found hwhole _ host)
    (length_written_collect h .quiet output).2⟩

/-- **A call that a host ends has written some whole matches**, and nothing else. -/
theorem fill_permits_or_refuses (h : s.machine.Sound q) (host : Host)
    (output : Array (Option Nat)) :
    (host.Permits (s.fill q host output).2.2.2 ∧
        ∀ again : Host, again.IsQuiet →
          (s.fill q again output).1 = (s.fill q host output).1 ∧
          (s.fill q again output).2.1 = (s.fill q host output).2.1) ∨
      ∃ error count, host.Refuses error (s.fill q host output).2.2.2 ∧
        (s.fill q host output).1 = .error error ∧ count * q.registerCount ≤ output.size ∧
        ∀ again : Host, again.IsQuiet →
          (∀ total, (s.fill q again output).1 = .ok total → count ≤ total) ∧
          ∀ cell, (s.fill q host output).2.1[cell]? =
            if cell < count * q.registerCount then (s.fill q again output).2.1[cell]?
            else output[cell]? := by
  have hlength := length_written_collect h host output
  have hprefix : ∀ again : Host, again.IsQuiet →
      (collect q (output.size / q.registerCount) s host).1.found <+:
        (collect q (output.size / q.registerCount) s again).1.found :=
    fun again hquiet => isPrefix_found hquiet _ host
  rcases collect_permits_or_refuses q (output.size / q.registerCount) s host with
    ⟨batch, s', later, hcollect, hpermits, hsame⟩ |
    ⟨error, batch, s', later, hcollect, hrefuses, herror, -⟩
  · refine .inl ⟨by rwa [fill, hcollect], fun again hquiet => ?_⟩
    obtain ⟨later', hcollect', -⟩ := hsame again hquiet
    rw [fill, fill, hcollect, hcollect']
    exact ⟨rfl, rfl⟩
  · rw [hcollect] at hlength hprefix
    refine .inr ⟨error, batch.found.length, by rwa [fill, hcollect], ?_, hlength.1 ▸ hlength.2,
      fun again hquiet => ?_⟩
    · rw [fill, hcollect]
      simp [Batch.result, herror]
    · have hlength' := length_written_collect h again output
      have hfound := hprefix again hquiet
      refine ⟨fun total htotal => Batch.length_of_result htotal ▸ hfound.length_le, fun cell => ?_⟩
      rw [fill, fill, hcollect, ← hlength.1]
      exact Batch.getElem?_writeOver_of_prefix hfound hlength'.2 cell

end Fill

end Search

/-! ## The calls of a regex -/

namespace Regex

/-- **An interrupted call leaves the beginning of what the whole call writes, and can be repeated.**

* If the host lets the search go on every time it is polled, the result and the output are those of
  a call without interrupts.
* If not, the first answer that stops the search is the last poll, and the call fails with the error
  of this answer. Some number of whole matches is written as the whole call writes them, and the
  output behind them is left as it was.
* A call without interrupts on what is left gives the result and the output of the whole call. -/
theorem fill_interrupted (re : Regex) (input : Input) (host : Host) (output : Array (Option Nat)) :
    let call := re.fill input host output
    let whole := re.fill input .quiet output
    let polled := fun n => host.polls ≤ n ∧ n < call.2.2.polls
    ((∀ n, polled n → host.answer n = .proceed) → call.1 = whole.1 ∧ call.2.1 = whole.2.1) ∧
      (∀ n, polled n → host.answer n ≠ .proceed →
        (∃ error, (host.answer n).Stops error ∧ call.1 = .error error) ∧
          call.2.2.polls = n + 1 ∧
          ∃ count, (∀ total, whole.1 = .ok total → count ≤ total) ∧
            count * re.registerCount ≤ output.size ∧
            ∀ cell, call.2.1[cell]? =
              if cell < count * re.registerCount then whole.2.1[cell]? else output[cell]?) ∧
      ∀ again : Host, again.IsQuiet →
        (re.fill input again call.2.1).1 = whole.1 ∧
          (re.fill input again call.2.1).2.1 = whole.2.1 := by
  obtain ⟨α, _, q, hruns, hsearch⟩ := re.exists_runs input
  have hsound := Search.sound_start q input.start
  have hfill := Regex.fill_eq hruns hsearch
  have hcount : q.registerCount = re.registerCount := hruns.registerCount_eq
  have hwhole : Host.IsQuiet .quiet := fun _ => rfl
  intro call whole polled
  refine ⟨fun hall => ?_, fun n hn hstop => ?_, fun again hquiet => ?_⟩
  · rcases Search.fill_permits_or_refuses hsound host output with
      ⟨-, hsame⟩ | ⟨error, count, ⟨n, hn, hstops, hlater⟩, -⟩
    · simp only [call, whole, hfill]
      exact ⟨(hsame _ hwhole).1.symm, (hsame _ hwhole).2.symm⟩
    · -- The last poll was to end the search, although all were to let it go on.
      have hpolls : call.2.2.polls = n + 1 := by simp only [call, hfill, hlater]
      rw [hall n ⟨hn.1, by omega⟩] at hstops
      cases hstops
  · rcases Search.fill_permits_or_refuses hsound host output with
      ⟨⟨last, hlast, hlater⟩, -⟩ |
      ⟨error, count, ⟨last, hlast, hstops, hlater⟩, herror, hle, hsame⟩
    · have hpolls : call.2.2.polls = last := by simp only [call, hfill, hlater]
      exact absurd (hlast.2 n hn.1 (by omega)) hstop
    · have hpolls : call.2.2.polls = last + 1 := by simp only [call, hfill, hlater]
      obtain rfl : n = last := by
        by_contra hne
        exact hstop (hlast.2 n hn.1 (by have := hn.2; omega))
      obtain ⟨htotal, hcell⟩ := hsame _ hwhole
      simp only [call, whole, hfill, ← hcount]
      exact ⟨⟨error, hstops, herror⟩, by rw [hlater], count, htotal, hle, hcell⟩
  · simp only [call, whole, hfill]
    exact Search.fill_again hsound hquiet host output

/-- Looks for the letter `a`, and polls the host at every position. -/
def letterA : Regex where
  program :=
    ⟨#[.fork 2, .jump 4, .consume 0 0xffff, .jump 0, .setRegister 0, .consume 0x61 0x61,
      .setRegister 1, .accept], by decide⟩
  registerCount := 2
  enough := by decide
  pollInterval := 1

/-- In `aba` the host stops the search between the first match and the second. -/
theorem fill_interrupted_aba :
    let input : Input := { subject := .oneByte #[0x61, 0x62, 0x61] }
    let host : Host := .ofAnswers #[.proceed, .proceed, .yield]
    let output : Array (Option Nat) := .replicate 5 (some 42)
    let call := letterA.fill input host output
    host.answer 2 ≠ .proceed ∧ call.1 = .error .retry ∧ call.2.2.polls = 3 ∧
      call.2.1 = #[some 0, some 1, some 42, some 42, some 42] ∧
      (letterA.fill input .quiet call.2.1).1 = .ok 2 ∧
      (letterA.fill input .quiet call.2.1).2.1 = #[some 0, some 1, some 2, some 3, some 42] := by
  intro input host output call
  have hpolls : call.2.2.polls = 3 := by cbv
  have hstop : host.answer 2 ≠ .proceed := by decide
  obtain ⟨-, hrefused, hagain⟩ := fill_interrupted letterA input host output
  obtain ⟨⟨error, hstops, herror⟩, -, -⟩ :=
    hrefused 2 ⟨by decide, hpolls.symm ▸ by decide⟩ hstop
  obtain ⟨hresult, hrepaired⟩ := hagain .quiet fun _ => rfl
  cases hstops
  refine ⟨hstop, herror, hpolls, by cbv, hresult.trans (by cbv), hrepaired.trans (by cbv)⟩

end Regex

end RegexMachine
