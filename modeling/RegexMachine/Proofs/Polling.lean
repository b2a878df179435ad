import Mathlib
import RegexMachine.Proofs.Cost
import RegexMachine.Proofs.Finality

/-!
# Proofs/Polling — a scan polls its host at the multiples of the interval, and nowhere else

Where a scan stops is decided by its threads alone: at the first position with a match and no thread
left to better it, or at the end of the input (`Machine.scanEnd`). The host is asked before the
threads run at a position, so a scan is a function of the answers to one list of polls
(`Machine.pollsDue`). If all of them let it go on, it comes to its end with all polls made; or else
it is left as it was when the first other answer was given (`Machine.Scheduled`).

A scan may read past its match, and the next one begins before the position it came to. A multiple
between the two is then polled in both scans, so the polls of a call have to be added up over its
scans (`polls_on_schedule`).
-/

namespace RegexMachine

/-! ## Multiples -/

/-- The multiples of a number among the `length` numbers behind `start`, in increasing order. -/
def multiplesIn (divisor start length : Nat) : List Nat :=
  (List.range' (start + 1) length).filter (divisor ∣ ·)

section Multiples

variable {divisor start length p i : Nat}

theorem multiplesIn_succ (divisor start length : Nat) :
    multiplesIn divisor start (length + 1) = multiplesIn divisor start length ++
      if divisor ∣ start + length + 1 then [start + length + 1] else [] := by
  rw [multiplesIn, List.range'_1_concat, List.filter_append, Nat.add_right_comm]
  simp [multiplesIn, List.filter_singleton]

theorem mem_multiplesIn :
    p ∈ multiplesIn divisor start length ↔ start < p ∧ p ≤ start + length ∧ divisor ∣ p := by
  simp only [multiplesIn, List.mem_filter, List.mem_range'_1, decide_eq_true_eq]
  omega

theorem pairwise_multiplesIn (divisor start length : Nat) :
    (multiplesIn divisor start length).Pairwise (· < ·) :=
  List.Pairwise.filter _ List.pairwise_lt_range'

/-- **Counting multiples is dividing.** -/
theorem length_multiplesIn (divisor start length : Nat) :
    (multiplesIn divisor start length).length = (start + length) / divisor - start / divisor := by
  induction length with
  | zero => simp [multiplesIn]
  | succ length ih =>
    have hle : start / divisor ≤ (start + length) / divisor :=
      Nat.div_le_div_right (Nat.le_add_right _ _)
    rw [multiplesIn_succ, List.length_append, ih, ← Nat.add_assoc, Nat.succ_div]
    split <;> simp only [List.length_singleton, List.length_nil] <;> omega

/-- Before a multiple the list has those up to the number before it. -/
theorem exists_of_getElem?_multiplesIn (h : (multiplesIn divisor start length)[i]? = some p) :
    ∃ before < length, p = start + before + 1 ∧ divisor ∣ p ∧
      (multiplesIn divisor start before).length = i := by
  induction length with
  | zero => simp [multiplesIn] at h
  | succ length ih =>
    rw [multiplesIn_succ, List.getElem?_append] at h
    split at h
    · obtain ⟨before, hlt, hrest⟩ := ih h
      exact ⟨before, Nat.lt_succ_of_lt hlt, hrest⟩
    · next hge =>
      split at h
      · next hdvd =>
        obtain ⟨hi, rfl⟩ := List.getElem?_eq_some_iff.mp h
        have hzero : i - (multiplesIn divisor start length).length = 0 := by simpa using hi
        exact ⟨length, Nat.lt_succ_self _, by simp, by simpa using hdvd, by omega⟩
      · simp at h

end Multiples

/-! ## Polls and answers -/

/-- **A poll is due at the positive multiples of the interval.** -/
theorem Query.pollsAt_succ {α : Type} (q : Query α) (position : Nat) :
    q.pollsAt (position + 1) = decide (q.pollInterval ∣ position + 1) := by
  rw [pollsAt, Bool.eq_iff_iff]
  rcases Nat.eq_zero_or_pos q.pollInterval with hzero | hpos
  · simp [hzero]
  · simp [Nat.ne_of_gt hpos, Nat.dvd_iff_mod_eq_zero]

namespace Host

/-- A host that was polled so many times more. -/
def polled (host : Host) (times : Nat) : Host := { host with polls := host.polls + times }

variable {host : Host} {error : SearchError}

theorem pollIf_of_proceed (h : host.answer host.polls = .proceed) :
    host.pollIf true = (none, host.polled 1) := by
  rw [pollIf, if_pos rfl, poll, h]
  rfl

theorem pollIf_of_stops (h : (host.answer host.polls).Stops error) :
    host.pollIf true = (some error, host.polled 1) := by
  rw [pollIf, if_pos rfl, poll, Interrupt.stops_iff.mp h]
  rfl

/-- A host lets the search go on at its next polls, or there is a first one that it answers in
another way. -/
theorem proceedsTo_or_stops (host : Host) (times : Nat) :
    host.ProceedsTo (host.polls + times) ∨
      ∃ i < times, host.ProceedsTo (host.polls + i) ∧
        ∃ error, (host.answer (host.polls + i)).Stops error := by
  induction times with
  | zero => exact .inl (.refl host)
  | succ times ih =>
    rcases ih with hproceeds | ⟨i, hlt, hstops⟩
    · cases herror : (host.answer (host.polls + times)).error? with
      | none => exact .inl (hproceeds.succ (Interrupt.error?_eq_none.mp herror))
      | some error =>
        exact .inr ⟨times, Nat.lt_succ_self _, hproceeds, error, Interrupt.stops_iff.mpr herror⟩
    · exact .inr ⟨i, Nat.lt_succ_of_lt hlt, hstops⟩

end Host

/-! ## Reading without a host -/

namespace Machine

variable {α : Type} [CodeUnit α]

section Definitions

variable (q : Query α) (m : Machine)

/-- **A scan at rest, so many units behind its start** — no thread can run there without another
unit. The machine reads on even where a scan would stop. -/
def rested : Nat → Machine
  | 0 => (m.beginScan q).drain q
  | units + 1 =>
    let last := rested units
    if h : last.position < q.input.size then (last.read q h).drain q else last

/-- Where a scan stops that no host interrupts. -/
def scanEnd : Nat := (m.scan q .quiet).2.1.position

/-- The positions at which a scan polls its host while it reads so many units. -/
def pollsWithin (units : Nat) : List Nat := multiplesIn q.pollInterval m.position units

/-- The positions at which a scan polls its host that no answer stops. -/
def pollsDue : List Nat := m.pollsWithin q (m.scanEnd q - m.position)

/-- The state at rest at a position. -/
def restsAt (position : Nat) : Machine := m.rested q (position - m.position)

/-- The state in which a scan polls its host at a position: it has come from the position before,
and no thread has run. -/
def polledAt (position : Nat) : Machine := (m.restsAt q (position - 1)).advance

/-- A scan would stop after so many units, and not before. -/
structure StopsAfter (units : Nat) : Prop where
  position_le : m.position + units ≤ q.input.size
  stops : (m.rested q units).isSettled = true ∨ m.position + units = q.input.size
  reads : ∀ fewer < units, (m.rested q fewer).isSettled = false

end Definitions

variable {q : Query α} {m : Machine} {units fewer : Nat} {host : Host}

theorem isIdle_rested (q : Query α) (m : Machine) (units : Nat) :
    (m.rested q units).isIdle = true := by
  induction units with
  | zero => exact isIdle_drain _ _
  | succ units ih =>
    rw [rested]
    split
    · exact isIdle_drain _ _
    · exact ih

theorem Sound.position_rested (h : m.Sound q) (hle : m.position + units ≤ q.input.size) :
    (m.rested q units).position = m.position + units := by
  induction units with
  | zero =>
    obtain ⟨pool, -, heq⟩ := h.beginScan_eq
    rw [rested, position_drain, heq]
    rfl
  | succ units ih =>
    have hposition := ih (Nat.le_of_succ_le hle)
    rw [rested, dif_pos (by omega), position_drain, Machine.read, position_feed, Machine.advance,
      hposition, Nat.add_assoc]

/-- **Every scan stops somewhere.** -/
theorem Sound.exists_stopsAfter (h : m.Sound q) : ∃ units, m.StopsAfter q units := by
  have hend : m.position + (q.input.size - m.position) = q.input.size :=
    Nat.add_sub_cancel' h.position_le
  have hstops : ∃ units, (m.rested q units).isSettled = true ∨ m.position + units = q.input.size :=
    ⟨_, .inr hend⟩
  classical
  refine ⟨Nat.find hstops, ?_, Nat.find_spec hstops, fun fewer hlt => ?_⟩
  · have hle : Nat.find hstops ≤ q.input.size - m.position := Nat.find_min' hstops (.inr hend)
    omega
  · exact Bool.eq_false_iff.mpr fun hsettled => Nat.find_min hstops hlt (.inl hsettled)

namespace StopsAfter

theorem position_eq (h : m.StopsAfter q units) (hm : m.Sound q) (hle : fewer ≤ units) :
    (m.rested q fewer).position = m.position + fewer :=
  hm.position_rested (Nat.le_trans (Nat.add_le_add_left hle _) h.position_le)

/-- Before a scan stops, there is another unit. -/
theorem position_lt (h : m.StopsAfter q units) (hm : m.Sound q) (hlt : fewer < units) :
    (m.rested q fewer).position < q.input.size := by
  rw [h.position_eq hm (Nat.le_of_lt hlt)]
  exact Nat.lt_of_lt_of_le (Nat.add_lt_add_left hlt _) h.position_le

/-- The states at rest are those of a scan, up to the one in which it stops. -/
theorem scanning (h : m.StopsAfter q units) (hm : m.Sound q) (hle : fewer ≤ units) :
    Scanning q m (m.rested q fewer) := by
  induction fewer with
  | zero => exact Scanning.begin.drain
  | succ fewer ih =>
    have hlt := h.position_lt hm hle
    have hbefore := ih (Nat.le_of_succ_le hle)
    rw [rested, dif_pos hlt]
    exact (hbefore.read (isIdle_rested q m fewer) (h.reads fewer hle) hlt).drain

/-- **As long as its host lets it, a scan reads on** — and has polled it at the multiples of the
interval that it has come to. -/
theorem scan_eq_run (h : m.StopsAfter q units) (hm : m.Sound q) (hle : fewer ≤ units)
    (hproceeds : host.ProceedsTo (host.polls + (m.pollsWithin q fewer).length)) :
    m.scan q host = (m.rested q fewer).run q (host.polled (m.pollsWithin q fewer).length) := by
  induction fewer with
  | zero => rfl
  | succ fewer ih =>
    have hposition := h.position_eq hm (Nat.le_of_succ_le hle)
    have hlt := h.position_lt hm hle
    rw [pollsWithin, multiplesIn_succ, ← pollsWithin, List.length_append] at hproceeds ⊢
    generalize (m.pollsWithin q fewer).length = times at hproceeds ih ⊢
    have hbefore : host.ProceedsTo (host.polls + times) :=
      ⟨Nat.le_add_right _ _, fun n hn hn' => hproceeds.2 n hn (by omega)⟩
    rw [ih (Nat.le_of_succ_le hle) hbefore, rested, dif_pos hlt]
    refine run_of_proceed q (h.reads fewer hle) hlt ?_
    rw [Query.pollsAt_succ, hposition]
    by_cases hdvd : q.pollInterval ∣ m.position + fewer + 1
    · rw [if_pos hdvd] at hproceeds ⊢
      have hanswer : host.answer (host.polls + times) = .proceed :=
        hproceeds.2 _ (Nat.le_add_right _ _) (by simp)
      rw [decide_eq_true hdvd]
      exact Host.pollIf_of_proceed hanswer
    · rw [if_neg hdvd, decide_eq_false hdvd]
      rfl

/-- **A scan that its host lets go on to the end** stops there by itself. -/
theorem scan_of_proceeds (h : m.StopsAfter q units) (hm : m.Sound q)
    (hproceeds : host.ProceedsTo (host.polls + (m.pollsWithin q units).length)) :
    m.scan q host = (none, m.rested q units, host.polled (m.pollsWithin q units).length) := by
  rw [h.scan_eq_run hm (Nat.le_refl _) hproceeds]
  cases hsettled : (m.rested q units).isSettled with
  | true => exact run_of_settled q hsettled _
  | false =>
    have hend : m.position + units = q.input.size :=
      h.stops.resolve_left (Bool.eq_false_iff.mp hsettled)
    have hposition := h.position_eq hm (Nat.le_refl _)
    exact run_of_end q hsettled (by omega) _

theorem scanEnd_eq (h : m.StopsAfter q units) (hm : m.Sound q) :
    m.scanEnd q = m.position + units := by
  rw [scanEnd, h.scan_of_proceeds hm ⟨Nat.le_add_right _ _, fun _ _ _ => rfl⟩]
  exact h.position_eq hm (Nat.le_refl _)

theorem pollsDue_eq (h : m.StopsAfter q units) (hm : m.Sound q) :
    m.pollsDue q = m.pollsWithin q units := by
  rw [pollsDue, h.scanEnd_eq hm, Nat.add_sub_cancel_left]

/-- **The first answer that stops a scan leaves it as it was polled.** -/
theorem scan_of_stops (h : m.StopsAfter q units) (hm : m.Sound q) {i p : Nat}
    {error : SearchError} (hp : (m.pollsWithin q units)[i]? = some p)
    (hproceeds : host.ProceedsTo (host.polls + i))
    (hstops : (host.answer (host.polls + i)).Stops error) :
    m.scan q host = (some error, m.polledAt q p, host.polled (i + 1)) := by
  obtain ⟨before, hlt, rfl, hdvd, rfl⟩ := exists_of_getElem?_multiplesIn hp
  have hposition := h.position_eq hm (Nat.le_of_lt hlt)
  have hrests : m.restsAt q (m.position + before + 1 - 1) = m.rested q before := by
    rw [restsAt, Nat.add_sub_cancel, Nat.add_sub_cancel_left]
  rw [h.scan_eq_run hm (Nat.le_of_lt hlt) hproceeds, polledAt, hrests]
  refine run_of_interrupt q (h.reads before hlt) (h.position_lt hm hlt) ?_
  rw [Query.pollsAt_succ, hposition, decide_eq_true hdvd]
  exact Host.pollIf_of_stops hstops

end StopsAfter

/-! ## The schedule of a scan -/

/-- **A scan polls its host on schedule** — what its end is and which polls are due has nothing to
do with the host, and the answers decide only which of them is the last. -/
structure Scheduled (q : Query α) (m : Machine) (host : Host) : Prop where
  /-- The scan stops at the first position with a match and no thread that waits, or else at the end
  of the input. -/
  isLeast_scanEnd : IsLeast
    {p | m.position ≤ p ∧
      ((m.restsAt q p).best.isSome ∧ (m.restsAt q p).blocked = [] ∨ p = q.input.size)}
    (m.scanEnd q)
  /-- Up to there, the scan passes through the states at rest. -/
  passes : ∀ p, m.position ≤ p → p ≤ m.scanEnd q →
    Scanning q m (m.restsAt q p) ∧ (m.restsAt q p).position = p ∧ (m.restsAt q p).isIdle = true
  /-- A poll is due at every multiple of the interval behind the start, up to the end. -/
  mem_pollsDue : ∀ p, p ∈ m.pollsDue q ↔
    q.pollInterval ≠ 0 ∧ m.position < p ∧ p ≤ m.scanEnd q ∧ q.pollInterval ∣ p
  /-- The polls are in increasing order, so there are no two at one position. -/
  pairwise_pollsDue : (m.pollsDue q).Pairwise (· < ·)
  length_pollsDue : (m.pollsDue q).length =
    m.scanEnd q / q.pollInterval - m.position / q.pollInterval
  /-- When the host is polled at a position, no thread has run there. -/
  unvisited : ∀ p ∈ m.pollsDue q,
    (m.polledAt q p).position = p ∧ (m.polledAt q p).isIdle = true ∧
      ∀ pc consumed, ¬ (m.polledAt q p).visits.Has pc consumed p
  /-- If every answer lets the scan go on, all polls are made that are due, and no others. -/
  proceeds : host.ProceedsTo (host.polls + (m.pollsDue q).length) →
    m.scan q host = (none, m.restsAt q (m.scanEnd q),
      host.polled (m.pollsDue q).length)
  /-- The first other answer ends the scan, at the position of its poll. -/
  stops : ∀ i p error, (m.pollsDue q)[i]? = some p → host.ProceedsTo (host.polls + i) →
    (host.answer (host.polls + i)).Stops error →
    m.scan q host = (some error, m.polledAt q p, host.polled (i + 1))

theorem isSettled_iff : m.isSettled = true ↔ m.best.isSome ∧ m.blocked = [] := by
  simp [isSettled]

/-- **Every scan keeps to its schedule.** -/
theorem Sound.scheduled (h : m.Sound q) (host : Host) : m.Scheduled q host := by
  obtain ⟨units, hstops⟩ := h.exists_stopsAfter
  have hle := hstops.position_le
  have hend := hstops.scanEnd_eq h
  have hdue := hstops.pollsDue_eq h
  have hlast : m.restsAt q (m.scanEnd q) = m.rested q units := by
    rw [restsAt, hend, Nat.add_sub_cancel_left]
  have hpasses : ∀ p, m.position ≤ p → p ≤ m.scanEnd q →
      Scanning q m (m.restsAt q p) ∧ (m.restsAt q p).position = p ∧
        (m.restsAt q p).isIdle = true := by
    intro p hfrom hto
    refine ⟨hstops.scanning h (by omega), ?_, isIdle_rested q m _⟩
    rw [restsAt, h.position_rested (by omega), Nat.add_sub_cancel' hfrom]
  exact
    { isLeast_scanEnd := by
        refine ⟨⟨by omega, ?_⟩, ?_⟩
        · rw [hlast, hend, ← isSettled_iff]
          exact hstops.stops
        · rintro p ⟨hfrom, hsettled | rfl⟩
          · -- Before its end the scan is not settled.
            by_contra hlt
            have hunsettled := hstops.reads (p - m.position) (by omega)
            exact absurd (isSettled_iff.mpr hsettled) (Bool.eq_false_iff.mp hunsettled)
          · omega
      passes := hpasses
      mem_pollsDue := fun p => by
        rw [hdue, hend, pollsWithin, mem_multiplesIn]
        refine ⟨fun ⟨hlt, hto, hdvd⟩ => ⟨fun hzero => ?_, hlt, hto, hdvd⟩, fun hp => hp.2⟩
        rw [hzero, Nat.zero_dvd] at hdvd
        omega
      pairwise_pollsDue := pairwise_multiplesIn _ _ _
      length_pollsDue := by rw [hdue, hend, pollsWithin, length_multiplesIn]
      unvisited := fun p hp => by
        obtain ⟨hfrom, hto, -⟩ := mem_multiplesIn.mp (hdue ▸ hp)
        obtain ⟨hscanning, hposition, hidle⟩ := hpasses (p - 1) (by omega) (by omega)
        refine ⟨?_, hidle, (hscanning.upTo h).not_has (by omega)⟩
        change (m.restsAt q (p - 1)).position + 1 = p
        omega
      proceeds := fun hproceeds => by
        rw [hdue] at hproceeds ⊢
        rw [hlast]
        exact hstops.scan_of_proceeds h hproceeds
      stops := fun i p error hp hproceeds hanswer =>
        hstops.scan_of_stops h (hdue ▸ hp) hproceeds hanswer }

/-- The polls made in a scan. -/
def pollCount (q : Query α) (m : Machine) (host : Host) : Nat :=
  (m.scan q host).2.2.polls - host.polls

theorem polls_scan (q : Query α) (m : Machine) (host : Host) :
    (m.scan q host).2.2.polls = host.polls + m.pollCount q host := by
  have hle : host.polls ≤ (m.scan q host).2.2.polls := by
    rw [scan]
    rcases run_permits_or_refuses q ((m.beginScan q).drain q) host with
      ⟨last, later, hrun, ⟨n, hn, rfl⟩, -⟩ | ⟨error, last, later, hrun, ⟨n, hn, -, rfl⟩⟩
    · rw [hrun]
      exact hn.1
    · rw [hrun]
      exact Nat.le_succ_of_le hn.1
  exact (Nat.add_sub_cancel' hle).symm

/-- **A scan that is not interrupted makes every poll that is due.** -/
theorem Sound.pollCount_eq (h : m.Sound q) (hproceeds :
    host.ProceedsTo (host.polls + (m.pollsDue q).length)) :
    m.pollCount q host = m.scanEnd q / q.pollInterval - m.position / q.pollInterval := by
  have hscheduled := h.scheduled host
  rw [pollCount, hscheduled.proceeds hproceeds, ← hscheduled.length_pollsDue]
  exact Nat.add_sub_cancel_left ..

end Machine

/-! ## The polls of a call -/

namespace Search

variable {α : Type} [CodeUnit α] {q : Query α} {s : Search} {host : Host}

/-- The scans that are made in order to find several matches: the machine with which each begins,
and the host that it polls. -/
def scansOf (q : Query α) (limit : Nat) (s : Search) (host : Host) : List (Machine × Host) :=
  ((s.asksOf q limit host).filter (!·.1.finished)).map fun ask => (ask.1.machine, ask.2)

theorem polls_next (hgoing : s.finished = false) (host : Host) :
    (s.next q host).2.2.polls = host.polls + s.machine.pollCount q host := by
  have hpolls := Machine.polls_scan q s.machine host
  rcases hscan : s.machine.scan q host with ⟨_ | error, m, later⟩
  · rw [hscan] at hpolls
    rw [next_of_scan hgoing hscan]
    exact hpolls
  · rw [hscan] at hpolls
    rw [next_of_error hgoing hscan]
    exact hpolls

theorem scansOf_of_finished (h : s.finished = true) (limit : Nat) (host : Host) :
    s.scansOf q limit host = [] := by
  cases limit with
  | zero => rfl
  | succ limit => simp [scansOf, asksOf, next_of_finished h, h]

theorem scansOf_of_found {s' : Search} {later : Host} {registers : Registers}
    (hgoing : s.finished = false) (hnext : s.next q host = (.ok (some registers), s', later))
    (limit : Nat) :
    s.scansOf q (limit + 1) host = (s.machine, host) :: s'.scansOf q limit later := by
  simp [scansOf, asksOf, hnext, hgoing]

theorem scansOf_of_ended (hgoing : s.finished = false)
    (hnone : ∀ registers, (s.next q host).1 ≠ .ok (some registers)) (limit : Nat) :
    s.scansOf q (limit + 1) host = [(s.machine, host)] := by
  rcases hnext : s.next q host with ⟨error | _ | registers, s', later⟩
  · simp [scansOf, asksOf, hnext, hgoing]
  · simp [scansOf, asksOf, hnext, hgoing]
  · exact absurd (congrArg Prod.fst hnext) (hnone registers)

/-- **The polls of a call are those of its scans.** -/
theorem polls_collect (q : Query α) (limit : Nat) (s : Search) (host : Host) :
    (collect q limit s host).2.2.polls =
      host.polls + ((s.scansOf q limit host).map fun scan => scan.1.pollCount q scan.2).sum := by
  induction limit generalizing s host with
  | zero => rfl
  | succ limit ih =>
    cases hfinished : s.finished with
    | true =>
      rw [collect_of_finished hfinished, scansOf_of_finished hfinished]
      rfl
    | false =>
      have hfirst := polls_next (q := q) hfinished host
      by_cases hfound : ∃ registers, (s.next q host).1 = .ok (some registers)
      · obtain ⟨registers, hnext⟩ := hfound
        have heq : s.next q host = (.ok (some registers), (s.next q host).2) := Prod.ext hnext rfl
        rw [collect_of_found heq rfl, scansOf_of_found hfinished heq, List.map_cons, List.sum_cons,
          ← Nat.add_assoc, ← hfirst]
        exact ih _ _
      · rw [collect_of_ended (not_exists.mp hfound), scansOf_of_ended hfinished
          (not_exists.mp hfound), List.map_singleton, List.sum_singleton, ← hfirst]

/-- **Every scan of a call keeps to its schedule**, and under a host that never interrupts it makes
every poll that is due. -/
theorem scheduled_of_mem_scansOf (h : s.machine.Sound q) (limit : Nat) (host : Host) :
    ∀ scan ∈ s.scansOf q limit host, scan.1.Scheduled q scan.2 ∧
      (host.IsQuiet → scan.1.pollCount q scan.2 =
        scan.1.scanEnd q / q.pollInterval - scan.1.position / q.pollInterval) := by
  induction limit generalizing s host with
  | zero => simp [scansOf, asksOf]
  | succ limit ih =>
    have hone : s.machine.Scheduled q host ∧ (host.IsQuiet → s.machine.pollCount q host =
        s.machine.scanEnd q / q.pollInterval - s.machine.position / q.pollInterval) :=
      ⟨h.scheduled host, fun hquiet =>
        h.pollCount_eq ⟨Nat.le_add_right _ _, fun n _ _ => hquiet n⟩⟩
    cases hfinished : s.finished with
    | true => simp [scansOf_of_finished hfinished]
    | false =>
      by_cases hfound : ∃ registers, (s.next q host).1 = .ok (some registers)
      · obtain ⟨registers, hnext⟩ := hfound
        rw [scansOf_of_found hfinished (Prod.ext hnext rfl)]
        refine List.forall_mem_cons.mpr ⟨hone, fun scan hscan => ?_⟩
        obtain ⟨hscheduled, hcount⟩ := ih (sound_next h host) _ scan hscan
        exact ⟨hscheduled, fun hquiet => hcount (quiet_next hquiet q s)⟩
      · rw [scansOf_of_ended hfinished (not_exists.mp hfound)]
        exact List.forall_mem_singleton.mpr hone

/-- **A scan that finds nothing polls its host up to the end of the input**, no matter when its last
thread has ended. -/
theorem polls_next_of_none (h : s.machine.Sound q) (hgoing : s.finished = false)
    (hnone : (s.next q host).1 = .ok none) :
    (s.next q host).2.2.polls =
      host.polls + (q.input.size / q.pollInterval - s.position / q.pollInterval) := by
  have hscheduled := h.scheduled host
  rcases host.proceedsTo_or_stops (s.machine.pollsDue q).length with
    hproceeds | ⟨i, hlt, hproceeds, error, hstops⟩
  · have hscan := hscheduled.proceeds hproceeds
    -- Without a match the scan stops at the end of the input only.
    have hend : s.machine.scanEnd q = q.input.size := by
      refine hscheduled.isLeast_scanEnd.1.2.resolve_left ?_
      rintro ⟨hbest, -⟩
      obtain ⟨registers, hregisters⟩ := Option.isSome_iff_exists.mp hbest
      rw [next_of_scan hgoing hscan] at hnone
      rcases hspan : registers.span?.filter (·.stop ≤ q.input.size) with _ | span
      · simp [conclude_of_malformed hregisters hspan] at hnone
      · simp [conclude_of_span hregisters hspan] at hnone
    rw [polls_next hgoing, h.pollCount_eq hproceeds, hend]
    rfl
  · have hscan := hscheduled.stops i _ error (List.getElem?_eq_getElem hlt) hproceeds hstops
    rw [next_of_error hgoing hscan] at hnone
    cases hnone

/-- **The host is polled on schedule** — whatever the program, the input, the start, the interval
and the hosts.

* In every scan of every call, the host is polled once at each multiple of the interval behind the
  start of the scan, up to the position where it stops, in increasing order and before a thread runs
  there. The first answer that does not let the scan go on ends it there.
* A search without a match has one scan, which polls up to the end of the input.
* The polls of a call are those of its scans. If they are not interrupted, each polls as often as
  there are multiples between its start and its end. -/
theorem polls_on_schedule (q : Query α) (position : Nat) (calls : List Call) :
    let s := start q position
    let s' := s.after q calls
    let interval := q.pollInterval
    (∀ limit host, ∀ scan ∈ s'.scansOf q limit host, scan.1.Scheduled q scan.2) ∧
      (position ≤ q.input.size → ∀ host, (s.next q host).1 = .ok none →
        let polls := host.polls + (q.input.size / interval - position / interval)
        (s.next q host).2.2.polls = polls ∧
          (∀ output : Array (Option Nat), q.registerCount ≤ output.size →
            (s.fill q host output).2.2.2.polls = polls) ∧
          ∀ later limit again, ((s.next q host).2.1.after q later).scansOf q limit again = []) ∧
      ∀ host output,
        let scans := s'.scansOf q (output.size / q.registerCount) host
        (s'.fill q host output).2.2.2.polls =
            host.polls + (scans.map fun scan => scan.1.pollCount q scan.2).sum ∧
          (host.IsQuiet → (s'.fill q host output).2.2.2.polls = host.polls +
            (scans.map fun scan =>
              scan.1.scanEnd q / interval - scan.1.position / interval).sum) := by
  intro s s' interval
  have hsound : s'.machine.Sound q := sound_after (sound_start q position) calls
  refine ⟨fun limit host scan hscan => (scheduled_of_mem_scansOf hsound limit host scan hscan).1,
    fun hin host hnone => ?_, fun host output => ?_⟩
  · have hgoing : s.finished = false := decide_eq_false (Nat.not_lt.mpr hin)
    have hposition : s.position = position := Nat.min_eq_left hin
    have hpolls := polls_next_of_none (sound_start q position) hgoing hnone
    rw [hposition] at hpolls
    refine ⟨hpolls, fun output hroom => ?_, fun later limit again => ?_⟩
    · obtain ⟨limit, hlimit⟩ : ∃ limit, output.size / q.registerCount = limit + 1 :=
        Nat.exists_eq_add_one.mpr (Nat.div_pos hroom (Nat.lt_of_lt_of_le Nat.two_pos
          q.two_le_registerCount))
      rw [fill, hlimit, collect_of_none (Prod.ext hnone rfl)]
      exact hpolls
    · have hfinished : (s.next q host).2.1.finished = true :=
        finished_of_next fun registers => by simp [hnone]
      rw [(replies_of_finished hfinished later).2, scansOf_of_finished hfinished]
  · intro scans
    have hsum : (s'.fill q host output).2.2.2.polls =
        host.polls + (scans.map fun scan => scan.1.pollCount q scan.2).sum :=
      polls_collect q _ s' host
    refine ⟨hsum, fun hquiet => ?_⟩
    have hcounts : scans.map (fun scan => scan.1.pollCount q scan.2) =
        scans.map fun scan => scan.1.scanEnd q / interval - scan.1.position / interval :=
      List.map_congr_left fun scan hscan =>
        (scheduled_of_mem_scansOf hsound _ host scan hscan).2 hquiet
    rw [hsum, hcounts]

/-- The expression `abc|a` on `aabbbbb`, under a host that is polled at every second position. -/
def polledAtEven : Query UInt8 :=
  { longOrShort with
    input := #[0x61, 0x61, 0x62, 0x62, 0x62, 0x62, 0x62]
    pollInterval := 2 }

/-- The first two scans match `a` and read on for `abc`, so both are polled at position 2. The third
one starts there, and is not; its threads end at once, and it is polled up to the end. A host that
stops the second poll of the second scan does so at position 4. -/
theorem polls_on_schedule_abc_or_a :
    let s := start polledAtEven 0
    let last := start polledAtEven 2
    let scan := (start polledAtEven 1).machine.scan polledAtEven (.ofAnswers #[.proceed, .yield])
    (s.scansOf polledAtEven 3 .quiet).map (fun scan => (scan.1.position,
        scan.1.pollsDue polledAtEven)) = [(0, [2]), (1, [2, 4]), (2, [4, 6])] ∧
      (s.fill polledAtEven .quiet (.replicate 6 none)).2.2.2.polls = 5 ∧
      (last.next polledAtEven .quiet).1 = .ok none ∧
      (last.next polledAtEven .quiet).2.2.polls = 7 / 2 - 2 / 2 ∧
      scan.1 = some .retry ∧ scan.2.1.position = 4 ∧ scan.2.2.polls = 2 := by
  intro s last scan
  obtain ⟨-, -, hfill⟩ := polls_on_schedule polledAtEven 0 []
  obtain ⟨hscheduled, -, -⟩ := polls_on_schedule polledAtEven 1 []
  obtain ⟨-, hnothing, -⟩ := polls_on_schedule polledAtEven 2 []
  have hscans : (s.scansOf polledAtEven 3 .quiet).map (fun scan => (scan.1.position,
      scan.1.pollsDue polledAtEven)) = [(0, [2]), (1, [2, 4]), (2, [4, 6])] := by cbv
  have hcounts : (s.scansOf polledAtEven 3 .quiet).map (fun scan =>
      scan.1.scanEnd polledAtEven / 2 - scan.1.position / 2) = [1, 2, 2] := by cbv
  have hpolls : (s.fill polledAtEven .quiet (.replicate 6 none)).2.2.2.polls =
      0 + ((s.scansOf polledAtEven 3 .quiet).map fun scan =>
        scan.1.scanEnd polledAtEven / 2 - scan.1.position / 2).sum :=
    (hfill .quiet (.replicate 6 none)).2 fun _ => rfl
  have hnone : (last.next polledAtEven .quiet).1 = .ok none := by cbv
  -- The host is asked at position 2, and stops the search when it is asked again.
  let host : Host := .ofAnswers #[.proceed, .yield]
  have hmem : ((start polledAtEven 1).machine, host) ∈
      (start polledAtEven 1).scansOf polledAtEven 1 host :=
    List.mem_map_of_mem (List.mem_filter.mpr ⟨List.mem_cons_self, rfl⟩)
  have hschedule := hscheduled 1 host _ hmem
  have hdue : ((start polledAtEven 1).machine.pollsDue polledAtEven)[1]? = some 4 := by cbv
  have hstopped : scan = _ :=
    hschedule.stops 1 4 .retry hdue ((Host.ProceedsTo.refl host).succ rfl) .yield
  have hposition := (hschedule.unvisited 4 (List.mem_of_getElem? hdue)).1
  refine ⟨hscans, by rw [hpolls, hcounts]; rfl, hnone,
    (hnothing (by decide) .quiet hnone).1.trans (Nat.zero_add _), ?_⟩
  rw [hstopped]
  exact ⟨rfl, hposition, rfl⟩

end Search

end RegexMachine
