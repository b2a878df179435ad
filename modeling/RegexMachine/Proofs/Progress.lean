import Mathlib.Data.List.Perm.Subperm
import RegexMachine.Proofs.Bounds
import RegexMachine.Proofs.Positions

/-!
# Proofs/Progress — matches are in order and apart, and there are finitely many

Asked for a match, a search does one of three things (`Search.Asking`): nothing, if it is finished;
it scans and finishes; or it scans, finds a match that begins in the scan, and goes on behind it. So
each scan begins behind the one before, and each match behind all matches before
(`Asked.exists_spans`, `Asked.starts_in_order`). There are no more scans and no more matches than
positions, from the start of the search to the end of the input (`matches_in_order`).
-/

namespace RegexMachine

/-- The first position at which the next match may begin. -/
def Span.past (m : Span) : Nat := if m.isEmpty then m.stop + 1 else m.stop

theorem Span.start_lt_past {m : Span} (h : m.start ≤ m.stop) : m.start < m.past := by
  rw [past]
  split
  · exact Nat.lt_succ_of_le h
  · next hne =>
    rw [isEmpty, beq_iff_eq] at hne
    exact Nat.lt_of_le_of_ne h hne

/-! ## One scan more -/

namespace Machine

variable {α : Type}

@[simp] theorem scans_feed (q : Query α) (unit : UInt16) (m : Machine) :
    (m.feed q unit).stats.scans = m.stats.scans := by
  obtain ⟨pool, hpool⟩ := feed_eq q unit m
  rw [hpool]

variable [CodeUnit α] {q : Query α} {m₀ m : Machine}

@[simp] theorem scans_step (q : Query α) (m : Machine) :
    (m.step q).stats.scans = m.stats.scans := by
  unfold step execute
  repeat' split
  all_goals rfl

/-- All through a scan it counts as one. -/
theorem Scanning.scans_eq (h : Scanning q m₀ m) (h₀ : m₀.Sound q) :
    m.stats.scans = m₀.stats.scans + 1 := by
  induction h with
  | begin =>
    obtain ⟨pool, -, heq⟩ := h₀.beginScan_eq
    rw [heq]
  | step _ ih => rw [scans_step, ih]
  | read _ _ _ _ ih =>
    rw [Machine.read, scans_feed]
    exact ih

theorem Sound.scans_scan (h : m.Sound q) (host : Host) :
    (m.scan q host).2.1.stats.scans = m.stats.scans + 1 := by
  have hend := Scanning.scan q m host
  split at hend
  · next last host' heq =>
    rw [heq]
    exact hend.1.scans_eq h
  · next error last host' heq =>
    obtain ⟨before, hbefore, -, -, rfl⟩ := hend
    rw [heq]
    exact hbefore.scans_eq h

end Machine

/-! ## What asking once can come to -/

namespace Search

variable {α : Type}

/-- **What asking a search for a match can come to** — the outcome, and the search after it. -/
inductive Asking (q : Query α) (s : Search) : Outcome → Search → Prop
  | idle (h : s.finished = true) : Asking q s (.ok none) s
  | ends {outcome : Outcome} {s' : Search} (h : s.finished = false)
    (hnone : ∀ registers, outcome ≠ .ok (some registers)) (hends : s'.finished = true)
    (hscans : s'.stats.scans = s.stats.scans + 1) : Asking q s outcome s'
  | finds {registers : Registers} {m : Span} {s' : Search} (h : s.finished = false)
    (hbounds : registers.position? 0 = some m.start ∧ registers.position? 1 = some m.stop)
    (hstart : s.position ≤ m.start) (hle : m.start ≤ m.stop) (hstop : m.stop ≤ q.input.size)
    (hgoes : s'.finished = true ∨
      s'.finished = false ∧ s'.position = m.past ∧ m.past ≤ q.input.size)
    (hscans : s'.stats.scans = s.stats.scans + 1) : Asking q s (.ok (some registers)) s'

variable {q : Query α} {s s' : Search}

theorem span?_eq_some {registers : Registers} {m : Span} (h : registers.span? = some m) :
    (registers.position? 0 = some m.start ∧ registers.position? 1 = some m.stop) ∧
      m.start ≤ m.stop := by
  rw [Registers.span?] at h
  rcases hstart : registers.position? 0 with _ | start
  · rw [hstart] at h
    simp [Span.ofRegisters?] at h
  · rcases hstop : registers.position? 1 with _ | stop
    · rw [hstart, hstop] at h
      simp [Span.ofRegisters?] at h
    · rw [hstart, hstop] at h
      obtain ⟨hle, heq⟩ := Option.ite_none_right_eq_some.mp h
      obtain rfl := Option.some.inj heq
      exact ⟨⟨rfl, rfl⟩, hle⟩

/-- Behind a match the search goes on, unless the match is empty and at the end of the input. -/
theorem passMatch_goes {m : Machine} {span : Span} (hstop : span.stop ≤ q.input.size) :
    (passMatch q m span).finished = true ∨ (passMatch q m span).finished = false ∧
      (passMatch q m span).position = span.past ∧ span.past ≤ q.input.size := by
  rcases hempty : span.isEmpty with _ | _
  · exact .inr (by simp [passMatch, position, Span.past, hempty, hstop])
  · rcases Nat.lt_or_eq_of_le hstop with hlt | hend
    · exact .inr (by simp [passMatch, position, Span.past, hempty, Nat.ne_of_lt hlt,
        Nat.succ_le_of_lt hlt])
    · exact .inl (by simp [passMatch, hempty, hend])

theorem asking_conclude {m : Machine} (hgoing : s.finished = false)
    (hscans : m.stats.scans = s.stats.scans + 1)
    (hwithin : ∀ registers ∈ m.best, registers.Within s.position q.input.size) :
    Asking q s (conclude q m).1 (conclude q m).2 := by
  rcases hbest : m.best with _ | registers
  · rw [conclude_of_none hbest]
    exact .ends hgoing (by simp) rfl hscans
  · rcases hspan : registers.span?.filter (·.stop ≤ q.input.size) with _ | span
    · rw [conclude_of_malformed hbest hspan]
      exact .ends hgoing (by simp) rfl hscans
    · obtain ⟨hsome, hstop⟩ := Option.filter_eq_some_iff.mp hspan
      obtain ⟨hbounds, hle⟩ := span?_eq_some hsome
      have hstop : span.stop ≤ q.input.size := by simpa using hstop
      have hstart := (hwithin registers hbest).of_position? hbounds.1
      rw [conclude_of_span hbest hspan]
      exact .finds hgoing hbounds hstart.1 hle hstop (passMatch_goes hstop) hscans

variable [CodeUnit α]

/-- **Every call does one of these.** -/
theorem asking_next (h : s.machine.Sound q) (host : Host) :
    Asking q s (s.next q host).1 (s.next q host).2.1 := by
  rcases hfinished : s.finished with _ | _
  · have hscans := h.scans_scan host
    have hwithin : (s.machine.scan q host).1 = none →
        ∀ registers ∈ (s.machine.scan q host).2.1.best,
          registers.Within s.position q.input.size :=
      fun hnone registers hbest => h.within_of_scan hnone hbest
    rcases hscan : s.machine.scan q host with ⟨_ | error, m, host'⟩
    · rw [hscan] at hscans hwithin
      rw [next_of_scan hfinished hscan]
      exact asking_conclude hfinished hscans (hwithin rfl)
    · rw [hscan] at hscans
      rw [next_of_error hfinished hscan]
      exact .ends hfinished (by simp) rfl hscans
  · rw [next_of_finished hfinished]
    exact .idle hfinished

/-! ## A search that is asked again and again -/

/-- One time a search is asked for a match. -/
structure Attempt where
  /-- Where a scan began, if there was one. -/
  scanStart? : Option Nat
  outcome : Outcome

/-- The registers of the match that was found, if one was. -/
def Attempt.found? (a : Attempt) : Option Registers :=
  match a.outcome with
  | .ok found => found
  | .error _ => none

/-- Asking a search for a match. -/
def attempt (q : Query α) (s : Search) (host : Host) : Attempt where
  scanStart? := if s.finished then none else some s.position
  outcome := (s.next q host).1

/-- How often, and with what outcome, a search is asked in order to find several matches. -/
def attemptsOf (q : Query α) : Nat → Search → Host → List Attempt
  | 0, _, _ => []
  | limit + 1, s, host =>
    s.attempt q host ::
      match s.next q host with
      | (.ok (some _), s, host) => attemptsOf q limit s host
      | _ => []

/-- **The history of a search** under a series of calls. -/
def history (q : Query α) (s : Search) : List Call → List Attempt
  | [] => []
  | .next host :: calls => s.attempt q host :: history q (s.perform q (.next host)) calls
  | .fill host output :: calls =>
    s.attemptsOf q (output.size / q.registerCount) host ++
      history q (s.perform q (.fill host output)) calls

/-- The matches of a history. -/
def found (history : List Attempt) : List Registers := history.filterMap Attempt.found?

/-- Where the scans of a history began. -/
def scanStarts (history : List Attempt) : List Nat := history.filterMap Attempt.scanStart?

/-- A batch holds the matches of its part of the history. -/
theorem found_attemptsOf (limit : Nat) (s : Search) (host : Host) :
    (collect q limit s host).1.found = found (attemptsOf q limit s host) := by
  induction limit generalizing s host with
  | zero => rfl
  | succ limit ih =>
    rw [collect, attemptsOf, found, List.filterMap_cons, attempt]
    rcases hnext : s.next q host with ⟨error | _ | registers, s', host'⟩
    · rfl
    · rfl
    · exact congrArg (registers :: ·) (ih s' host')

/-- **Asked for matches as a history tells, one search becomes another.** -/
inductive Asked (q : Query α) : Search → List Attempt → Search → Prop
  | nil {s : Search} : Asked q s [] s
  | cons {s s' : Search} {rest : List Attempt} (host : Host)
    (h : Asked q (s.next q host).2.1 rest s') : Asked q s (s.attempt q host :: rest) s'

theorem Asked.append {s₁ s₂ s₃ : Search} {before behind : List Attempt}
    (h : Asked q s₁ before s₂) (h' : Asked q s₂ behind s₃) :
    Asked q s₁ (before ++ behind) s₃ := by
  induction h with
  | nil => exact h'
  | cons host _ ih => exact .cons host (ih h')

theorem asked_attemptsOf (limit : Nat) (s : Search) (host : Host) :
    Asked q s (attemptsOf q limit s host) (collect q limit s host).2.1 := by
  induction limit generalizing s host with
  | zero => exact .nil
  | succ limit ih =>
    rw [collect, attemptsOf]
    have hone : Asked q s [s.attempt q host] (s.next q host).2.1 := .cons host .nil
    rcases hnext : s.next q host with ⟨error | _ | registers, s', host'⟩
    · rwa [hnext] at hone
    · rwa [hnext] at hone
    · rw [hnext] at hone
      exact hone.append (ih s' host')

/-- **Every call asks for matches, and does nothing else.** -/
theorem asked_history (s : Search) (calls : List Call) :
    Asked q s (s.history q calls) (s.after q calls) := by
  induction calls generalizing s with
  | nil => exact .nil
  | cons call calls ih =>
    cases call with
    | next host => exact .cons host (ih _)
    | fill host output => exact (asked_attemptsOf _ s host).append (ih _)

/-! ## What a history tells -/

section Asked

variable {history : List Attempt}

/-- A search that is finished finds no more, and makes no more scans. -/
theorem Asked.of_finished (h : Asked q s history s') (hfinished : s.finished = true) :
    found history = [] ∧ scanStarts history = [] ∧ s' = s := by
  induction h with
  | nil => exact ⟨rfl, rfl, rfl⟩
  | @cons s s' rest host h ih =>
    have hnext := next_of_finished (q := q) hfinished host
    rw [hnext] at ih
    obtain ⟨hfound, hstarts, heq⟩ := ih hfinished
    refine ⟨?_, ?_, heq⟩
    · simpa [found, Attempt.found?, attempt, hnext] using hfound
    · simpa [scanStarts, attempt, hfinished] using hstarts

theorem found_cons (host : Host) :
    found (s.attempt q host :: history) =
      (s.attempt q host).found?.toList ++ found history := by
  rw [found, List.filterMap_cons]
  cases (s.attempt q host).found? <;> rfl

theorem scanStarts_cons (host : Host) :
    scanStarts (s.attempt q host :: history) =
      (if s.finished then [] else [s.position]) ++ scanStarts history := by
  rw [scanStarts, List.filterMap_cons, attempt]
  cases s.finished <;> rfl

/-- **Each match begins behind all matches before.** -/
theorem Asked.exists_spans (h : Asked q s history s') (hs : s.machine.Sound q) :
    ∃ spans : List Span,
      (found history).map (fun registers => (registers.position? 0, registers.position? 1)) =
          spans.map (fun m => (some m.start, some m.stop)) ∧
        (∀ m ∈ spans, s.position ≤ m.start ∧ m.start ≤ m.stop ∧ m.stop ≤ q.input.size) ∧
        spans.Pairwise fun m m' => m.past ≤ m'.start := by
  induction h with
  | nil => exact ⟨[], rfl, by simp, .nil⟩
  | @cons s s' rest host h ih =>
    have hrest := ih (sound_next hs host)
    have hask := asking_next hs host
    rw [found_cons, Attempt.found?, attempt]
    generalize (s.next q host).1 = outcome, (s.next q host).2.1 = s₁ at *
    cases hask with
    | idle => exact hrest
    | ends _ hnone hends =>
      rw [(h.of_finished hends).1]
      refine ⟨[], ?_, by simp, .nil⟩
      rcases outcome with error | _ | registers
      · rfl
      · rfl
      · exact absurd rfl (hnone registers)
    | @finds registers m _ _ hbounds hstart hle hstop hgoes =>
      rcases hgoes with hends | ⟨-, hposition, -⟩
      · rw [(h.of_finished hends).1]
        exact ⟨[m], by simp [hbounds], by simp [hstart, hle, hstop], List.pairwise_singleton _ _⟩
      · obtain ⟨spans, hspans, hwithin, hordered⟩ := hrest
        rw [hposition] at hwithin
        have hpast := Span.start_lt_past hle
        refine ⟨m :: spans, by simp [hbounds, hspans], fun m' hm' => ?_,
          List.pairwise_cons.mpr ⟨fun m' hm' => (hwithin m' hm').1, hordered⟩⟩
        rcases List.mem_cons.mp hm' with rfl | hm'
        · exact ⟨hstart, hle, hstop⟩
        · have hbehind := (hwithin m' hm').1
          exact ⟨by omega, (hwithin m' hm').2⟩

/-- **Each scan begins behind the scan before**, and the search counts them all. -/
theorem Asked.starts_in_order (h : Asked q s history s') (hs : s.machine.Sound q) :
    (∀ position ∈ scanStarts history, s.position ≤ position ∧ position ≤ q.input.size) ∧
      (scanStarts history).Pairwise (· < ·) ∧
      s'.stats.scans = s.stats.scans + (scanStarts history).length := by
  induction h with
  | nil => exact ⟨by simp [scanStarts], .nil, rfl⟩
  | @cons s s' rest host h ih =>
    have hrest := ih (sound_next hs host)
    have hask := asking_next hs host
    have hle : s.position ≤ q.input.size := hs.position_le
    rw [scanStarts_cons]
    generalize (s.next q host).1 = outcome, (s.next q host).2.1 = s₁ at *
    -- A search that goes on after its scan does so further on.
    have hone : s.finished = false → s₁.stats.scans = s.stats.scans + 1 →
        (∀ position ∈ scanStarts rest, s.position < position ∧ position ≤ q.input.size) →
        (∀ position ∈ [s.position] ++ scanStarts rest,
            s.position ≤ position ∧ position ≤ q.input.size) ∧
          ([s.position] ++ scanStarts rest).Pairwise (· < ·) ∧
          s'.stats.scans = s.stats.scans + ([s.position] ++ scanStarts rest).length := by
      intro hgoing hscans hbehind
      refine ⟨fun position hmem => ?_, List.pairwise_cons.mpr ⟨fun position hmem =>
        (hbehind position hmem).1, hrest.2.1⟩, ?_⟩
      · rcases List.mem_cons.mp hmem with rfl | hmem
        · exact ⟨Nat.le_refl _, hle⟩
        · exact ⟨Nat.le_of_lt (hbehind position hmem).1, (hbehind position hmem).2⟩
      · rw [hrest.2.2, hscans, List.length_append, List.length_singleton]
        omega
    cases hask with
    | idle hfinished =>
      rw [if_pos hfinished]
      exact hrest
    | ends hgoing _ hends hscans =>
      rw [if_neg (Bool.eq_false_iff.mp hgoing)]
      refine hone hgoing hscans ?_
      rw [(h.of_finished hends).2.1]
      simp
    | @finds registers m _ hgoing _ hstart hle _ hgoes hscans =>
      rw [if_neg (Bool.eq_false_iff.mp hgoing)]
      refine hone hgoing hscans fun position hmem => ?_
      rcases hgoes with hends | ⟨-, hposition, -⟩
      · rw [(h.of_finished hends).2.1] at hmem
        simp at hmem
      · have hbehind := hrest.1 position hmem
        have hpast := Span.start_lt_past hle
        rw [hposition] at hbehind
        exact ⟨by omega, hbehind.2⟩

end Asked

/-! ## All matches of a search -/

/-- There are not more different numbers between two bounds than there is room for. -/
theorem length_le_of_pairwise_lt {numbers : List Nat} {low high : Nat}
    (hordered : numbers.Pairwise (· < ·)) (hbounds : ∀ n ∈ numbers, low ≤ n ∧ n ≤ high) :
    numbers.length ≤ high + 1 - low := by
  have hnodup : numbers.Nodup := hordered.imp Nat.ne_of_lt
  have hsub : numbers ⊆ List.range' low (high + 1 - low) := fun n hn => by
    have := hbounds n hn
    rw [List.mem_range'_1]
    omega
  simpa using (hnodup.subperm hsub).length_le

/-- **Matches are in order and apart, and there are finitely many** — whatever the program writes
into registers 0 and 1, and whatever the hosts answer.

* Every match has bounds; it begins at or behind the start of the search and ends in the input. It
  begins behind the end of every match before, and one unit further if that was empty.
* Every scan begins behind the beginning of the scan before, and the search counts all scans.
* There are no more scans and no more matches than positions from the start of the search on, and
  none at all if the start is past the end of the input. -/
theorem matches_in_order (q : Query α) (position : Nat) (calls : List Call) :
    let s := start q position
    let history := s.history q calls
    ∃ spans : List Span,
      (found history).map (fun registers => (registers.position? 0, registers.position? 1)) =
          spans.map (fun m => (some m.start, some m.stop)) ∧
        (∀ m ∈ spans, position ≤ m.start ∧ m.start ≤ m.stop ∧ m.stop ≤ q.input.size) ∧
        (spans.Pairwise fun m m' => m.past ≤ m'.start) ∧
        (spans.map Span.start).Pairwise (· < ·) ∧
        (scanStarts history).Pairwise (· < ·) ∧
        (∀ p ∈ scanStarts history, position ≤ p ∧ p ≤ q.input.size) ∧
        (s.after q calls).stats.scans = (scanStarts history).length ∧
        (scanStarts history).length ≤ q.input.size + 1 - position ∧
        (found history).length ≤ q.input.size + 1 - position := by
  intro s history
  have hsound : s.machine.Sound q := sound_start q position
  have hasked : Asked q s history (s.after q calls) := asked_history s calls
  obtain ⟨spans, hspans, hwithin, hordered⟩ := hasked.exists_spans hsound
  obtain ⟨hscans, hbehind, hcount⟩ := hasked.starts_in_order hsound
  rcases Nat.lt_or_ge q.input.size position with hout | hin
  · -- The search is finished from the beginning.
    obtain ⟨hfound, hstarts, -⟩ := hasked.of_finished (decide_eq_true hout)
    rw [hfound] at hspans
    obtain rfl : spans = [] := List.map_eq_nil_iff.mp hspans.symm
    rw [hstarts] at hcount ⊢
    rw [hfound]
    exact ⟨[], rfl, by simp, .nil, .nil, .nil, by simp, hcount, Nat.zero_le _, Nat.zero_le _⟩
  · have hstart : s.position = position := Nat.min_eq_left hin
    rw [hstart] at hwithin hscans
    have hbegins : (spans.map Span.start).Pairwise (· < ·) := by
      refine List.pairwise_map.mpr (hordered.imp_of_mem fun hm _ hle => ?_)
      exact Nat.lt_of_lt_of_le (Span.start_lt_past (hwithin _ hm).2.1) hle
    have hmatches : ∀ p ∈ spans.map Span.start, position ≤ p ∧ p ≤ q.input.size := by
      intro p hp
      obtain ⟨m, hm, rfl⟩ := List.mem_map.mp hp
      obtain ⟨hlow, hle, hhigh⟩ := hwithin m hm
      exact ⟨hlow, Nat.le_trans hle hhigh⟩
    have hlength : (found history).length = (spans.map Span.start).length := by
      simpa using congrArg List.length hspans
    refine ⟨spans, hspans, hwithin, hordered, hbegins, hbehind, hscans,
      hcount.trans (Nat.zero_add _), length_le_of_pairwise_lt hbehind hscans, ?_⟩
    rw [hlength]
    exact length_le_of_pairwise_lt hbegins hmatches

end Search

end RegexMachine
