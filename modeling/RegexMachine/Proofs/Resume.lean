import Mathlib
import RegexMachine.Proofs.Bounds

/-!
# Proofs/Resume — a search that goes on is a search that begins there

A scan leaves threads, marks, a match and used arrays behind. The next one clears all of them away
but the pool, and from the pool only blank arrays and copies are taken. So two machines that differ
in their pool and their counters only (`Machine.Alike`) do the same, and two searches that are at
the same position do the same (`Search.Level`), whatever they have done before.

In particular a search that has found a match and goes on is as good as new (`replies_resumed`).
-/

namespace RegexMachine

/-! ## Machines that do the same -/

namespace Machine

/-- **Two machines are alike** if they differ in the pool and the counters only. The second one has
run some steps and begun some scans more than the first. -/
def Alike (steps scans : Nat) (m m' : Machine) : Prop :=
  ∃ pool stats, m' = { m with pool, stats } ∧ stats.steps = m.stats.steps + steps ∧
    stats.scans = m.stats.scans + scans

namespace Alike

variable {α : Type} {q : Query α} {steps scans : Nat} {m m' : Machine} {t : Thread}

theorem position_eq (h : Alike steps scans m m') : m'.position = m.position := by
  obtain ⟨pool, stats, rfl, -⟩ := h
  rfl

theorem best_eq (h : Alike steps scans m m') : m'.best = m.best := by
  obtain ⟨pool, stats, rfl, -⟩ := h
  rfl

theorem isIdle_eq (h : Alike steps scans m m') : m'.isIdle = m.isIdle := by
  obtain ⟨pool, stats, rfl, -⟩ := h
  rfl

theorem isSettled_eq (h : Alike steps scans m m') : m'.isSettled = m.isSettled := by
  obtain ⟨pool, stats, rfl, -⟩ := h
  rfl

theorem steps_eq (h : Alike steps scans m m') : m'.stats.steps = m.stats.steps + steps := by
  obtain ⟨pool, stats, rfl, hsteps, -⟩ := h
  exact hsteps

theorem scans_eq (h : Alike steps scans m m') : m'.stats.scans = m.stats.scans + scans := by
  obtain ⟨pool, stats, rfl, -, hscans⟩ := h
  exact hscans

theorem drop (h : Alike steps scans m m') (t : Thread) :
    Alike steps scans (m.drop t) (m'.drop t) := by
  obtain ⟨pool, stats, rfl, hsteps, hscans⟩ := h
  exact ⟨_, _, rfl, hsteps, hscans⟩

theorem resume (h : Alike steps scans m m') (t : Thread) :
    Alike steps scans (m.resume t) (m'.resume t) := by
  obtain ⟨pool, stats, rfl, hsteps, hscans⟩ := h
  exact ⟨_, _, rfl, hsteps, hscans⟩

theorem note (h : Alike steps scans m m') (t : Thread) :
    Alike steps scans (m.note t) (m'.note t) := by
  obtain ⟨pool, stats, rfl, hsteps, hscans⟩ := h
  refine ⟨_, _, rfl, ?_, hscans⟩
  simp only [Machine.note]
  omega

theorem feed (h : Alike steps scans m m') (unit : UInt16) :
    Alike steps scans (m.feed q unit) (m'.feed q unit) := by
  obtain ⟨pool, stats, rfl, hsteps, hscans⟩ := h
  obtain ⟨pool₁, hpool₁⟩ := feed_eq q unit m
  obtain ⟨pool₂, hpool₂⟩ := feed_eq q unit { m with pool, stats }
  rw [hpool₁, hpool₂]
  exact ⟨_, _, rfl, hsteps, hscans⟩

theorem advance (h : Alike steps scans m m') : Alike steps scans m.advance m'.advance := by
  obtain ⟨pool, stats, rfl, hsteps, hscans⟩ := h
  exact ⟨_, _, rfl, hsteps, hscans⟩

variable [CodeUnit α]

theorem read (h : Alike steps scans m m') (hlt : m.position < q.input.size)
    (hlt' : m'.position < q.input.size) :
    Alike steps scans (m.read q hlt) (m'.read q hlt') := by
  have hfeed := h.advance.feed (q := q) (CodeUnit.word q.input[m.position])
  obtain ⟨pool, stats, rfl, -⟩ := h
  exact hfeed

/-- **An instruction looks at neither the pool nor the counters.** -/
theorem execute (h : Alike steps scans m m') (t : Thread) (i : Instruction) :
    Alike steps scans (m.execute q t i) (m'.execute q t i) := by
  have hdrop := h.drop t
  have hresume := h.resume
  obtain ⟨pool, stats, rfl, hsteps, hscans⟩ := h
  cases i with
  | consume | fork | accept | writeLookbehind => exact ⟨_, _, rfl, hsteps, hscans⟩
  | jump | setRegister | clearRegister | beginLoop => exact hresume _
  | assert kind =>
    by_cases hholds : kind.holds q.input m.position = true
    · simpa only [Machine.execute, if_pos hholds] using hresume t.advance
    · simpa only [Machine.execute, if_neg hholds] using hdrop
  | endLoop =>
    by_cases hconsumed : t.consumed = true
    · simpa only [Machine.execute, if_pos hconsumed] using hresume t.advance
    · simpa only [Machine.execute, if_neg hconsumed] using hdrop
  | readLookbehind index want =>
    by_cases hwant : m.matched[index]? = some want
    · simpa only [Machine.execute, if_pos hwant] using hresume t.advance
    · simpa only [Machine.execute, if_neg hwant] using hdrop

theorem step (h : Alike steps scans m m') : Alike steps scans (m.step q) (m'.step q) := by
  rcases hrunning : m.running with _ | t
  · rcases hactive : m.active with _ | ⟨t, active⟩
    · have hidle : m.isIdle = true := by simp [isIdle, hrunning, hactive]
      rwa [step_of_isIdle q hidle, step_of_isIdle q (h.isIdle_eq.trans hidle)]
    · obtain ⟨pool, stats, rfl, hsteps, hscans⟩ := h
      rw [step_of_none q hrunning hactive,
        step_of_none q (m := { m with pool, stats }) hrunning hactive]
      exact ⟨pool, stats, rfl, hsteps, hscans⟩
  · have hdrop := h.drop t
    have hexecute := fun i => (h.note t).execute (q := q) t i
    obtain ⟨pool, stats, rfl, -⟩ := h
    have hrunning' : { m with pool, stats }.running = some t := hrunning
    rcases hi : q.instruction? t.pc with _ | i
    · rwa [step_of_missing q hrunning hi, step_of_missing q hrunning' hi]
    · rcases hadmits : m.visits.admits t.pc t.consumed m.position with _ | _
      · rwa [step_of_refused q hrunning hadmits, step_of_refused q hrunning' hadmits]
      · rw [step_of_admitted q hrunning hadmits hi, step_of_admitted q hrunning' hadmits hi]
        exact hexecute i

theorem drain (h : Alike steps scans m m') : Alike steps scans (m.drain q) (m'.drain q) := by
  fun_induction Machine.drain q m generalizing m' with
  | case1 m hidle => rwa [drain_of_isIdle q (h.isIdle_eq.trans hidle)]
  | case2 m hbusy ih =>
    rw [drain_of_busy q (h.isIdle_eq.trans (Bool.eq_false_iff.mpr hbusy))]
    exact ih h.step

/-- **Two machines that are alike read the input alike**, and poll the host alike. -/
theorem run (h : Alike steps scans m m') (host : Host) :
    (m'.run q host).1 = (m.run q host).1 ∧ (m'.run q host).2.2 = (m.run q host).2.2 ∧
      Alike steps scans (m.run q host).2.1 (m'.run q host).2.1 := by
  induction m, host using run_induction q generalizing m' with
  | settled m host hsettled =>
    rw [run_of_settled q hsettled, run_of_settled q (h.isSettled_eq.trans hsettled)]
    exact ⟨rfl, rfl, h⟩
  | ends m host hunsettled hend =>
    rw [run_of_end q hunsettled hend,
      run_of_end q (h.isSettled_eq.trans hunsettled) (by rwa [h.position_eq])]
    exact ⟨rfl, rfl, h⟩
  | interrupt m host error host' hunsettled hlt hpoll =>
    rw [run_of_interrupt q hunsettled hlt hpoll, run_of_interrupt q
      (h.isSettled_eq.trans hunsettled) (by rwa [h.position_eq]) (by rwa [h.position_eq])]
    exact ⟨rfl, rfl, h.advance⟩
  | proceed m host host' hunsettled hlt hpoll ih =>
    have hlt' : m'.position < q.input.size := by rwa [h.position_eq]
    rw [run_of_proceed q hunsettled hlt hpoll, run_of_proceed q
      (h.isSettled_eq.trans hunsettled) hlt' (by rwa [h.position_eq])]
    exact ih (h.read hlt hlt').drain

/-- **Scans from one position are alike**, whatever the machines have done before. -/
theorem scan {m m' : Machine} (h : m.Sound q) (h' : m'.Sound q)
    (hposition : m'.position = m.position) (hsteps : m'.stats.steps = m.stats.steps + steps)
    (hscans : m'.stats.scans = m.stats.scans + scans) (host : Host) :
    (m'.scan q host).1 = (m.scan q host).1 ∧ (m'.scan q host).2.2 = (m.scan q host).2.2 ∧
      Alike steps scans (m.scan q host).2.1 (m'.scan q host).2.1 := by
  obtain ⟨pool, -, heq⟩ := h.beginScan_eq
  obtain ⟨pool', -, heq'⟩ := h'.beginScan_eq
  have hbegin : Alike steps scans (m.beginScan q) (m'.beginScan q) := by
    rw [heq, heq', hposition]
    exact ⟨_, _, rfl, hsteps, by rw [hscans, Nat.add_right_comm]⟩
  exact hbegin.drain.run host

end Alike

end Machine

/-! ## Searches that do the same -/

namespace Search

variable {α : Type} {q : Query α} {steps scans : Nat} {s s' : Search}

/-- **Two searches are level** if they are at the same position, and both or none are finished. The
second one has run some steps and begun some scans more than the first. -/
structure Level (q : Query α) (steps scans : Nat) (s s' : Search) : Prop where
  sound : s.machine.Sound q
  sound' : s'.machine.Sound q
  finished_eq : s'.finished = s.finished
  position_eq : s'.position = s.position
  steps_eq : s'.stats.steps = s.stats.steps + steps
  scans_eq : s'.stats.scans = s.stats.scans + scans

/-- Machines that are alike have found the same, and leave searches that are level. -/
theorem level_conclude {m m' : Machine} (h : m.Sound q) (h' : m'.Sound q)
    (halike : m.Alike steps scans m') :
    (conclude q m').1 = (conclude q m).1 ∧
      Level q steps scans (conclude q m).2 (conclude q m').2 := by
  have hsound := sound_conclude h
  have hsound' := sound_conclude h'
  have hbest' := halike.best_eq
  have hposition := halike.position_eq
  have hsteps := halike.steps_eq
  have hscans := halike.scans_eq
  rcases hbest : m.best with _ | registers
  · rw [hbest] at hbest'
    rw [conclude_of_none hbest] at hsound ⊢
    rw [conclude_of_none hbest'] at hsound' ⊢
    exact ⟨rfl, hsound, hsound', rfl, hposition, hsteps, hscans⟩
  · rw [hbest] at hbest'
    rcases hspan : registers.span?.filter (·.stop ≤ q.input.size) with _ | span
    · rw [conclude_of_malformed hbest hspan] at hsound ⊢
      rw [conclude_of_malformed hbest' hspan] at hsound' ⊢
      exact ⟨rfl, hsound, hsound', rfl, hposition, hsteps, hscans⟩
    · rw [conclude_of_span hbest hspan] at hsound ⊢
      rw [conclude_of_span hbest' hspan] at hsound' ⊢
      exact ⟨rfl, hsound, hsound', rfl, rfl, hsteps, hscans⟩

variable [CodeUnit α]

namespace Level

/-- **Searches that are level find the same**, with the same polls, and stay level. -/
theorem next (h : Level q steps scans s s') (host : Host) :
    (s'.next q host).1 = (s.next q host).1 ∧ (s'.next q host).2.2 = (s.next q host).2.2 ∧
      Level q steps scans (s.next q host).2.1 (s'.next q host).2.1 := by
  rcases hfinished : s.finished with _ | _
  · have hfinished' := h.finished_eq.trans hfinished
    obtain ⟨herror, hhost, halike⟩ :=
      Machine.Alike.scan h.sound h.sound' h.position_eq h.steps_eq h.scans_eq host
    have hsound := h.sound.scan host
    have hsound' := h.sound'.scan host
    rcases hscan : s.machine.scan q host with ⟨error, m, host₁⟩
    rcases hscan' : s'.machine.scan q host with ⟨error', m', host₁'⟩
    rw [hscan] at herror hhost halike hsound
    rw [hscan'] at herror hhost halike hsound'
    obtain rfl : error' = error := herror
    obtain rfl : host₁' = host₁ := hhost
    rcases error' with _ | error
    · rw [next_of_scan hfinished hscan, next_of_scan hfinished' hscan']
      obtain ⟨houtcome, hlevel⟩ := level_conclude hsound hsound' halike
      exact ⟨houtcome, rfl, hlevel⟩
    · rw [next_of_error hfinished hscan, next_of_error hfinished' hscan']
      exact ⟨rfl, rfl, hsound.clear, hsound'.clear, rfl, halike.position_eq, halike.steps_eq,
        halike.scans_eq⟩
  · rw [next_of_finished hfinished, next_of_finished (h.finished_eq.trans hfinished)]
    exact ⟨rfl, rfl, h⟩

theorem collect (h : Level q steps scans s s') (limit : Nat) (host : Host) :
    (Search.collect q limit s' host).1 = (Search.collect q limit s host).1 ∧
      (Search.collect q limit s' host).2.2 = (Search.collect q limit s host).2.2 ∧
      Level q steps scans (Search.collect q limit s host).2.1
        (Search.collect q limit s' host).2.1 := by
  induction limit generalizing s s' host with
  | zero => exact ⟨rfl, rfl, h⟩
  | succ limit ih =>
    obtain ⟨houtcome, hhost, hlevel⟩ := h.next host
    rw [Search.collect, Search.collect]
    rcases hnext : s.next q host with ⟨outcome, s₁, host₁⟩
    rcases hnext' : s'.next q host with ⟨outcome', s₁', host₁'⟩
    rw [hnext, hnext'] at houtcome hhost hlevel
    obtain rfl : outcome' = outcome := houtcome
    obtain rfl : host₁' = host₁ := hhost
    rcases outcome' with error | _ | registers
    · exact ⟨rfl, rfl, hlevel⟩
    · exact ⟨rfl, rfl, hlevel⟩
    · obtain ⟨hbatch, hhost, hlevel⟩ := ih hlevel host₁'
      exact ⟨by simp [hbatch], hhost, hlevel⟩

end Level

/-! ## What a caller sees -/

/-- What a call answers. -/
inductive Reply where
  | next (outcome : Outcome)
  | fill (result : Except SearchError Nat) (output : Array (Option Nat))

/-- **What a caller sees of a series of calls** — of each one the answer, the position of the search
after it, and the host, which counts its polls. -/
def replies (q : Query α) (s : Search) : List Call → List (Reply × Nat × Host)
  | [] => []
  | .next host :: calls =>
    let (outcome, s, host) := s.next q host
    (.next outcome, s.position, host) :: replies q s calls
  | .fill host output :: calls =>
    let (result, output, s, host) := s.fill q host output
    (.fill result output, s.position, host) :: replies q s calls

/-- **Searches that are level give the same replies**, and run the same number of steps and
scans. -/
theorem Level.replies (h : Level q steps scans s s') (calls : List Call) :
    s'.replies q calls = s.replies q calls ∧
      Level q steps scans (s.after q calls) (s'.after q calls) := by
  induction calls generalizing s s' with
  | nil => exact ⟨rfl, h⟩
  | cons call calls ih =>
    cases call with
    | next host =>
      obtain ⟨houtcome, hhost, hlevel⟩ := h.next host
      obtain ⟨hreplies, hafter⟩ := ih hlevel
      refine ⟨?_, hafter⟩
      simp only [Search.replies, houtcome, hhost, hlevel.position_eq, hreplies]
    | fill host output =>
      obtain ⟨hbatch, hhost, hlevel⟩ := h.collect (output.size / q.registerCount) host
      obtain ⟨hreplies, hafter⟩ := ih hlevel
      refine ⟨?_, hafter⟩
      simp only [Search.replies, fill, hbatch, hhost, hlevel.position_eq, hreplies]

/-- A search that has found a match goes on, unless the match is empty and at the end. -/
theorem going_of_next {host : Host} {registers : Registers}
    (hfound : (s.next q host).1 = .ok (some registers))
    (hmore : registers.span? ≠ some ⟨q.input.size, q.input.size⟩) :
    (s.next q host).2.1.finished = false := by
  rcases hfinished : s.finished with _ | _
  · rcases hscan : s.machine.scan q host with ⟨_ | error, m, host'⟩
    · rw [next_of_scan hfinished hscan] at hfound ⊢
      have hbest := best_of_conclude hfound
      rcases hspan : registers.span?.filter (·.stop ≤ q.input.size) with _ | ⟨start, stop⟩
      · rw [conclude_of_malformed hbest hspan] at hfound
        simp at hfound
      · rw [conclude_of_span hbest hspan]
        by_contra hends
        obtain ⟨rfl, rfl⟩ : start = stop ∧ stop = q.input.size := by
          simpa [passMatch, Span.isEmpty] using hends
        exact hmore (Option.filter_eq_some_iff.mp hspan).1
    · rw [next_of_error hfinished hscan] at hfound
      simp at hfound
  · rw [next_of_finished hfinished] at hfound
    simp at hfound

/-- **To go on is to begin anew** — a search that has found a match, other than an empty one at the
end of the input, gives from then on the replies of a search that begins where it is now, and both
run the same number of steps and scans. -/
theorem replies_resumed (q : Query α) (position : Nat) (calls : List Call) (host : Host)
    (registers : Registers)
    (hfound : (((start q position).after q calls).next q host).1 = .ok (some registers))
    (hmore : registers.span? ≠ some ⟨q.input.size, q.input.size⟩) (later : List Call) :
    let s := (((start q position).after q calls).next q host).2.1
    let anew := start q s.position
    s.replies q later = anew.replies q later ∧
      (s.after q later).stats.steps = s.stats.steps + (anew.after q later).stats.steps ∧
      (s.after q later).stats.scans = s.stats.scans + (anew.after q later).stats.scans := by
  intro s anew
  have hsound : s.machine.Sound q :=
    sound_next (sound_after (sound_start q position) calls) host
  have hposition : s.position ≤ q.input.size := hsound.position_le
  have hlevel : Level q s.stats.steps s.stats.scans anew s :=
    { sound := sound_start q s.position
      sound' := hsound
      finished_eq := by
        rw [going_of_next hfound hmore]
        exact (decide_eq_false (Nat.not_lt.mpr hposition)).symm
      position_eq := (Nat.min_eq_left hposition).symm
      steps_eq := (Nat.zero_add _).symm
      scans_eq := (Nat.zero_add _).symm }
  obtain ⟨hreplies, hafter⟩ := hlevel.replies later
  exact ⟨hreplies, hafter.steps_eq.trans (Nat.add_comm _ _),
    hafter.scans_eq.trans (Nat.add_comm _ _)⟩

/-- The expression `abc|a`, on the input `aab`. -/
def longOrShort : Query UInt8 where
  program :=
    ⟨#[.setRegister 0, .fork 6, .consume 0x61 0x61, .consume 0x62 0x62, .consume 0x63 0x63, .jump 7,
      .consume 0x61 0x61, .setRegister 1, .accept], by decide⟩
  registerCount := 2
  enough := by decide
  input := #[0x61, 0x61, 0x62]
  pollInterval := defaultPollInterval

/-- The first scan of `aab` leaves its marks at the position where the second one begins. The second
one finds what a search that begins there finds. -/
theorem replies_resumed_abc_or_a :
    let s := ((start longOrShort 0).next longOrShort .quiet).2.1
    ((start longOrShort 0).next longOrShort .quiet).1 = .ok (some #[some 0, some 1]) ∧
      s.position = 1 ∧
      (s.next longOrShort .quiet).1 = .ok (some #[some 1, some 2]) ∧
      s.replies longOrShort [.next .quiet, .next .quiet] =
        (start longOrShort 1).replies longOrShort [.next .quiet, .next .quiet] := by
  have hfound : ((start longOrShort 0).next longOrShort .quiet).1 =
      .ok (some #[some 0, some 1]) := by cbv
  have hresumed := replies_resumed longOrShort 0 [] .quiet _ hfound (by decide)
    [.next .quiet, .next .quiet]
  have hposition : (((start longOrShort 0).after longOrShort []).next longOrShort
      .quiet).2.1.position = 1 := by cbv
  have hreplies := hresumed.1
  rw [hposition] at hreplies
  exact ⟨hfound, hposition, by cbv, hreplies⟩

end Search

end RegexMachine
