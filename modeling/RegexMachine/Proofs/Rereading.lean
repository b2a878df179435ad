import RegexMachine.Proofs.Cursor
import RegexMachine.Proofs.Segmentation
import RegexMachine.Proofs.View

/-!
# Proofs/Rereading — what all scans of a search cost together

A scan that has a match reads on while threads of higher priority might better it, and the next scan
begins behind the match: it comes again to all the positions in between. What all scans cost
together differs from two runs of every instruction at every position by what is run again and by
what is never run (`findAll_steps`), and nothing is run again but where scans overlap
(`Search.overlap`, `Search.steps_askedTimes_le`).

There is no bound on the overlap but the length of the input. In the regex `straggling` every match
is one unit long, and one thread waits beside it until the input ends: the cost is quadratic in
the length (`findAll_straggling`). Its scans are followed through a `View` of the machine, which has
what decides on the next turn and leaves out how registers are recycled.
-/

namespace RegexMachine

/-! ## Where scans overlap -/

namespace Search

variable {α : Type} [CodeUnit α] {q : Query α} {s : Search}

/-- The number of positions that the next scan of a search comes to and leaves for the one after it
to come to again. -/
def overlap (q : Query α) (s : Search) : Nat :=
  let later := (s.next q .quiet).2.1
  if later.finished then 0
  else (s.machine.scan q .quiet).2.1.position + 1 - later.position

theorem overlap_of_finished (h : (s.next q .quiet).2.1.finished = true) : s.overlap q = 0 :=
  if_pos h

/-- **A scan pays for the positions behind which the next one begins**, and for the overlap. -/
theorem steps_next_le (h : s.machine.Sound q) :
    (s.next q .quiet).2.1.stats.steps +
        2 * q.program.size * (s.next q .quiet).2.1.startsLeft q ≤
      s.stats.steps + 2 * q.program.size * (s.startsLeft q + s.overlap q) := by
  cases hfinished : s.finished with
  | true =>
    have hnext : s.next q .quiet = (.ok none, s, .quiet) := next_of_finished hfinished _
    rw [overlap_of_finished (by rw [hnext]; exact hfinished), hnext, Nat.add_zero]
  | false =>
    obtain ⟨hposition, hsteps, -⟩ := h.counted_scan .quiet
    have hend : (s.machine.scan q .quiet).2.1.position ≤ q.input.size := (h.scan _).position_le
    have hbegin : s.startsLeft q = q.input.size + 1 - s.machine.position := by
      rw [startsLeft, hfinished]
      rfl
    have hpositions : (s.machine.scan q .quiet).2.1.position - s.machine.position + 1 +
        (s.next q .quiet).2.1.startsLeft q ≤ s.startsLeft q + s.overlap q := by
      rw [hbegin, overlap]
      generalize (s.next q .quiet).2.1 = later
      rw [startsLeft]
      split <;> omega
    rw [stats_next hfinished]
    calc (s.machine.scan q .quiet).2.1.stats.steps +
          2 * q.program.size * (s.next q .quiet).2.1.startsLeft q
        ≤ s.stats.steps + 2 * q.program.size *
              ((s.machine.scan q .quiet).2.1.position - s.machine.position + 1) +
            2 * q.program.size * (s.next q .quiet).2.1.startsLeft q :=
          Nat.add_le_add_right hsteps _
      _ ≤ s.stats.steps + 2 * q.program.size * (s.startsLeft q + s.overlap q) := by
          rw [Nat.add_assoc, ← Nat.mul_add]
          exact Nat.add_le_add_left (Nat.mul_le_mul_left _ hpositions) _

/-- **What a search has paid**, and what it would pay for the rest without overlaps, is no more than
it would pay for everything without overlaps, and for the overlaps. -/
theorem steps_askedTimes_le (h : s.machine.Sound q) (times : Nat) :
    (s.askedTimes q times).stats.steps +
        2 * q.program.size * (s.askedTimes q times).startsLeft q ≤
      s.stats.steps + 2 * q.program.size *
        (s.startsLeft q + ∑ k ∈ Finset.range times, (s.askedTimes q k).overlap q) := by
  induction times with
  | zero => exact Nat.le_refl _
  | succ times ih =>
    have hone := steps_next_le (sound_askedTimes h times)
    rw [askedTimes_succ', Finset.sum_range_succ, ← Nat.add_assoc, Nat.mul_add]
    rw [Nat.mul_add] at hone
    omega

/-- The sites of the instructions that the next scan of a search runs, if there is to be one. -/
def sitesScanned (q : Query α) (s : Search) : List Site :=
  if s.finished then [] else s.machine.sitesRun q .quiet

/-- **A search pays for what its next scan runs**, at a position where a scan can still begin. -/
theorem sitesScanned_spec (h : s.machine.Sound q) :
    (s.next q .quiet).2.1.stats.steps = s.stats.steps + (s.sitesScanned q).length ∧
      ∀ x ∈ s.sitesScanned q, x.pc < q.program.size ∧ x.position ≤ q.input.size ∧
        q.input.size + 1 - x.position ≤ s.startsLeft q := by
  rw [sitesScanned]
  cases hfinished : s.finished with
  | true =>
    rw [next_of_finished hfinished]
    simp
  | false =>
    obtain ⟨-, hsites, hsteps⟩ := h.sitesRun .quiet
    have hend : (s.machine.scan q .quiet).2.1.position ≤ q.input.size := (h.scan _).position_le
    rw [if_neg Bool.false_ne_true, stats_next hfinished]
    refine ⟨hsteps, fun x hx => ?_⟩
    obtain ⟨hpc, hbegin, hx⟩ := hsites x hx
    exact ⟨hpc, hx.trans hend, by rw [startsLeft, hfinished]; exact Nat.sub_le_sub_left hbegin _⟩

theorem startsLeft_askedTimes_le (h : s.machine.Sound q) (times : Nat) :
    (s.askedTimes q times).startsLeft q ≤ s.startsLeft q := by
  induction times with
  | zero => exact Nat.le_refl _
  | succ times ih =>
    rw [askedTimes_succ']
    cases hfinished : (s.askedTimes q times).finished with
    | true => rwa [next_of_finished hfinished]
    | false =>
      have hfewer := startsLeft_next (sound_askedTimes h times) hfinished .quiet
      omega

/-- **What a search has run** in all scans it made while it was asked so many times. -/
theorem sitesAsked_spec (h : s.machine.Sound q) (times : Nat) :
    let sites := (List.range times).flatMap fun k => (s.askedTimes q k).sitesScanned q
    (s.askedTimes q times).stats.steps = s.stats.steps + sites.length ∧
      ∀ x ∈ sites, x.pc < q.program.size ∧ x.position ≤ q.input.size ∧
        q.input.size + 1 - x.position ≤ s.startsLeft q := by
  induction times with
  | zero => simp [askedTimes]
  | succ times ih =>
    obtain ⟨hsteps, hsites⟩ := ih
    obtain ⟨hsteps', hsites'⟩ := sitesScanned_spec (sound_askedTimes h times)
    have hfewer := startsLeft_askedTimes_le h times
    dsimp only at hsteps hsites ⊢
    rw [List.range_succ, List.flatMap_append, List.flatMap_singleton, List.length_append,
      askedTimes_succ', hsteps', hsteps, Nat.add_assoc]
    refine ⟨rfl, List.forall_mem_append.mpr ⟨hsites, fun x hx => ?_⟩⟩
    obtain ⟨hpc, hend, hleft⟩ := hsites' x hx
    exact ⟨hpc, hend, hleft.trans hfewer⟩

end Search

/-! ## Sites run again, and sites never run -/

/-- All sites of a program of so many instructions at the positions from the first to the last. -/
def sitesBetween (size first last : Nat) : Finset Site :=
  (Finset.range size ×ˢ (Finset.univ : Finset Bool) ×ˢ Finset.Ico first (last + 1)).map
    ⟨fun x => ⟨x.1, x.2.1, x.2.2⟩, fun x y h => by
      obtain ⟨hpc, hconsumed, hposition⟩ := Site.mk.inj h
      exact Prod.ext hpc (Prod.ext hconsumed hposition)⟩

theorem mem_sitesBetween {size first last : Nat} {x : Site} :
    x ∈ sitesBetween size first last ↔
      x.pc < size ∧ first ≤ x.position ∧ x.position ≤ last := by
  simp only [sitesBetween, Finset.mem_map, Finset.mem_product, Finset.mem_range, Finset.mem_univ,
    Finset.mem_Ico, true_and, Nat.lt_succ_iff]
  constructor
  · rintro ⟨y, hy, rfl⟩
    exact hy
  · exact fun hx => ⟨(x.pc, x.consumed, x.position), hx, rfl⟩

theorem card_sitesBetween (size first last : Nat) :
    (sitesBetween size first last).card = 2 * size * (last + 1 - first) := by
  rw [sitesBetween, Finset.card_map, Finset.card_product, Finset.card_product, Finset.card_range,
    Finset.card_univ, Fintype.card_bool, Nat.card_Ico]
  ring

/-- What is run is all there is, but for what is never run, and what is run again. -/
theorem length_add_card_sdiff {sites : List Site} {all : Finset Site} (h : ∀ x ∈ sites, x ∈ all) :
    sites.length + (all \ sites.toFinset).card =
      all.card + (sites.length - sites.toFinset.card) := by
  have hsubset : sites.toFinset ⊆ all := fun x hx => h x (List.mem_toFinset.mp hx)
  have hcard := Finset.card_sdiff_add_card_eq_card hsubset
  have hle := List.toFinset_card_le sites
  omega

/-! ## A thread that waits for the end -/

/-- The expression `.`, behind a branch of higher priority that reads on for ever and never
accepts. -/
def Regex.straggling : Regex where
  program :=
    ⟨#[.fork 3, .consumeAny, .jump 1, .setRegister 0, .consumeAny, .setRegister 1, .accept],
      by decide⟩
  registerCount := 2
  enough := by decide
  pollInterval := defaultPollInterval

namespace Straggling

open Regex (straggling)

/-- The thread on the branch that never accepts, when it waits for a unit. -/
def straggler : Thread := ⟨1, #[none, none], true⟩

/-- The thread that is going to match the unit at a position, when it waits for it. -/
def matcher (position : Nat) : Thread := ⟨4, #[some position, none], true⟩

section Views

variable {α : Type} [CodeUnit α] {units : Array α} {V : Verdicts} {v : View}

/-- At its start, a scan leaves both threads waiting. -/
theorem turn_begin (units : Array α) (V : Verdicts) (position steps : Nat) :
    ((View.turn (straggling.query units) V)^[4]
      { position, pending := [(straggling.query units).seed 0], blocked := [], best := none,
        visited := [], steps }) =
      { position
        pending := []
        blocked := [matcher position, straggler]
        best := none
        visited := [⟨4, true, position⟩, ⟨3, true, position⟩, ⟨1, true, position⟩,
          ⟨0, true, position⟩]
        steps := steps + 4 } :=
  rfl

theorem successors_straggler (hlt : v.position < units.size) :
    v.successors (straggling.query units) V straggler = [⟨2, #[none, none], true⟩] := by
  rw [View.successors, straggler, Query.branches_consumeAny rfl hlt]
  rfl

theorem successors_matcher {position : Nat} (hlt : v.position < units.size) :
    v.successors (straggling.query units) V (matcher position) =
      [⟨5, #[some position, none], true⟩] := by
  rw [View.successors, matcher, Query.branches_consumeAny rfl hlt]
  rfl

/-- One unit further, there is a match, and the straggler waits again. -/
theorem turn_read_matcher (hblocked : v.blocked = [matcher v.position, straggler])
    (hlt : v.position < units.size) :
    ((View.turn (straggling.query units) V)^[4] (v.read (straggling.query units) V)) =
      { position := v.position + 1
        pending := []
        blocked := [straggler]
        best := some #[some v.position, some (v.position + 1)]
        visited := [⟨6, true, v.position + 1⟩, ⟨5, true, v.position + 1⟩,
          ⟨1, true, v.position + 1⟩, ⟨2, true, v.position + 1⟩]
        steps := v.steps + 4 } := by
  have hpending : [matcher v.position, straggler].reverse.flatMap
      (v.successors (straggling.query units) V) =
        [⟨2, #[none, none], true⟩, ⟨5, #[some v.position, none], true⟩] := by
    simp [successors_straggler hlt, successors_matcher hlt]
  rw [View.read, hblocked, hpending]
  rfl

/-- At any position behind, the straggler wakes and waits. -/
theorem turn_read_straggler (hblocked : v.blocked = [straggler]) (hlt : v.position < units.size) :
    ((View.turn (straggling.query units) V)^[2] (v.read (straggling.query units) V)) =
      { v with
        position := v.position + 1
        pending := []
        visited := [⟨1, true, v.position + 1⟩, ⟨2, true, v.position + 1⟩]
        steps := v.steps + 2 } := by
  have hpending : [straggler].reverse.flatMap (v.successors (straggling.query units) V) =
      [⟨2, #[none, none], true⟩] := by
    simp [successors_straggler hlt]
  obtain ⟨position, pending, blocked, best, visited, steps⟩ := v
  obtain rfl : blocked = [straggler] := hblocked
  rw [View.read, hpending]
  rfl

end Views

section Scans

variable {α : Type} [CodeUnit α] {units : Array α} {V : Verdicts} {m₀ m : Machine} {v : View}
  {host : Host}

omit [CodeUnit α] in
/-- No lookbehind is read, so any verdicts will do. -/
theorem agrees (m : Machine) : m.Agrees (straggling.query units) V := by
  have hreads : straggling.program.ReadsNothing := by decide
  exact Program.ReadsNothing.agrees (q := straggling.query units) hreads V m

/-- **While the straggler waits, the input is read to its end.** -/
theorem run_of_straggler (hscanning : Machine.Scanning (straggling.query units) m₀ m)
    (h₀ : m₀.Sound (straggling.query units)) (hquiet : ∀ n, host.answer n = .proceed)
    (hshows : m.Shows v) (hpending : v.pending = []) (hblocked : v.blocked = [straggler]) :
    let last := (m.run (straggling.query units) host).2.1
    last.best = v.best ∧ last.stats.steps = v.steps + 2 * (units.size - v.position) := by
  have hunsettled : m.isSettled = false := by
    simp [Machine.isSettled, hshows.blocked_eq, hblocked]
  induction hn : units.size - v.position generalizing m v host with
  | zero =>
    have hend : ¬ m.position < units.size := by
      rw [hshows.position_eq]
      omega
    rw [Machine.run_of_end _ hunsettled hend]
    exact ⟨hshows.best_eq, hshows.steps_eq⟩
  | succ n ih =>
    have hlt : v.position < units.size := by omega
    obtain ⟨m', later, hscanning', hshows', hlater, hrun⟩ :=
      hshows.exists_run_eq hscanning h₀ agrees hunsettled hpending hlt hquiet
        (turn_read_straggler (V := fun _ _ => false) hblocked hlt) rfl
    rw [hrun]
    obtain ⟨hbest, hsteps⟩ := ih hscanning' hlater hshows' rfl hblocked
      (by simp [Machine.isSettled, hshows'.blocked_eq, hblocked]) (by dsimp only; omega)
    exact ⟨hbest, by rw [hsteps]; dsimp only; omega⟩

/-- At its first position, a scan leaves both threads waiting. -/
theorem exists_shows_begin (h : m.Sound (straggling.query units)) :
    ∃ visited, ((m.beginScan (straggling.query units)).drain (straggling.query units)).Shows
      { position := m.position
        pending := []
        blocked := [matcher m.position, straggler]
        best := none
        visited
        steps := m.stats.steps + 4 } := by
  have hturns := turn_begin units (fun _ _ => false) m.position m.stats.steps
  have hdrain := h.shows_beginScan.drain .begin h agrees 4 (congrArg View.pending hturns)
  exact ⟨_, hturns ▸ hdrain⟩

/-- **A scan matches the unit it begins at**, but reads the input to its end. -/
theorem scan_of_lt (h : m.Sound (straggling.query units)) (hlt : m.position < units.size) :
    let last := (m.scan (straggling.query units) .quiet).2.1
    last.best = some #[some m.position, some (m.position + 1)] ∧
      last.stats.steps = m.stats.steps + (2 * (units.size - m.position) + 6) := by
  obtain ⟨visited, hbegin⟩ := exists_shows_begin h
  have hquiet : ∀ n, Host.quiet.answer n = .proceed := fun _ => rfl
  have hunsettled : Machine.isSettled ((m.beginScan (straggling.query units)).drain
      (straggling.query units)) = false := by
    simp [Machine.isSettled, hbegin.best_eq]
  obtain ⟨m', later, hscanning, hmatched, hlater, hrun⟩ :=
    hbegin.exists_run_eq Machine.Scanning.begin.drain h agrees hunsettled rfl hlt hquiet
      (turn_read_matcher (V := fun _ _ => false) rfl hlt) rfl
  obtain ⟨hbest, hsteps⟩ := run_of_straggler hscanning h hlater hmatched rfl rfl
  rw [Machine.scan, hrun]
  exact ⟨hbest, by rw [hsteps]; dsimp only; omega⟩

/-- At the end of the input, both threads wait in vain. -/
theorem scan_of_end (h : m.Sound (straggling.query units)) (hend : m.position = units.size) :
    let last := (m.scan (straggling.query units) .quiet).2.1
    last.best = none ∧ last.stats.steps = m.stats.steps + 4 := by
  obtain ⟨visited, hbegin⟩ := exists_shows_begin h
  rw [Machine.scan, Machine.run_of_end _ (by simp [Machine.isSettled, hbegin.best_eq])
    (by rw [hbegin.position_eq, hend]; exact Nat.lt_irrefl _)]
  exact ⟨hbegin.best_eq, hbegin.steps_eq⟩

end Scans

section Searches

variable {α : Type} [CodeUnit α] {units : Array α} {s : Search}

/-- **Every unit is a match of its own**, and every search for one reads to the end of the input. -/
theorem yields_units (h : s.machine.Sound (straggling.query units)) (hgoing : s.finished = false)
    {n : Nat} (hn : s.machine.position + n = units.size) :
    s.Yields (straggling.query units) ((List.range' s.machine.position n).map fun i => ⟨i, i + 1⟩) ∧
      ∀ times, n < times → (s.askedTimes (straggling.query units) times).stats.steps =
        s.stats.steps + (n * n + 7 * n + 4) := by
  induction n generalizing s with
  | zero =>
    obtain ⟨hbest, hsteps⟩ := scan_of_end h hn
    obtain ⟨m, hnext⟩ := Search.exists_nextSpan?_eq_none hgoing hbest
    have hends : (s.next (straggling.query units) .quiet).2.1.finished = true :=
      congrArg (·.2.finished) hnext
    refine ⟨Search.yields_nil (congrArg Prod.fst hnext) hends, fun times htimes => ?_⟩
    obtain ⟨times, rfl⟩ : ∃ k, times = k + 1 := ⟨times - 1, by omega⟩
    rw [Search.askedTimes_succ, Search.askedTimes_of_finished hends, Search.stats_next hgoing,
      hsteps]
    rfl
  | succ n ih =>
    have hlt : s.machine.position < units.size := by omega
    have hspan : Registers.span? #[some s.machine.position, some (s.machine.position + 1)] =
        some ⟨s.machine.position, s.machine.position + 1⟩ := by
      simp [Registers.span?, Registers.position?, Span.ofRegisters?]
    obtain ⟨hbest, hsteps⟩ := scan_of_lt h hlt
    obtain ⟨m, hnext⟩ := Search.exists_nextSpan?_eq_some hgoing hbest hspan hlt
    have hlater : (s.next (straggling.query units) .quiet).2.1 =
        Search.passMatch (straggling.query units) m
          ⟨s.machine.position, s.machine.position + 1⟩ := congrArg Prod.snd hnext
    have hposition : (s.next (straggling.query units) .quiet).2.1.machine.position =
        s.machine.position + 1 := by
      simp [hlater, Search.passMatch, Span.isEmpty]
    have hgoes : (s.next (straggling.query units) .quiet).2.1.finished = false := by
      simp [hlater, Search.passMatch, Span.isEmpty]
    obtain ⟨hyields, hrest⟩ := ih (Search.sound_next h .quiet) hgoes (by omega)
    rw [hposition] at hyields
    refine ⟨.cons (congrArg Prod.fst hnext) hyields, fun times htimes => ?_⟩
    obtain ⟨times, rfl⟩ : ∃ k, times = k + 1 := ⟨times - 1, by omega⟩
    rw [Search.askedTimes_succ, hrest times (by omega), Search.stats_next hgoing, hsteps,
      Search.stats, show units.size - s.machine.position = n + 1 by omega]
    ring

/-- A search from a unit of the input on finds this unit and all behind it. -/
theorem start_yields_units {start : Nat} (hstart : start ≤ units.size) :
    (Search.start (straggling.query units) start).Yields (straggling.query units)
        ((List.range' start (units.size - start)).map fun i => ⟨i, i + 1⟩) ∧
      ∀ times, units.size - start < times →
        ((Search.start (straggling.query units) start).askedTimes
          (straggling.query units) times).stats.steps =
        (units.size - start) * (units.size - start) + 7 * (units.size - start) + 4 := by
  have hposition : (Search.start (straggling.query units) start).machine.position = start :=
    Nat.min_eq_left hstart
  have hgoing : (Search.start (straggling.query units) start).finished = false :=
    decide_eq_false (Nat.not_lt.mpr hstart)
  have hn : (Search.start (straggling.query units) start).machine.position +
      (units.size - start) = units.size := by
    rw [hposition]
    exact Nat.add_sub_of_le hstart
  obtain ⟨hyields, hsteps⟩ := yields_units (Search.sound_start _ start) hgoing hn
  rw [hposition] at hyields
  exact ⟨hyields, fun times htimes => (hsteps times htimes).trans (Nat.zero_add _)⟩

end Searches

end Straggling

/-! ## The cursor of a regex -/

namespace Cursor

/-- A cursor that was asked for a span so many times. -/
def askedTimes (c : Cursor) (times : Nat) : Cursor := (fun c => c.nextSpan?.2)^[times] c

/-- The number of positions that the next scan of a cursor comes to and leaves for the one after it
to come to again. -/
def overlap (c : Cursor) : Nat :=
  match c.subject with
  | .oneByte units => c.search.overlap (c.regex.query units)
  | .twoByte units => c.search.overlap (c.regex.query units)

/-- The sites of the instructions that the next scan of a cursor runs, if there is to be one. -/
def sitesScanned (c : Cursor) : List Site :=
  match c.subject with
  | .oneByte units => c.search.sitesScanned (c.regex.query units)
  | .twoByte units => c.search.sitesScanned (c.regex.query units)

/-- The sites of all instructions that a cursor runs while it is asked so many times, scan after
scan. -/
def sitesAsked (c : Cursor) (times : Nat) : List Site :=
  (List.range times).flatMap fun k => (c.askedTimes k).sitesScanned

variable {α : Type} [CodeUnit α] {q : Query α} {c : Cursor}

theorem Runs.askedTimes_eq (h : c.Runs q) (times : Nat) :
    c.askedTimes times = { c with search := c.search.askedTimes q times } :=
  h.iterate_next times

theorem Runs.nextSpan?_eq (h : c.Runs q) (search : Search) :
    { c with search }.nextSpan? =
      ((search.nextSpan? q).1, { c with search := (search.nextSpan? q).2 }) := by
  rw [nextSpan?, h.next_eq]
  rfl

end Cursor

namespace Regex

/-- A regex runs one query over a subject, and its cursor scans as the search does. -/
theorem exists_units (re : Regex) (input : Input) :
    ∃ (α : Type) (_ : CodeUnit α) (units : Array α), (re.findAll input).Runs (re.query units) ∧
      (re.findAll input).search = .start (re.query units) input.start ∧
      units.size = input.subject.size ∧
      ∀ search, { re.findAll input with search }.overlap = search.overlap (re.query units) ∧
        { re.findAll input with search }.sitesScanned =
          search.sitesScanned (re.query units) := by
  obtain ⟨subject, start⟩ := input
  cases subject with
  | oneByte units | twoByte units =>
    exact ⟨_, inferInstance, units, ⟨rfl, rfl, rfl, fun _ _ => rfl, fun _ _ _ => rfl⟩, rfl, rfl,
      fun _ => ⟨rfl, rfl⟩⟩

/-- **When all scans together stay within the cost of one** — whatever the regex, the subject and
the start, and however often its cursor has been asked.

* A search pays for every site from the start on once, less for those where it never runs the
  instruction, and more for every time it runs an instruction again at its site.
* So it stays within two runs of every instruction at every position just if it runs no more
  instructions again than there are sites at which it runs none.
* In any case it stays within two runs of every instruction at every position, and at every position
  again for every overlap of a scan with the next one. -/
theorem findAll_steps (re : Regex) (input : Input) (times : Nat) :
    let c := re.findAll input
    let steps := (c.askedTimes times).stats.steps
    let bound := 2 * re.program.size * (input.subject.size + 1 - input.start)
    let run := c.sitesAsked times
    let idle := sitesBetween re.program.size input.start input.subject.size \ run.toFinset
    let again := run.length - run.toFinset.card
    steps + idle.card = bound + again ∧ (steps ≤ bound ↔ again ≤ idle.card) ∧
      steps ≤ bound + 2 * re.program.size * ∑ k ∈ Finset.range times, (c.askedTimes k).overlap := by
  intro c steps bound run idle again
  obtain ⟨α, _, units, hruns, hsearch, hsize, hscans⟩ := re.exists_units input
  have hsound : c.search.machine.Sound (re.query units) := hsearch ▸ Search.sound_start _ _
  have hleft : c.search.startsLeft (re.query units) = input.subject.size + 1 - input.start := by
    rw [← hsize, hsearch]
    exact Search.startsLeft_start _ _
  have hzero : c.search.stats.steps = 0 := by
    rw [hsearch]
    rfl
  have hasked : ∀ k, c.askedTimes k =
      { c with search := c.search.askedTimes (re.query units) k } := hruns.askedTimes_eq
  have hrun : run = (List.range times).flatMap fun k =>
      (c.search.askedTimes (re.query units) k).sitesScanned (re.query units) :=
    List.flatMap_congr fun k _ => by rw [hasked]; exact (hscans _).2
  have hoverlap : ∑ k ∈ Finset.range times, (c.askedTimes k).overlap =
      ∑ k ∈ Finset.range times,
        (c.search.askedTimes (re.query units) k).overlap (re.query units) :=
    Finset.sum_congr rfl fun k _ => by rw [hasked]; exact (hscans _).1
  obtain ⟨hsteps, hsites⟩ := Search.sitesAsked_spec hsound times
  rw [← hrun, hzero, Nat.zero_add] at hsteps
  rw [← hrun, hleft] at hsites
  have hlength : steps = run.length := by
    rw [← hsteps]
    exact congrArg (·.stats.steps) (hasked times)
  have hbetween : ∀ x ∈ run, x ∈ sitesBetween re.program.size input.start input.subject.size := by
    intro x hx
    obtain ⟨hpc, hend, hbegin⟩ := hsites x hx
    have hend' : x.position ≤ input.subject.size := hsize ▸ hend
    have hbegin' : input.subject.size + 1 - x.position ≤
      input.subject.size + 1 - input.start := hsize ▸ hbegin
    exact mem_sitesBetween.mpr ⟨hpc, by omega, hend'⟩
  have hbalance : steps + idle.card = bound + again := by
    rw [hlength]
    exact (length_add_card_sdiff hbetween).trans (congrArg (· + again) (card_sitesBetween _ _ _))
  have hpaid : steps ≤ bound +
      2 * re.program.size * ∑ k ∈ Finset.range times, (c.askedTimes k).overlap := by
    have hpaid := Nat.le_of_add_right_le (Search.steps_askedTimes_le hsound times)
    rw [hleft, hzero, Nat.zero_add, ← hoverlap, Nat.mul_add] at hpaid
    exact (hlength.trans hsteps.symm).le.trans hpaid
  exact ⟨hbalance, by omega, hpaid⟩

/-- **The regex `straggling` finds every unit**, and has run a number of instructions quadratic in
the number of units by the time it has found no more. -/
theorem findAll_straggling {input : Input} (hvalid : input.isValid = true) :
    let c := straggling.findAll input
    let n := input.subject.size - input.start
    (∀ i < n, c.spanAfter i = some (.ok ⟨input.start + i, input.start + i + 1⟩)) ∧
      c.spanAfter n = none ∧
      ∀ times, n < times → (c.askedTimes times).stats.steps = n * n + 7 * n + 4 := by
  obtain ⟨α, _, units, hruns, hsearch, hsize, -⟩ := straggling.exists_units input
  have hstart : input.start ≤ units.size := hsize ▸ of_decide_eq_true hvalid
  obtain ⟨hyields, hsteps⟩ := Straggling.start_yields_units hstart
  rw [← hsearch] at hyields hsteps
  rw [hsize] at hyields hsteps
  have hspans := Cursor.spanAfter_eq hruns.nextSpan?_eq hyields
  refine ⟨fun i hi => ?_, ?_, fun times htimes => ?_⟩
  · rw [hspans]
    simp [hi]
  · rw [hspans]
    simp
  · rw [hruns.askedTimes_eq]
    exact hsteps times htimes

/-- **The cost of all matches is not linear in the program and the input** — not even where it is
counted with two runs of every instruction at every position from the start to the end. -/
theorem findAll_not_linear :
    ¬ ∀ (re : Regex) (input : Input), input.isValid = true → ∀ times,
      (re.findAll input).spanAfter times = none →
        ((re.findAll input).askedTimes (times + 1)).stats.steps ≤
          2 * re.program.size * (input.subject.size - input.start + 1) := by
  intro hlinear
  have hvalid : Input.isValid { subject := .oneByte (.replicate 9 0x61) } = true := by decide
  obtain ⟨-, hnone, hsteps⟩ := findAll_straggling hvalid
  have hbound := hlinear straggling _ hvalid 9 hnone
  rw [hsteps 10 (by decide)] at hbound
  revert hbound
  decide

end Regex

end RegexMachine
