import Mathlib
import RegexMachine.Proofs.Cost

/-!
# Proofs/Conservation — where the register arrays are, and how many there can be

A register array changes hands all the time: a fork takes one out of the pool, a thread that ends
gives its own back, one that accepts leaves it as the best match. None is lost on the way, and none
has two owners, so that all arrays ever made are in the pool or in use (`Machine.Balanced`).

The pool makes a new array only when it is empty. So there are never more arrays than were in use
at one time, and what can be in use is bounded by the program (`Machine.Roomy`): between two
positions the blocked threads stand at different pairs of a counter and a flag, and at one position
a fork is run at most once with either flag. Every instruction pays for two arrays at most. Those
that wait pay for blocked threads, forks for the threads they start, and those that never go on to
the next instruction for the threads a scan begins with, or for the best match.
-/

namespace RegexMachine

/-- Whether an instruction starts a thread. -/
def Instruction.forks : Instruction → Bool
  | fork _ => true
  | _ => false

/-! ## Instructions of one kind -/

namespace Program

variable (p : Program) {kind kind' : Instruction → Bool} {pc : Nat}

/-- The counters of all instructions of a kind. -/
def countersOf (kind : Instruction → Bool) : Finset Nat :=
  (Finset.range p.size).filter fun pc => p.code[pc]?.any kind

variable {p} in
theorem mem_countersOf :
    pc ∈ p.countersOf kind ↔ ∃ i, p.code[pc]? = some i ∧ kind i = true := by
  rw [countersOf, Finset.mem_filter, Finset.mem_range, Option.any_eq_true]
  exact ⟨And.right, fun h => ⟨p.lt_size h.choose_spec.1, h⟩⟩

theorem disjoint_countersOf (h : ∀ i : Instruction, kind i = true → kind' i = false) :
    Disjoint (p.countersOf kind) (p.countersOf kind') := by
  refine Finset.disjoint_left.mpr fun pc hpc hpc' => ?_
  obtain ⟨i, hi, hkind⟩ := mem_countersOf.mp hpc
  obtain ⟨i', hi', hkind'⟩ := mem_countersOf.mp hpc'
  obtain rfl : i = i' := Option.some.inj (hi.symm.trans hi')
  simp [h i hkind] at hkind'

/-- **No instruction pays twice** — none is of two of the three kinds. -/
theorem card_countersOf_le :
    (p.countersOf Instruction.forks).card + (p.countersOf Instruction.waits).card +
      (p.countersOf Instruction.neverFallsThrough).card ≤ p.size := by
  have hforks : Disjoint (p.countersOf Instruction.forks) (p.countersOf Instruction.waits) :=
    p.disjoint_countersOf fun i => by cases i <;> simp [Instruction.forks, Instruction.waits]
  have hrest : Disjoint (p.countersOf Instruction.forks ∪ p.countersOf Instruction.waits)
      (p.countersOf Instruction.neverFallsThrough) := by
    refine Finset.disjoint_union_left.mpr ⟨p.disjoint_countersOf fun i => ?_,
      p.disjoint_countersOf fun i => ?_⟩ <;>
      cases i <;> simp [Instruction.forks, Instruction.waits, Instruction.neverFallsThrough]
  rw [← Finset.card_union_of_disjoint hforks, ← Finset.card_union_of_disjoint hrest,
    ← Finset.card_range p.size]
  refine Finset.card_le_card ?_
  simp only [Finset.union_subset_iff]
  exact ⟨⟨Finset.filter_subset _ _, Finset.filter_subset _ _⟩, Finset.filter_subset _ _⟩

/-- **Every segment ends with an instruction that never goes on to the next one**: that before the
entry of the next lookbehind, or the last one of the program. -/
theorem length_entries_lt :
    p.lookbehindEntries.length < (p.countersOf Instruction.neverFallsThrough).card := by
  have hpositive : ∀ entry ∈ p.lookbehindEntries, 0 < entry ∧ entry < p.size := by
    intro entry hentry
    obtain ⟨hlt, pc, i, -, -, rfl⟩ := p.mem_entries.mp hentry
    exact ⟨Nat.succ_pos pc, hlt⟩
  have hnodup : ((p.size - 1) :: p.lookbehindEntries.map (· - 1)).Nodup := by
    refine List.nodup_cons.mpr ⟨fun hmem => ?_, List.Pairwise.map _ (fun _ _ => id) ?_⟩
    · obtain ⟨entry, hentry, heq⟩ := List.mem_map.mp hmem
      have := hpositive entry hentry
      omega
    · refine p.pairwise_lt_entries.imp_of_mem fun hentry _ hlt => ?_
      have := hpositive _ hentry
      omega
  rw [Nat.lt_iff_add_one_le]
  calc p.lookbehindEntries.length + 1
      = ((p.size - 1) :: p.lookbehindEntries.map (· - 1)).toFinset.card := by
        rw [List.toFinset_card_of_nodup hnodup, List.length_cons, List.length_map]
    _ ≤ (p.countersOf Instruction.neverFallsThrough).card := by
        refine Finset.card_le_card fun pc hpc => mem_countersOf.mpr ?_
        rcases List.mem_cons.mp (List.mem_toFinset.mp hpc) with rfl | hpc
        · obtain ⟨last, hlast, hends⟩ := p.exists_last
          exact ⟨last, by rwa [Array.back?_eq_getElem?] at hlast, hends⟩
        · obtain ⟨entry, hentry, rfl⟩ := List.mem_map.mp hpc
          obtain ⟨-, pc, i, hi, hends, rfl⟩ := p.mem_entries.mp hentry
          refine ⟨i, hi, ?_⟩
          cases i <;> simp_all [Instruction.endsSegment, Instruction.neverFallsThrough]

end Program

/-! ## What is in use -/

namespace VisitLog

instance (log : VisitLog) (x : Site) : Decidable (log.Marks x) :=
  inferInstanceAs (Decidable (log.last[slot x.pc x.consumed]? = some (some x.position)))

end VisitLog

/-- What the log of visits knows of a thread: its counter and its flag. -/
def Thread.pair (t : Thread) : Nat × Bool := (t.pc, t.consumed)

namespace Machine

section Definitions

variable {α : Type}

/-- The number of register arrays that threads have, or the best match. -/
def inUse (m : Machine) : Nat := m.threads.length + m.best.toList.length

/-- The forks that can still be run here, each with the flags it can be run with. -/
def forksLeft (p : Program) (m : Machine) : Finset (Nat × Bool) :=
  (p.countersOf Instruction.forks ×ˢ Finset.univ).filter fun x =>
    ¬ m.visits.Marks ⟨x.1, x.2, m.position⟩

/-- **The program pays for all arrays that are in use**, and for those that forks can still take
here. -/
structure Roomy (q : Query α) (m : Machine) : Prop where
  nodup_blocked : (m.blocked.map Thread.pair).Nodup
  marks_blocked : ∀ t ∈ m.blocked, m.visits.Marks (m.siteOf t)
  inUse_le : m.inUse + (m.forksLeft q.program).card ≤ 2 * q.program.size

/-- **Every register array ever made is in the pool or in use**, and there are no more of them than
`bound`. -/
structure Balanced (bound : Nat) (m : Machine) : Prop where
  allocations_eq : m.pool.allocations = m.pool.available + m.inUse
  allocations_le : m.pool.allocations ≤ bound

/-- **An account of all register arrays**: where they are, how long they are, and that there are at
most two for every instruction of the program. -/
structure Accounted (q : Query α) (m : Machine) : Prop where
  allocations_eq : m.pool.allocations =
    m.pool.available + m.active.length + m.blocked.length + m.running.toList.length +
      m.best.toList.length
  size_eq : ∀ registers ∈ m.pool.free ++ m.threads.map Thread.registers ++ m.best.toList,
    registers.size = q.registerCount
  allocations_le : m.pool.allocations ≤ 2 * q.program.size

end Definitions

/-! ## The program pays -/

section Room

variable {α : Type} {q : Query α} {p : Program} {m m' : Machine} {t : Thread}

theorem inUse_eq (m : Machine) :
    m.inUse = m.pending.length + m.blocked.length + m.best.toList.length := by
  rw [inUse, threads, pending, List.length_append]

theorem mem_forksLeft {x : Nat × Bool} :
    x ∈ m.forksLeft p ↔
      x.1 ∈ p.countersOf Instruction.forks ∧ ¬ m.visits.Marks ⟨x.1, x.2, m.position⟩ := by
  simp [forksLeft]

theorem card_pairs (counters : Finset Nat) :
    (counters ×ˢ (Finset.univ : Finset Bool)).card = 2 * counters.card := by
  rw [Finset.card_product, Finset.card_univ, Fintype.card_bool, Nat.mul_comm]

theorem card_forksLeft_le (p : Program) (m : Machine) :
    (m.forksLeft p).card ≤ 2 * (p.countersOf Instruction.forks).card :=
  (Finset.card_filter_le _ _).trans_eq (card_pairs _)

/-- **Threads that wait at different pairs are paid for by the instructions they wait at.** -/
theorem Sound.length_blocked_le (h : m.Sound q) (hnodup : (m.blocked.map Thread.pair).Nodup) :
    m.blocked.length ≤ 2 * (q.program.countersOf Instruction.waits).card := by
  calc m.blocked.length
      = (m.blocked.map Thread.pair).toFinset.card := by
        rw [List.toFinset_card_of_nodup hnodup, List.length_map]
    _ ≤ (q.program.countersOf Instruction.waits ×ˢ (Finset.univ : Finset Bool)).card := by
        refine Finset.card_le_card fun x hx => ?_
        obtain ⟨t, ht, rfl⟩ := List.mem_map.mp (List.mem_toFinset.mp hx)
        exact Finset.mem_product.mpr
          ⟨Program.mem_countersOf.mpr (h.awaits t ht), Finset.mem_univ _⟩
    _ = 2 * (q.program.countersOf Instruction.waits).card := card_pairs _

/-- A thread at an unmarked site stands at a pair of its own. -/
theorem Roomy.pair_not_mem (h : m.Roomy q) (hmarks : ¬ m.visits.Marks (m.siteOf t)) :
    t.pair ∉ m.blocked.map Thread.pair := by
  intro hmem
  obtain ⟨u, hu, hpair⟩ := List.mem_map.mp hmem
  obtain ⟨hpc, hconsumed⟩ := Prod.ext_iff.mp hpair
  have hsite : m.siteOf u = m.siteOf t := congrArg₂ (Site.mk · · m.position) hpc hconsumed
  exact hmarks (hsite ▸ h.marks_blocked u hu)

theorem Sound.roomy_beginScan (h : m.Sound q) : (m.beginScan q).Roomy q := by
  obtain ⟨pool, -, heq⟩ := h.beginScan_eq
  rw [heq]
  refine ⟨by simp, by simp, ?_⟩
  have hforks := card_forksLeft_le q.program (m.beginScan q)
  have hkinds := q.program.card_countersOf_le
  have hentries := q.program.length_entries_lt
  have hinUse : (m.beginScan q).inUse = q.program.lookbehindEntries.length + 1 := by
    rw [heq]
    simp [inUse, threads, seeds]
  rw [← heq]
  omega

variable [CodeUnit α] {V : Verdicts}

/-- Only a fork leaves two threads. -/
theorem length_successors_le {i : Instruction} (hi : q.instruction? t.pc = some i) :
    (m.successors q V t).length ≤ 1 + i.forks.toNat := by
  rw [successors, List.length_map]
  cases i with
  | consume min max =>
    simp only [Query.branches, siteOf, hi]
    repeat' split
    all_goals simp [Instruction.forks]
  | assert | endLoop | readLookbehind =>
    rw [Query.branches, siteOf, hi]
    exact Nat.le_trans (by dsimp only; split <;> simp) (Nat.le_add_right 1 _)
  | fork | jump | accept | setRegister | clearRegister | beginLoop | writeLookbehind =>
    simp [Query.branches, siteOf, hi, Instruction.forks]

namespace Turn

theorem forksLeft_subset (h : Turn q V m t m') (hsound : m.Sound q) (ht : m.running = some t)
    (hposition : m'.position = m.position) :
    m'.forksLeft q.program ⊆ m.forksLeft q.program := by
  intro x hx
  obtain ⟨hfork, hmarks⟩ := mem_forksLeft.mp hx
  rw [hposition] at hmarks
  exact mem_forksLeft.mpr ⟨hfork, fun hold => hmarks ((h.marks_iff hsound ht rfl).mpr (.inr hold))⟩

/-- A fork that was run is not left. -/
theorem card_forksLeft_lt (h : Turn q V m t m') (hsound : m.Sound q) (ht : m.running = some t)
    (hposition : m'.position = m.position) (hmarks : ¬ m.visits.Marks (m.siteOf t))
    {i : Instruction} (hi : q.instruction? t.pc = some i) (hforks : i.forks = true) :
    (m'.forksLeft q.program).card < (m.forksLeft q.program).card := by
  refine Finset.card_lt_card ((Finset.ssubset_iff_of_subset
    (h.forksLeft_subset hsound ht hposition)).mpr ⟨t.pair, ?_, fun hmem => ?_⟩)
  · exact mem_forksLeft.mpr ⟨Program.mem_countersOf.mpr ⟨i, hi, hforks⟩, hmarks⟩
  · have hnot := (mem_forksLeft.mp hmem).2
    rw [hposition] at hnot
    exact hnot ((h.marks_iff hsound ht rfl).mpr (.inl rfl))

/-- **A turn takes no array that is not paid for** — only a fork takes one, and it was one of those
left. -/
theorem inUse_add_card_le (h : Turn q V m t m') (hsound : m.Sound q) (ht : m.running = some t)
    (hposition : m'.position = m.position) :
    m'.inUse + (m'.forksLeft q.program).card ≤ m.inUse + (m.forksLeft q.program).card := by
  have hleft := Finset.card_le_card (h.forksLeft_subset hsound ht hposition)
  rw [inUse_eq m', inUse_eq m, pending_of_some ht, List.length_cons]
  rcases id h with ⟨-, hpending, hblocked, hbest, -⟩ | ⟨-, -, hpending, hblocked, hbest, -⟩ |
    ⟨-, -, hpending, hblocked, hbest, -⟩ | @⟨hmarks, i, hi, -, -, hpending, hblocked, hbest, -⟩
  · rw [hpending, hblocked, hbest]
    omega
  · rw [hpending, hblocked, hbest, List.length_cons]
    omega
  · rw [hpending, hblocked, hbest, List.length_nil, Option.toList_some, List.length_singleton]
    omega
  · have hsuccessors := length_successors_le (m := m) (V := V) hi
    rw [hpending, hblocked, hbest, List.length_append]
    cases hforks : i.forks with
    | true =>
      have hfewer := h.card_forksLeft_lt hsound ht hposition hmarks hi hforks
      rw [hforks, Bool.toNat_true] at hsuccessors
      omega
    | false =>
      rw [hforks, Bool.toNat_false] at hsuccessors
      omega

/-- Only the thread whose turn it was can become blocked, at a site that was not marked. -/
theorem blocked_cases (h : Turn q V m t m') :
    m'.blocked = m.blocked ∨
      ¬ m.visits.Marks (m.siteOf t) ∧ m'.blocked = t :: m.blocked := by
  rcases h with ⟨-, -, hblocked, -⟩ | ⟨hmarks, -, -, hblocked, -⟩ | ⟨-, -, -, hblocked, -⟩ |
    ⟨-, -, -, -, -, hblocked, -⟩
  · exact .inl hblocked
  · exact .inr ⟨hmarks, hblocked⟩
  · exact .inl hblocked
  · exact .inl hblocked

theorem roomy (h : Turn q V m t m') (hroomy : m.Roomy q) (hsound : m.Sound q)
    (ht : m.running = some t) (hposition : m'.position = m.position) : m'.Roomy q := by
  have hroom := Nat.le_trans (h.inUse_add_card_le hsound ht hposition) hroomy.inUse_le
  have hmarked : ∀ u : Thread, u = t ∨ u ∈ m.blocked → m'.visits.Marks (m'.siteOf u) := by
    intro u hu
    rw [siteOf_congr hposition]
    exact (h.marks_iff hsound ht rfl).mpr (hu.imp (congrArg m.siteOf) (hroomy.marks_blocked u))
  rcases h.blocked_cases with hblocked | ⟨hmarks, hblocked⟩
  · exact ⟨hblocked ▸ hroomy.nodup_blocked, fun u hu => hmarked u (.inr (hblocked ▸ hu)), hroom⟩
  · refine ⟨?_, fun u hu => hmarked u (List.mem_cons.mp (hblocked ▸ hu)), hroom⟩
    rw [hblocked, List.map_cons]
    exact List.nodup_cons.mpr ⟨hroomy.pair_not_mem hmarks, hroomy.nodup_blocked⟩

end Turn

theorem Roomy.step (h : m.Roomy q) (hsound : m.Sound q) : (m.step q).Roomy q := by
  rcases hrunning : m.running with _ | t
  · rcases hactive : m.active with _ | ⟨t, active⟩
    · rwa [step_of_isIdle q (by simp [isIdle, hrunning, hactive])]
    · have hroom := h.inUse_le
      rw [step_of_none q hrunning hactive]
      refine ⟨h.nodup_blocked, h.marks_blocked, ?_⟩
      rw [inUse_eq, pending_of_none hrunning, hactive] at hroom
      rwa [inUse_eq, pending_of_some rfl]
  · exact (hsound.turn hsound.agrees_known hrunning).roomy h hsound hrunning (position_step q m)

theorem Roomy.read (h : m.Roomy q) (hsound : m.Sound q) (hidle : m.isIdle = true)
    (hlt : m.position < q.input.size) : (m.read q hlt).Roomy q := by
  refine ⟨by simp [Machine.read], by simp [Machine.read], ?_⟩
  have hrest : m.running = none ∧ m.active = [] := by simpa [isIdle] using hidle
  have hblocked := hsound.length_blocked_le h.nodup_blocked
  have hforks := card_forksLeft_le q.program (m.read q hlt)
  have hkinds := q.program.card_countersOf_le
  have hentries := q.program.length_entries_lt
  have hbest : m.best.toList.length ≤ 1 := by cases m.best <;> simp
  have hinUse : (m.read q hlt).inUse ≤ m.blocked.length + m.best.toList.length := by
    simpa [inUse, threads, Machine.read, Machine.advance, hrest.1, hrest.2] using
      List.length_filterMap_le _ m.blocked
  omega

theorem Scanning.roomy {m₀ : Machine} (h : Scanning q m₀ m) (h₀ : m₀.Sound q) : m.Roomy q := by
  induction h with
  | begin => exact h₀.roomy_beginScan
  | step h ih => exact ih.step (h.sound h₀)
  | read h hidle _ hlt ih => exact ih.read (h.sound h₀) hidle hlt

end Room

/-! ## No array is lost -/

namespace Balanced

variable {α : Type} {q : Query α} {m m' : Machine} {t : Thread} {bound : Nat}

/-- Arrays may move between the pool and their users. -/
theorem moved (h : m.Balanced bound) (hallocations : m'.pool.allocations = m.pool.allocations)
    (hsum : m'.pool.available + m'.inUse = m.pool.available + m.inUse) : m'.Balanced bound :=
  ⟨by rw [hallocations, hsum, h.allocations_eq], hallocations ▸ h.allocations_le⟩

/-- **A new array is made only when all others are in use.** -/
theorem acquired (h : m.Balanced bound) (hpool : m'.pool = m.pool.acquire.2)
    (hinUse : m'.inUse = m.inUse + 1) (hle : m'.inUse ≤ bound) : m'.Balanced bound := by
  have hsum := h.allocations_eq
  have hmost := h.allocations_le
  have hallocations : m'.pool.allocations =
      m.pool.allocations + if m.pool.available = 0 then 1 else 0 :=
    hpool ▸ m.pool.allocations_acquire
  have havailable : m'.pool.available = m.pool.available - 1 := hpool ▸ m.pool.available_acquire
  constructor <;> split at hallocations <;> omega

theorem note (h : m.Balanced bound) (t : Thread) : (m.note t).Balanced bound := h.moved rfl rfl

theorem drop (h : m.Balanced bound) (ht : m.running = some t) : (m.drop t).Balanced bound := by
  refine h.moved rfl ?_
  simp only [Machine.drop, inUse, threads, ht, RegisterPool.available_release, Option.toList_none,
    Option.toList_some, List.length_append, List.length_nil, List.length_singleton]
  omega

theorem resume (h : m.Balanced bound) (ht : m.running = some t) (u : Thread) :
    (m.resume u).Balanced bound := by
  refine h.moved rfl ?_
  simp [Machine.resume, inUse, threads, ht]

theorem accept (h : m.Balanced bound) (ht : m.running = some t) :
    (m.accept t).Balanced bound := by
  refine h.moved (by simp [Machine.accept]) ?_
  simp only [Machine.accept, inUse, threads, ht, RegisterPool.available_releaseAll,
    Option.toList_none, Option.toList_some, List.length_append, List.length_nil,
    List.length_singleton, List.length_map]
  omega

theorem clear (h : m.Balanced bound) : m.clear.Balanced bound := by
  refine h.moved (by simp [Machine.clear]) ?_
  simp [Machine.clear, inUse, threads, Nat.add_assoc]

theorem foldl_spawn (h : m.Balanced bound) (pcs : List Nat)
    (hle : m.inUse + pcs.length ≤ bound) : (pcs.foldl Machine.spawn m).Balanced bound := by
  induction pcs generalizing m with
  | nil => exact h
  | cons pc pcs ih =>
    have hinUse : (m.spawn pc).inUse = m.inUse + 1 := by
      simp only [Machine.spawn, inUse, threads, List.length_append, List.length_cons]
      omega
    rw [List.length_cons] at hle
    exact ih (h.acquired rfl hinUse (by omega)) (by omega)

theorem beginScan (h : m.Balanced (2 * q.program.size)) :
    (m.beginScan q).Balanced (2 * q.program.size) := by
  have hkinds := q.program.card_countersOf_le
  have hentries := q.program.length_entries_lt
  refine foldl_spawn (m := { m.clear with
    visits := .fresh q.program.size
    matched := noneMatched q
    stats.scans := m.stats.scans + 1
    stepsHere := 0 }) (h.clear.moved rfl rfl) (seeds q) ?_
  have hinUse : m.clear.inUse = 0 := by simp [Machine.clear, inUse, threads]
  change m.clear.inUse + (q.program.lookbehindEntries.length + 1) ≤ _
  omega

theorem foldl_wake (waiting : List Thread) (unit : UInt16) (m : Machine) :
    (waiting.foldl (wake q unit) m).pool.allocations = m.pool.allocations ∧
      (waiting.foldl (wake q unit) m).pool.available + (waiting.foldl (wake q unit) m).inUse =
        m.pool.available + m.inUse + waiting.length := by
  induction waiting generalizing m with
  | nil => exact ⟨rfl, rfl⟩
  | cons t waiting ih =>
    obtain ⟨hallocations, hsum⟩ := ih (m.wake q unit t)
    rw [List.foldl_cons, hallocations, hsum, wake, List.length_cons]
    split
    · refine ⟨rfl, ?_⟩
      simp only [inUse, threads, List.length_append, List.length_cons]
      omega
    · refine ⟨rfl, ?_⟩
      simp only [inUse, threads, RegisterPool.available_release]
      omega

theorem feed (h : m.Balanced bound) (unit : UInt16) : (m.feed q unit).Balanced bound := by
  obtain ⟨hallocations, hsum⟩ := foldl_wake (q := q) m.blocked unit { m with blocked := [] }
  refine h.moved hallocations (hsum.trans ?_)
  simp only [inUse, threads, List.length_append, List.length_nil]
  omega

theorem advance (h : m.Balanced bound) : m.advance.Balanced bound := h.moved rfl rfl

variable [CodeUnit α]

/-- **Every instruction leaves the arrays in balance** if it has room for those it takes. -/
theorem execute (h : m.Balanced bound) (ht : m.running = some t) (i : Instruction)
    (hle : (m.execute q t i).inUse ≤ bound) : (m.execute q t i).Balanced bound := by
  cases i with
  | consume min max =>
    refine h.moved rfl ?_
    simp only [Machine.execute, inUse, threads, ht, Option.toList_none, Option.toList_some,
      List.length_append, List.length_nil, List.length_cons]
    omega
  | fork target =>
    refine h.acquired rfl ?_ hle
    simp only [Machine.execute, inUse, threads, ht, Option.toList_some, List.length_append,
      List.length_cons, List.length_nil]
    omega
  | accept => exact h.accept ht
  | jump | setRegister | clearRegister | beginLoop => exact h.resume ht _
  | assert | endLoop | readLookbehind =>
    rw [Machine.execute]
    split
    · exact h.resume ht _
    · exact h.drop ht
  | writeLookbehind index =>
    exact drop (m := { m with matched := m.matched.setIfInBounds index true })
      (h.moved rfl rfl) ht

theorem step (h : m.Balanced bound) (hle : (m.step q).inUse ≤ bound) :
    (m.step q).Balanced bound := by
  rw [Machine.step] at hle ⊢
  split at hle
  · next t hrunning =>
    split at hle
    · next hadmits =>
      rw [if_pos hadmits]
      split at hle
      · exact (h.note t).execute hrunning _ hle
      · exact h.drop hrunning
    · next hadmits =>
      rw [if_neg hadmits]
      exact h.drop hrunning
  · next t active hrunning hactive =>
    refine h.moved rfl ?_
    simp [inUse, threads, hrunning, hactive]
  · exact h

end Balanced

/-! ## All through a search -/

variable {α : Type} [CodeUnit α] {q : Query α} {m₀ m : Machine}

/-- **All through a scan the arrays are in balance**, at most two for every instruction. -/
theorem Scanning.balanced (h : Scanning q m₀ m) (h₀ : m₀.Sound q)
    (hbalanced : m₀.Balanced (2 * q.program.size)) : m.Balanced (2 * q.program.size) := by
  induction h with
  | begin => exact hbalanced.beginScan
  | step h ih => exact ih.step (Nat.le_of_add_right_le (h.step.roomy h₀).inUse_le)
  | read h hidle _ hlt ih => exact ih.advance.feed _

theorem Sound.balanced_scan (h : m.Sound q) (hbalanced : m.Balanced (2 * q.program.size))
    (host : Host) : (m.scan q host).2.1.Balanced (2 * q.program.size) := by
  have hend := Scanning.scan q m host
  split at hend
  · next last host' heq =>
    rw [heq]
    exact hend.1.balanced h hbalanced
  · next error last host' heq =>
    obtain ⟨before, hbefore, -, -, rfl⟩ := hend
    rw [heq]
    exact (hbefore.balanced h hbalanced).advance

omit [CodeUnit α] in
theorem Sound.accounted (h : m.Sound q) (hbalanced : m.Balanced (2 * q.program.size)) :
    m.Accounted q where
  allocations_eq := by
    rw [hbalanced.allocations_eq, inUse, threads, List.length_append, List.length_append]
    omega
  size_eq := fun registers hmem => by
    rcases List.mem_append.mp hmem with hmem | hmem
    · rcases List.mem_append.mp hmem with hmem | hmem
      · exact h.pool.size_free registers hmem
      · obtain ⟨t, ht, rfl⟩ := List.mem_map.mp hmem
        exact (h.fits t ht).size_registers
    · exact h.size_best registers (by simpa using hmem)
  allocations_le := hbalanced.allocations_le

end Machine

namespace Search

variable {α : Type} [CodeUnit α] {q : Query α} {s : Search}

omit [CodeUnit α] in
theorem balanced_start (q : Query α) (position bound : Nat) :
    (start q position).machine.Balanced bound :=
  ⟨rfl, Nat.zero_le _⟩

omit [CodeUnit α] in
theorem balanced_conclude {m : Machine} {bound : Nat} (h : m.Balanced bound) :
    (conclude q m).2.machine.Balanced bound := by
  rw [conclude]
  split
  · exact h
  · split
    · exact h.moved rfl rfl
    · exact h.clear

theorem balanced_next (hsound : s.machine.Sound q)
    (h : s.machine.Balanced (2 * q.program.size)) (host : Host) :
    (s.next q host).2.1.machine.Balanced (2 * q.program.size) := by
  have hscan := hsound.balanced_scan h host
  rw [next]
  split
  · exact h
  · split
    · next heq =>
      rw [heq] at hscan
      exact hscan.clear
    · next heq =>
      rw [heq] at hscan
      exact balanced_conclude hscan

/-- **Whatever is done with a search, its register arrays are in balance.** -/
theorem balanced_asks (q : Query α) (position : Nat) (calls : List Call) :
    let s := start q position
    (∀ ask ∈ s.asks q calls,
        ask.1.machine.Sound q ∧ ask.1.machine.Balanced (2 * q.program.size)) ∧
      (s.after q calls).machine.Sound q ∧
        (s.after q calls).machine.Balanced (2 * q.program.size) :=
  asks_induction
    (motive := fun s => s.machine.Sound q ∧ s.machine.Balanced (2 * q.program.size))
    (fun _ host h => ⟨sound_next h.1 host, balanced_next h.1 h.2 host⟩)
    ⟨sound_start q position, balanced_start q position _⟩ calls

/-- **Register arrays are conserved, and the program alone bounds their number** — before and after
every scan of a search, and in every state a scan passes through. All arrays ever made are in the
pool, with a thread, or the best match; all have the length fixed for the search; and there are no
more than two for every instruction, whatever the input, the hosts and the calls. -/
theorem arrays_conserved (q : Query α) (position : Nat) (calls : List Call) :
    let s := start q position
    (∀ ask ∈ s.asks q calls,
        ask.1.machine.Accounted q ∧
          (∀ m, Machine.Scanning q ask.1.machine m → m.Accounted q) ∧
          (ask.1.machine.scan q ask.2).2.1.Accounted q) ∧
      (s.after q calls).machine.Accounted q := by
  obtain ⟨hasks, hsound, hbalanced⟩ := balanced_asks q position calls
  refine ⟨fun ask hask => ?_, hsound.accounted hbalanced⟩
  obtain ⟨hsound, hbalanced⟩ := hasks ask hask
  exact ⟨hsound.accounted hbalanced,
    fun m hm => (hm.sound hsound).accounted (hm.balanced hsound hbalanced),
    (hsound.scan ask.2).accounted (hsound.balanced_scan hbalanced ask.2)⟩

end Search

end RegexMachine
