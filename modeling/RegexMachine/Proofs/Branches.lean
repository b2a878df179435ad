import Mathlib.Data.List.Basic
import RegexMachine.Proofs.Invariant

/-!
# Proofs/Branches — what one instruction can lead to

A thread stands at a **site**: a counter, the flag that says whether it has consumed in its loop,
and a position. `Query.branches` lists the sites that the instruction there leads to, the preferred
one first; what the instruction reads of a lookbehind is given, as a table of `Verdicts`. This is
the program and the input alone, without queues and logs.

The machine follows it thread by thread. `Machine.Turn` says once what a turn of a thread can come
to: the thread is refused, waits for a unit, accepts, or leaves its successors in its place.
Reading a unit puts the successors of all blocked threads in their place (`pending_read`).
-/

namespace RegexMachine

/-- Where a thread stands. -/
structure Site where
  pc : Nat
  /-- Whether a unit was consumed since the last `beginLoop`. -/
  consumed : Bool
  position : Nat
  deriving DecidableEq, Repr

/-- For every lookbehind and position, whether the lookbehind matches there. -/
abbrev Verdicts := Nat → Nat → Bool

/-! ## One step -/

namespace Query

variable {α : Type} [CodeUnit α] (q : Query α)

/-- **The sites an instruction leads to**, that of the highest priority first. -/
def branches (V : Verdicts) (x : Site) : List Site :=
  let next := { x with pc := x.pc + 1 }
  match q.instruction? x.pc with
  | none | some .accept | some (.writeLookbehind _) => []
  | some (.consume min max) =>
    match q.input[x.position]? with
    | none => []
    | some unit =>
      if min ≤ CodeUnit.word unit ∧ CodeUnit.word unit ≤ max then
        [{ pc := x.pc + 1, consumed := true, position := x.position + 1 }]
      else []
  | some (.assert kind) => if kind.holds q.input x.position then [next] else []
  | some (.fork target) => [next, { x with pc := target }]
  | some (.jump target) => [{ x with pc := target }]
  | some (.setRegister _) | some (.clearRegister _) => [next]
  | some .beginLoop => [{ next with consumed := false }]
  | some .endLoop => if x.consumed then [next] else []
  | some (.readLookbehind index want) => if V index x.position = want then [next] else []

/-- The registers of a thread that has run the instruction at a site. -/
def carry (registers : Registers) (x : Site) : Registers :=
  match q.instruction? x.pc with
  | some (.setRegister r) => registers.setIfInBounds r (some x.position)
  | some (.clearRegister r) => registers.setIfInBounds r none
  | _ => registers

end Query

section Branches

variable {α : Type} [CodeUnit α] {q : Query α} {V : Verdicts}

/-- **What a branch can be** — the next instruction or the target of a jump, at the next position
if the instruction waited for a unit, and else at the same one. -/
theorem Query.branch_cases {x y : Site} (h : y ∈ q.branches V x) :
    ∃ i, q.instruction? x.pc = some i ∧
      (y.pc = x.pc + 1 ∧ i.neverFallsThrough = false ∨ i = .fork y.pc ∨ i = .jump y.pc) ∧
      (if i.waits then x.position < q.input.size ∧ y.position = x.position + 1
        else y.position = x.position) := by
  cases hi : q.instruction? x.pc with
  | none => simp [branches, hi] at h
  | some i =>
    refine ⟨i, rfl, ?_⟩
    cases i with
    | consume min max =>
      simp only [branches, hi] at h
      split at h
      · simp at h
      · next unit hunit =>
        obtain ⟨-, rfl⟩ := by simpa using h
        exact ⟨.inl ⟨rfl, rfl⟩, (Array.getElem?_eq_some_iff.mp hunit).1, rfl⟩
    | fork target =>
      simp only [branches, hi, List.mem_cons, List.not_mem_nil, or_false] at h
      rcases h with rfl | rfl
      · exact ⟨.inl ⟨rfl, rfl⟩, rfl⟩
      · exact ⟨.inr (.inl rfl), rfl⟩
    | jump target =>
      simp only [branches, hi, List.mem_singleton] at h
      subst h
      exact ⟨.inr (.inr rfl), rfl⟩
    | accept | writeLookbehind => simp [branches, hi] at h
    | setRegister | clearRegister | beginLoop =>
      simp only [branches, hi, List.mem_singleton] at h
      subst h
      exact ⟨.inl ⟨rfl, rfl⟩, rfl⟩
    | assert | endLoop | readLookbehind =>
      simp only [branches, hi] at h
      split at h
      · obtain rfl := List.mem_singleton.mp h
        exact ⟨.inl ⟨rfl, rfl⟩, rfl⟩
      · simp at h

/-- An instruction that waits leads to the next position. -/
theorem Query.Awaits.branch {x y : Site} (hx : q.Awaits x.pc) (h : y ∈ q.branches V x) :
    x.position < q.input.size ∧ y.position = x.position + 1 := by
  obtain ⟨i, hi, -, hposition⟩ := branch_cases h
  rwa [if_pos (hx.waits hi)] at hposition

/-- An instruction that does not wait stays at its position. -/
theorem Query.position_branch {x y : Site} {i : Instruction} (hi : q.instruction? x.pc = some i)
    (hwaits : i.waits = false) (h : y ∈ q.branches V x) : y.position = x.position := by
  obtain ⟨i', hi', -, hposition⟩ := branch_cases h
  obtain rfl : i = i' := Option.some.inj (hi.symm.trans hi')
  simpa [hwaits] using hposition

theorem Query.position_branch_le {x y : Site} (h : y ∈ q.branches V x) :
    x.position ≤ y.position := by
  obtain ⟨i, -, -, hposition⟩ := branch_cases h
  split at hposition <;> omega

/-- Any unit will do for an instruction that asks for none in particular. -/
theorem Query.branches_consumeAny {x : Site} (hi : q.instruction? x.pc = some .consumeAny)
    (hlt : x.position < q.input.size) :
    q.branches V x = [⟨x.pc + 1, true, x.position + 1⟩] := by
  have hlow : ∀ unit : UInt16, 0 ≤ unit := fun unit => UInt16.le_iff_toNat_le.mpr (Nat.zero_le _)
  have hhigh : ∀ unit : UInt16, unit ≤ 0xffff := fun unit =>
    UInt16.le_iff_toNat_le.mpr (Nat.le_of_lt_succ (UInt16.toNat_lt unit))
  simp [branches, hi, Instruction.consumeAny, Array.getElem?_eq_getElem hlt, hlow, hhigh]

end Branches

/-! ## Marks at sites -/

namespace VisitLog

/-- Whether the instruction at a site was the last to be run with its flag. -/
def Marks (log : VisitLog) (x : Site) : Prop := log.Has x.pc x.consumed x.position

variable {log : VisitLog} {size : Nat} {x y : Site}

theorem marks_record_self (hsize : log.last.size = 2 * size) (hx : x.pc < size) :
    (log.record x.pc x.consumed x.position).Marks x :=
  (has_record hsize hx).mpr (.inl ⟨rfl, rfl, rfl⟩)

/-- A mark is only replaced by one at another position. -/
theorem Marks.record (h : log.Marks y) (hsize : log.last.size = 2 * size) (hx : x.pc < size)
    (hposition : y.position = x.position) : (log.record x.pc x.consumed x.position).Marks y := by
  refine (has_record hsize hx).mpr ?_
  by_cases hpair : y.pc = x.pc ∧ y.consumed = x.consumed
  · exact .inl ⟨hpair.1, hpair.2, hposition⟩
  · exact .inr ⟨hpair, h⟩

theorem marks_of_record (hsize : log.last.size = 2 * size) (hx : x.pc < size)
    (h : (log.record x.pc x.consumed x.position).Marks y) : y = x ∨ log.Marks y := by
  rcases (has_record hsize hx).mp h with ⟨hpc, hconsumed, hposition⟩ | ⟨-, hold⟩
  · obtain ⟨pc, consumed, position⟩ := y
    obtain rfl := hpc
    obtain rfl := hconsumed
    obtain rfl := hposition
    exact .inl rfl
  · exact .inr hold

end VisitLog

/-! ## Threads at sites -/

namespace Machine

variable {α : Type} [CodeUnit α] {q : Query α} {V : Verdicts} {m : Machine} {t : Thread}
  {i : Instruction}

/-- Where a thread stands. -/
def siteOf (m : Machine) (t : Thread) : Site := ⟨t.pc, t.consumed, m.position⟩

/-- The threads that go on where a thread stands. -/
def successors (q : Query α) (V : Verdicts) (m : Machine) (t : Thread) : List Thread :=
  (q.branches V (m.siteOf t)).map fun x =>
    { pc := x.pc, registers := q.carry t.registers (m.siteOf t), consumed := x.consumed }

/-- What the machine knows of the lookbehind the next instruction reads is the verdict on it. -/
def Agrees (q : Query α) (V : Verdicts) (m : Machine) : Prop :=
  ∀ t index want, m.running = some t → ¬ m.visits.Marks (m.siteOf t) →
    q.instruction? t.pc = some (.readLookbehind index want) →
    m.matched[index]? = some (V index m.position)

/-- An instruction that neither waits nor accepts leaves one thread at every site it leads to. -/
theorem pending_execute (hi : q.instruction? t.pc = some i) (hwaits : i.waits = false)
    (haccept : i ≠ .accept)
    (hread : ∀ index want, i = .readLookbehind index want →
      m.matched[index]? = some (V index m.position)) :
    (m.execute q t i).pending = m.successors q V t ++ m.active := by
  rw [successors]
  cases i with
  | consume => exact absurd hwaits (by simp [Instruction.waits])
  | accept => exact absurd rfl haccept
  | assert kind =>
    by_cases hholds : kind.holds q.input m.position = true <;>
      simp [execute, pending, resume, drop, Query.branches, Query.carry, siteOf, hi, hholds,
        Thread.advance]
  | endLoop =>
    by_cases hconsumed : t.consumed = true <;>
      simp [execute, pending, resume, drop, Query.branches, Query.carry, siteOf, hi, hconsumed,
        Thread.advance]
  | readLookbehind index want =>
    by_cases hV : V index m.position = want <;>
      simp [execute, pending, resume, drop, Query.branches, Query.carry, siteOf, hi, hV,
        hread index want rfl, Thread.advance]
  | fork | jump | setRegister | clearRegister | beginLoop | writeLookbehind =>
    simp [execute, pending, resume, drop, Query.branches, Query.carry, siteOf, hi,
      Thread.advance, Thread.write, RegisterPool.duplicate]

/-- A step that gives the turn to a thread leaves all threads where they are. -/
theorem step_gives_turn (h : m.running = none) :
    (m.step q).pending = m.pending ∧ (m.step q).blocked = m.blocked ∧
      (m.step q).best = m.best := by
  rcases hactive : m.active with _ | ⟨t, active⟩
  · rw [step_of_isIdle q (by simp [isIdle, h, hactive])]
    exact ⟨rfl, rfl, rfl⟩
  · rw [step_of_none q h hactive, pending_of_none h, hactive]
    exact ⟨rfl, rfl, rfl⟩

/-- What is known of lookbehinds once an instruction was run. -/
def matchedAfter (m : Machine) : Instruction → Array Bool
  | .writeLookbehind index => m.matched.setIfInBounds index true
  | _ => m.matched

/-- **What a turn can come to** — what the machine `m'` after the turn of the thread `t` has in
place of what `m` had. -/
inductive Turn (q : Query α) (V : Verdicts) (m : Machine) (t : Thread) (m' : Machine) : Prop
  | refused (hmarks : m.visits.Marks (m.siteOf t)) (hpending : m'.pending = m.active)
    (hblocked : m'.blocked = m.blocked) (hbest : m'.best = m.best) (hvisits : m'.visits = m.visits)
    (hmatched : m'.matched = m.matched)
  | waits (hmarks : ¬ m.visits.Marks (m.siteOf t)) (hawaits : q.Awaits t.pc)
    (hpending : m'.pending = m.active) (hblocked : m'.blocked = t :: m.blocked)
    (hbest : m'.best = m.best) (hvisits : m'.visits = m.visits.record t.pc t.consumed m.position)
    (hmatched : m'.matched = m.matched)
  | accepts (hmarks : ¬ m.visits.Marks (m.siteOf t)) (hi : q.instruction? t.pc = some .accept)
    (hpending : m'.pending = []) (hblocked : m'.blocked = m.blocked)
    (hbest : m'.best = some t.registers)
    (hvisits : m'.visits = m.visits.record t.pc t.consumed m.position)
    (hmatched : m'.matched = m.matched)
  | goes (hmarks : ¬ m.visits.Marks (m.siteOf t)) {i : Instruction}
    (hi : q.instruction? t.pc = some i) (hwaits : i.waits = false) (haccept : i ≠ .accept)
    (hpending : m'.pending = m.successors q V t ++ m.active) (hblocked : m'.blocked = m.blocked)
    (hbest : m'.best = m.best) (hvisits : m'.visits = m.visits.record t.pc t.consumed m.position)
    (hmatched : m'.matched = m.matchedAfter i)

/-- **Every turn of the machine is one of these.** -/
theorem Sound.turn (h : m.Sound q) (hreads : m.Agrees q V) (ht : m.running = some t) :
    Turn q V m t (m.step q) := by
  have hlt := (h.fits_running ht).counter_lt
  have hadmits : m.visits.admits t.pc t.consumed m.position = true ↔
      ¬ m.visits.Marks (m.siteOf t) := by
    rw [VisitLog.admits_iff h.size_visits]
    exact ⟨And.right, And.intro hlt⟩
  by_cases hmarks : m.visits.Marks (m.siteOf t)
  · rw [step_of_refused q ht (Bool.eq_false_iff.mpr fun hadmitted => hadmits.mp hadmitted hmarks)]
    exact .refused hmarks rfl rfl rfl rfl rfl
  · obtain ⟨i, hi⟩ : ∃ i, q.instruction? t.pc = some i := ⟨_, Array.getElem?_eq_getElem hlt⟩
    rw [step_of_admitted q ht (hadmits.mpr hmarks) hi]
    have hvisits : ((m.note t).execute q t i).visits =
        m.visits.record t.pc t.consumed m.position := by
      rw [visits_execute]
      rfl
    by_cases hwaits : i.waits = true
    · cases i with
      | consume min max => exact .waits hmarks ⟨_, hi, rfl⟩ rfl rfl rfl hvisits rfl
      | _ => exact absurd hwaits (by simp [Instruction.waits])
    · have hsilent : i.waits = false := by simpa using hwaits
      by_cases haccept : i = .accept
      · subst haccept
        exact .accepts hmarks hi rfl rfl rfl hvisits rfl
      · refine .goes hmarks hi hsilent haccept (pending_execute hi hsilent haccept ?_)
          (blocked_execute q hsilent) (best_execute q haccept) hvisits ?_
        · rintro index want rfl
          exact hreads t index want ht hmarks hi
        · cases i with
          | writeLookbehind index => rfl
          | _ => exact matched_execute q (by simp)

/-- What the machine knows of the lookbehinds here, as a table of verdicts. -/
def known (m : Machine) : Verdicts := fun index _ => (m.matched[index]?).getD false

omit [CodeUnit α] in
/-- Where only the instruction that is run next matters, what the machine knows will do. -/
theorem Sound.agrees_known (h : m.Sound q) : m.Agrees q m.known := by
  intro t index want _ _ hi
  have hlt : index < m.matched.size := by
    rw [h.size_matched]
    exact q.program.lookbehind_lt (.inr ⟨want, hi⟩)
  simp [known, hlt]

theorem siteOf_congr {m' : Machine} (h : m'.position = m.position) : m'.siteOf = m.siteOf := by
  funext t
  rw [siteOf, siteOf, h]

/-- **The successors of a thread stand at the branches of its instruction.** -/
theorem map_siteOf_successors {m' : Machine}
    (hposition : ∀ y ∈ q.branches V (m.siteOf t), y.position = m'.position) :
    (m.successors q V t).map m'.siteOf = q.branches V (m.siteOf t) := by
  rw [successors, List.map_map, List.map_congr_left (g := id) fun y hy => ?_, List.map_id]
  rw [Function.comp, siteOf, ← hposition y hy]
  rfl

theorem exists_successor_iff {m' : Machine} {y : Site}
    (hposition : ∀ y ∈ q.branches V (m.siteOf t), y.position = m'.position) :
    (∃ u ∈ m.successors q V t, m'.siteOf u = y) ↔ y ∈ q.branches V (m.siteOf t) := by
  rw [← List.mem_map, map_siteOf_successors hposition]

namespace Turn

variable {m' : Machine} {x : Site} {u : Thread}

/-- A thread at a marked site is refused. -/
theorem of_marks (h : Turn q V m t m') (hmarks : m.visits.Marks (m.siteOf t)) :
    m'.pending = m.active ∧ m'.blocked = m.blocked ∧ m'.best = m.best ∧ m'.visits = m.visits := by
  rcases h with ⟨-, hpending, hblocked, hbest, hvisits, -⟩ | ⟨hmarks', -⟩ | ⟨hmarks', -⟩ |
    ⟨hmarks', -⟩
  · exact ⟨hpending, hblocked, hbest, hvisits⟩
  all_goals exact absurd hmarks hmarks'

theorem visits_eq (h : Turn q V m t m') (hmarks : ¬ m.visits.Marks (m.siteOf t)) :
    m'.visits = m.visits.record t.pc t.consumed m.position := by
  rcases h with ⟨hmarks', -⟩ | ⟨-, -, -, -, -, hvisits, -⟩ | ⟨-, -, -, -, -, hvisits, -⟩ |
    ⟨-, -, -, -, -, -, -, hvisits, -⟩
  · exact absurd hmarks' hmarks
  all_goals exact hvisits

/-- **After a turn the site of its thread is marked**, and of all sites here only that one more. -/
theorem marks_iff (h : Turn q V m t m') (hsound : m.Sound q) (ht : m.running = some t)
    (hx : x.position = m.position) :
    m'.visits.Marks x ↔ x = m.siteOf t ∨ m.visits.Marks x := by
  have hlt := (hsound.fits_running ht).counter_lt
  by_cases hmarks : m.visits.Marks (m.siteOf t)
  · rw [(h.of_marks hmarks).2.2.2]
    exact ⟨Or.inr, fun h => h.elim (fun heq => heq ▸ hmarks) id⟩
  · rw [h.visits_eq hmarks]
    refine ⟨VisitLog.marks_of_record (x := m.siteOf t) hsound.size_visits hlt, ?_⟩
    rintro (rfl | hmarks)
    · exact VisitLog.marks_record_self (x := m.siteOf t) hsound.size_visits hlt
    · exact hmarks.record (x := m.siteOf t) hsound.size_visits hlt hx

theorem mem_blocked (h : Turn q V m t m') (hu : u ∈ m.blocked) : u ∈ m'.blocked := by
  rcases h with ⟨-, -, hblocked, -⟩ | ⟨-, -, -, hblocked, -⟩ | ⟨-, -, -, hblocked, -⟩ |
    ⟨-, -, -, -, -, hblocked, -⟩
  all_goals simp [hblocked, hu]

/-- Only a thread that accepts ends others. -/
theorem mem_pending (h : Turn q V m t m') (hu : u ∈ m.active) :
    u ∈ m'.pending ∨ q.instruction? t.pc = some .accept := by
  rcases h with ⟨-, hpending, -⟩ | ⟨-, -, hpending, -⟩ | ⟨-, hi, -⟩ | ⟨-, -, -, -, hpending, -⟩
  · exact .inl (hpending ▸ hu)
  · exact .inl (hpending ▸ hu)
  · exact .inr hi
  · exact .inl (by rw [hpending]; exact List.mem_append_right _ hu)

/-- A thread that is not refused waits, accepts, or leaves a thread at each of its branches. -/
theorem goes_on (h : Turn q V m t m') (hmarks : ¬ m.visits.Marks (m.siteOf t)) :
    t ∈ m'.blocked ∨ q.instruction? t.pc = some .accept ∨
      ∀ y ∈ q.branches V (m.siteOf t), ∃ u ∈ m'.pending, m.siteOf u = y := by
  rcases h with ⟨hmarks', -⟩ | ⟨-, -, -, hblocked, -⟩ | ⟨-, hi, -⟩ |
    ⟨-, hi, hwaits, -, hpending, -⟩
  · exact absurd hmarks' hmarks
  · exact .inl (by simp [hblocked])
  · exact .inr (.inl hi)
  · refine .inr (.inr fun y hy => ?_)
    have hsuccessor : ∃ u ∈ m.successors q V t, m.siteOf u = y :=
      (exists_successor_iff fun _ => Query.position_branch hi hwaits).mpr hy
    obtain ⟨u, hu, hy⟩ := hsuccessor
    exact ⟨u, by rw [hpending]; exact List.mem_append_left _ hu, hy⟩

/-- A lookbehind is recorded when a thread comes to its end. -/
theorem matched_iff (h : Turn q V m t m') (hsound : m.Sound q) {index : Nat} :
    m'.matched[index]? = some true ↔
      m.matched[index]? = some true ∨
        (¬ m.visits.Marks (m.siteOf t) ∧
          q.instruction? t.pc = some (.writeLookbehind index)) := by
  rcases h with ⟨hmarks, -, -, -, -, hmatched⟩ | ⟨-, ⟨i, hi, hwaits⟩, -, -, -, -, hmatched⟩ |
    ⟨-, hi, -, -, -, -, hmatched⟩ | @⟨hmarks, i, hi, -, -, -, -, -, -, hmatched⟩
  · rw [hmatched]
    exact ⟨.inl, fun h => h.resolve_right fun h => h.1 hmarks⟩
  · rw [hmatched, hi]
    refine ⟨.inl, fun h => h.resolve_right fun h => ?_⟩
    obtain rfl := Option.some.inj h.2
    simp [Instruction.waits] at hwaits
  · rw [hmatched, hi]
    exact ⟨.inl, fun h => h.resolve_right fun h => by simp at h⟩
  · rw [hmatched, hi]
    cases i with
    | writeLookbehind index' =>
      have hlt : index' < m.matched.size := by
        rw [hsound.size_matched]
        exact q.program.lookbehind_lt (.inl hi)
      rw [matchedAfter]
      by_cases heq : index' = index
      · subst heq
        simp [hlt, hmarks]
      · rw [Array.getElem?_setIfInBounds_ne heq]
        simp [heq]
    | _ => exact ⟨.inl, fun h => h.resolve_right fun h => by simp at h⟩

end Turn

/-- A blocked thread that gets a unit goes on to its successors. -/
theorem toList_woken (hawaits : q.Awaits t.pc) (hlt : m.position < q.input.size) :
    (q.woken (CodeUnit.word q.input[m.position]) t).toList = m.successors q V t := by
  obtain ⟨i, hi, hwaits⟩ := hawaits
  have hunit : q.input[m.position]? = some q.input[m.position] := Array.getElem?_eq_getElem hlt
  cases i with
  | consume min max =>
    by_cases haccepts : min ≤ CodeUnit.word q.input[m.position] ∧
        CodeUnit.word q.input[m.position] ≤ max <;>
      simp [successors, siteOf, Query.branches, Query.carry, Query.woken, Query.accepts,
        Thread.advance, hi, hunit, haccepts]
  | _ => exact absurd hwaits (by simp [Instruction.waits])

/-- **Reading a unit leaves the successors of all blocked threads**, in the order of priority. -/
theorem Sound.pending_read (h : m.Sound q) (hidle : m.isIdle = true)
    (hlt : m.position < q.input.size) :
    (m.read q hlt).pending = m.blocked.reverse.flatMap (m.successors q V) := by
  have hrest : m.running = none ∧ m.active = [] := by simpa [isIdle] using hidle
  have hrunning : (m.read q hlt).running = none := by
    rw [Machine.read, running_feed, Machine.advance, hrest.1]
  rw [pending_of_none hrunning, Machine.read, active_feed, Machine.advance, hrest.2,
    List.append_nil, List.filterMap_eq_flatMap_toList, List.reverse_flatMap]
  refine List.flatMap_congr fun t ht => ?_
  rw [← toList_woken (h.awaits t (List.mem_reverse.mp ht)) hlt, Function.comp]
  cases q.woken (CodeUnit.word q.input[m.position]) t <;> rfl

end Machine

end RegexMachine
