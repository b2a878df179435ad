import RegexMachine.Proofs.Priority
import RegexMachine.Proofs.Window

/-!
# Proofs/Unanchored — where a route leaves the loop that looks for a place to begin

A main expression that may match anywhere begins with a loop that skips units
(`Program.SkipsAt`), as lookbehinds do. To go on behind the loop is preferred to skipping one more
unit. So a route skips some units and then goes on (`Route.exists_entering`), and of two routes the
one that skips less precedes the other (`Query.precedes_entering`).
-/

namespace RegexMachine

section Unanchored

variable {α : Type} [CodeUnit α] {q : Query α} {V : Verdicts} {s j k k' : Nat} {r w : Trail}
  {x y z : Site}

/-! ## One step of a route -/

theorem Walk.only (h : Walk q V s w) (honward : q.onward V s w = [y]) :
    Walk q V s ((0, y) :: w) := .cons h (by rw [honward]; rfl)

/-- A part of a route that has not come to its end goes on along the route. -/
theorem Route.exists_onward (hr : Route q V s r) (hw : w <:+ r) (hends : ¬ w.Accepts q) :
    ∃ x, (q.onward V s w)[x.1]? = some x.2 ∧ x :: w <:+ r := by
  obtain ⟨x, hx⟩ := Trail.exists_cons_suffix hw fun heq => hends (heq ▸ hr.accepts)
  exact ⟨x, (hr.walk.of_suffix hx).mem_onward, hx⟩

omit [CodeUnit α] in
theorem Trail.not_accepts {x : Nat × Site} {i : Instruction} (hi : q.instruction? x.2.pc = some i)
    (hne : i ≠ .accept) : ¬ Trail.Accepts q (x :: w) := by
  rintro ⟨y, hy, haccept⟩
  obtain rfl : x = y := by simpa using hy
  exact hne (Option.some.inj (hi.symm.trans haccept))

/-- Where there is only one branch the route takes it. -/
theorem Route.only (hr : Route q V s r) {x : Nat × Site} (hw : x :: w <:+ r)
    (hbranches : q.branches V x.2 = [y]) : (0, y) :: x :: w <:+ r := by
  have hends : ¬ Trail.Accepts q (x :: w) := by
    rintro ⟨z, hz, haccept⟩
    obtain rfl : x = z := by simpa using hz
    simp [Query.branches, haccept] at hbranches
  obtain ⟨⟨n, z⟩, hz, hsuffix⟩ := hr.exists_onward hw hends
  rw [Query.onward, hbranches] at hz
  cases n with
  | zero =>
    obtain rfl : y = z := by simpa using hz
    exact hsuffix
  | succ n => simp at hz

/-- A route goes on only where the instruction lets it. -/
theorem Route.only_if (hr : Route q V s r) {x : Nat × Site} {i : Instruction} {p : Prop}
    [Decidable p] (hw : x :: w <:+ r) (hi : q.instruction? x.2.pc = some i) (hne : i ≠ .accept)
    (hbranches : q.branches V x.2 = if p then [y] else []) : p ∧ (0, y) :: x :: w <:+ r := by
  have hp : p := by
    obtain ⟨z, hz, -⟩ := hr.exists_onward hw (Trail.not_accepts hi hne)
    by_contra hp
    rw [Query.onward, hbranches, if_neg hp] at hz
    simp at hz
  exact ⟨hp, hr.only hw (hbranches.trans (if_pos hp))⟩

/-- No walk leaves the segment it has entered. -/
theorem Walk.segmentOf_eq (hlayout : q.program.WellLaidOut) {x : Nat × Site}
    (h : Walk q V s (x :: w)) {y : Nat × Site} (hy : y ∈ w) :
    q.program.segmentOf x.2.pc = q.program.segmentOf y.2.pc := by
  induction w generalizing x with
  | nil => simp at hy
  | cons z w ih =>
    rw [Query.segmentOf_branch hlayout h.mem_branches]
    rcases List.mem_cons.mp hy with rfl | hy
    · rfl
    · exact ih h.tail hy

/-- **A route stays in the main expression.** -/
theorem Route.segmentOf_eq_zero (hlayout : q.program.WellLaidOut) (hr : Route q V s r)
    {y : Nat × Site} (hy : y ∈ r) : q.program.segmentOf y.2.pc = 0 := by
  obtain ⟨x, w, rfl, haccept⟩ := hr.accepts.exists_cons
  have hzero := hlayout.segmentOf_accept haccept
  rcases List.mem_cons.mp hy with rfl | hy
  · exact hzero
  · rwa [hr.walk.segmentOf_eq hlayout hy] at hzero

/-! ## The loop -/

namespace Query

/-- The trail that has skipped `k` units. -/
def skipped (q : Query α) (s : Nat) : Nat → Trail
  | 0 => [(q.program.lookbehindCount, ⟨0, true, s⟩)]
  | k + 1 =>
    (0, ⟨0, true, s + k + 1⟩) :: (0, ⟨3, true, s + k + 1⟩) :: (1, ⟨2, true, s + k⟩) ::
      q.skipped s k

/-- The trail that has skipped `k` units, and goes on behind the loop. -/
def entering (q : Query α) (s k : Nat) : Trail :=
  (0, ⟨4, true, s + k⟩) :: (0, ⟨1, true, s + k⟩) :: q.skipped s k

omit [CodeUnit α] in
/-- What has skipped fewer units can go on to what has skipped more. -/
theorem suffix_skipped (h : k < k') :
    (1, ⟨2, true, s + k⟩) :: q.skipped s k <:+ q.skipped s k' := by
  induction h with
  | refl => exact ⟨[_, _], rfl⟩
  | step h ih => exact ih.trans ⟨[_, _, _], rfl⟩

omit [CodeUnit α] in
/-- **To skip less is preferred.** -/
theorem precedes_entering (h : k < k') : Trail.Precedes (q.entering s k) (q.entering s k') :=
  ⟨q.skipped s k, (0, ⟨1, true, s + k⟩), (1, ⟨2, true, s + k⟩), Nat.zero_lt_one,
    List.suffix_cons _ _, (suffix_skipped h).trans ⟨[_, _], rfl⟩⟩

omit [CodeUnit α] in
/-- The loop stays at its counters, and skips no unit twice. -/
theorem mem_skipped {x : Nat × Site} (hx : x ∈ q.skipped s k) :
    x.2.pc < 4 ∧ x.2.pc ≠ 1 ∧ x.2.position ≤ s + k ∧ (x.2.pc = 2 → x.2.position < s + k) := by
  induction k with
  | zero =>
    obtain rfl := List.mem_singleton.mp hx
    simp
  | succ k ih =>
    simp only [skipped, List.mem_cons] at hx
    rcases hx with rfl | rfl | rfl | hx
    · simp [Nat.add_assoc]
    · simp [Nat.add_assoc]
    · simp [← Nat.add_assoc]
    · obtain ⟨hlt, hne, hle, htwo⟩ := ih hx
      exact ⟨hlt, hne, by omega, fun h => Nat.lt_succ_of_lt (htwo h)⟩

omit [CodeUnit α] in
theorem pc_lt_of_mem_entering {x : Nat × Site} (hx : x ∈ q.entering s k) : x.2.pc < 5 := by
  simp only [entering, List.mem_cons] at hx
  rcases hx with rfl | rfl | hx
  · simp
  · simp
  · exact Nat.lt_succ_of_lt (mem_skipped hx).1

omit [CodeUnit α] in
theorem simple_skipped : Trail.Simple (q.skipped s k) := by
  induction k with
  | zero => simp [skipped, Trail.Simple]
  | succ k ih =>
    have hfork : Trail.Simple ((1, ⟨2, true, s + k⟩) :: q.skipped s k) := by
      refine Trail.simple_cons.mpr ⟨fun z hz heq => ?_, ih⟩
      have hlt := (mem_skipped hz).2.2.2 (congrArg Site.pc heq)
      rw [heq] at hlt
      exact absurd hlt (Nat.lt_irrefl _)
    have hbehind : ∀ z ∈ (1, ⟨2, true, s + k⟩) :: q.skipped s k, z.2.position < s + k + 1 := by
      intro z hz
      rcases List.mem_cons.mp hz with rfl | hz
      · exact Nat.lt_succ_self _
      · exact Nat.lt_succ_of_le (mem_skipped hz).2.2.1
    have hne : ∀ z ∈ (1, ⟨2, true, s + k⟩) :: q.skipped s k, ∀ pc,
        z.2 ≠ ⟨pc, true, s + k + 1⟩ := fun z hz pc heq => by
      have hlt := hbehind z hz
      rw [heq] at hlt
      exact absurd hlt (Nat.lt_irrefl _)
    refine Trail.simple_cons.mpr ⟨fun z hz => ?_, Trail.simple_cons.mpr ⟨fun z hz => hne z hz 3,
      hfork⟩⟩
    rcases List.mem_cons.mp hz with rfl | hz
    · simp
    · exact hne z hz 0

omit [CodeUnit α] in
theorem simple_entering : Trail.Simple (q.entering s k) := by
  refine Trail.simple_cons.mpr ⟨fun z hz heq => ?_, Trail.simple_cons.mpr ⟨fun z hz heq => ?_,
    simple_skipped⟩⟩
  · rcases List.mem_cons.mp hz with rfl | hz
    · simp at heq
    · exact absurd (congrArg Site.pc heq) (Nat.ne_of_lt (mem_skipped hz).1)
  · exact absurd (congrArg Site.pc heq) (mem_skipped hz).2.1

omit [CodeUnit α] in
/-- Most instructions leave the registers as they are. -/
theorem carry_eq_self {registers : Registers} {i : Instruction} (hi : q.instruction? x.pc = some i)
    (hnone : i.register? = none) : q.carry registers x = registers := by
  rw [carry, hi]
  cases i <;> first | rfl | simp [Instruction.register?] at hnone

/-- The main expression is entered after all lookbehinds. -/
theorem onward_nil_eq : q.onward V s [] =
    q.program.lookbehindEntries.reverse.map (⟨·, true, s⟩) ++ [⟨0, true, s⟩] := by
  simp [onward, Machine.seeds]

theorem onward_skipped : ∀ k, q.onward V s (q.skipped s k) = q.branches V ⟨0, true, s + k⟩
  | 0 => rfl
  | _ + 1 => rfl

section Skips

variable (hskips : q.program.SkipsAt 0)

include hskips

omit [CodeUnit α] in
/-- Nothing is recorded in the loop. -/
theorem registersAfter_skipped :
    q.registersAfter (q.skipped s k) = Array.replicate q.registerCount none := by
  induction k with
  | zero => exact carry_eq_self hskips.fork rfl
  | succ k ih =>
    simp only [skipped, registersAfter, List.foldr_cons] at ih ⊢
    rw [ih, carry_eq_self (x := ⟨2, true, s + k⟩) hskips.skip rfl,
      carry_eq_self (x := ⟨3, true, s + k + 1⟩) hskips.back rfl,
      carry_eq_self (x := ⟨0, true, s + k + 1⟩) hskips.fork rfl]

omit [CodeUnit α] in
theorem registersAfter_entering : q.registersAfter (q.entering s k) =
    q.carry (Array.replicate q.registerCount none) ⟨4, true, s + k⟩ := by
  have hskipped := registersAfter_skipped (s := s) (k := k) hskips
  simp only [entering, registersAfter, List.foldr_cons] at hskipped ⊢
  rw [hskipped, carry_eq_self (x := ⟨1, true, s + k⟩) hskips.enter rfl]

theorem walk_skipped (hk : s + k ≤ q.input.size) : Walk q V s (q.skipped s k) := by
  induction k with
  | zero => exact .cons .nil (by simp [onward_nil_eq, Program.lookbehindCount])
  | succ k ih =>
    have hfork : Walk q V s ((1, ⟨2, true, s + k⟩) :: q.skipped s k) :=
      .cons (ih (by omega)) (by rw [onward_skipped, branches_fork hskips]; rfl)
    exact (hfork.only (branches_skip hskips hk)).only (branches_back hskips)

theorem walk_entering (hk : s + k ≤ q.input.size) : Walk q V s (q.entering s k) := by
  have hfork : Walk q V s ((0, ⟨1, true, s + k⟩) :: q.skipped s k) :=
    .cons (walk_skipped hskips hk) (by rw [onward_skipped, branches_fork hskips]; rfl)
  exact hfork.only (branches_enter hskips)

end Skips

end Query

/-! ## Routes -/

namespace Route

variable (hskips : q.program.SkipsAt 0) (hr : Route q V s r)

include hskips hr

/-- A route that has skipped some units goes on behind the loop, or skips one more. -/
theorem cases_of_skipped (hw : q.skipped s k <:+ r) :
    q.entering s k <:+ r ∨ s + k < q.input.size ∧ q.skipped s (k + 1) <:+ r := by
  have hends : ¬ (q.skipped s k).Accepts q := by
    cases k with
    | zero => exact Trail.not_accepts hskips.fork (by simp)
    | succ k => exact Trail.not_accepts hskips.fork (by simp)
  obtain ⟨⟨n, x⟩, hx, hsuffix⟩ := hr.exists_onward hw hends
  rw [Query.onward_skipped, Query.branches_fork hskips] at hx
  match n with
  | 0 =>
    obtain rfl : ⟨1, true, s + k⟩ = x := by simpa using hx
    exact .inl (hr.only hsuffix (Query.branches_enter hskips))
  | 1 =>
    obtain rfl : ⟨2, true, s + k⟩ = x := by simpa using hx
    have hends : ¬ Trail.Accepts q ((1, ⟨2, true, s + k⟩) :: q.skipped s k) :=
      Trail.not_accepts hskips.skip (by simp [Instruction.consumeAny])
    obtain ⟨y, hy, -⟩ := hr.exists_onward hsuffix hends
    have hlt : s + k < q.input.size :=
      Query.lt_of_mem_branches_skip hskips (List.mem_of_getElem? hy)
    have hskip := hr.only hsuffix (Query.branches_skip hskips hlt)
    exact .inr ⟨hlt, hr.only hskip (Query.branches_back hskips)⟩
  | n + 2 => simp at hx

theorem exists_entering_of_skipped (hk : s + k ≤ q.input.size) (hw : q.skipped s k <:+ r) :
    ∃ k, s + k ≤ q.input.size ∧ q.entering s k <:+ r := by
  induction hn : q.input.size - (s + k) using Nat.strongRecOn generalizing k with
  | _ n ih =>
    rcases cases_of_skipped hskips hr hw with henters | ⟨hlt, hw⟩
    · exact ⟨k, hk, henters⟩
    · exact ih _ (by omega) hlt hw rfl

/-- **A route goes on behind the loop somewhere.** -/
theorem exists_entering (hlayout : q.program.WellLaidOut) (hs : s ≤ q.input.size) :
    ∃ k, s + k ≤ q.input.size ∧ q.entering s k <:+ r := by
  obtain ⟨⟨n, x⟩, hx, hsuffix⟩ := hr.exists_onward List.nil_suffix (by simp [Trail.Accepts])
  have hmain := hr.segmentOf_eq_zero hlayout (hsuffix.subset List.mem_cons_self)
  rw [Query.onward_nil_eq] at hx
  -- The route does not begin at a lookbehind.
  have hlength : (q.program.lookbehindEntries.reverse.map fun pc => (⟨pc, true, s⟩ : Site)).length =
      q.program.lookbehindCount := by simp [Program.lookbehindCount]
  rcases Nat.lt_or_ge n q.program.lookbehindCount with hlt | hge
  · rw [List.getElem?_append_left (by rwa [hlength])] at hx
    obtain ⟨entry, hentry, rfl⟩ := List.mem_map.mp (List.mem_of_getElem? hx)
    exact absurd hmain (q.program.segmentOf_entry (List.mem_reverse.mp hentry))
  · rw [List.getElem?_append_right (by rwa [hlength]), hlength] at hx
    obtain ⟨hn, hx⟩ := List.getElem?_eq_some_iff.mp hx
    obtain rfl : n = q.program.lookbehindCount := by
      simp only [List.length_singleton] at hn
      omega
    obtain rfl : ⟨0, true, s⟩ = x := by simpa using hx
    exact exists_entering_of_skipped hskips hr (k := 0) hs hsuffix

end Route

end Unanchored

end RegexMachine
