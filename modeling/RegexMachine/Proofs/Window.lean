import RegexMachine.Proofs.Lookbehind

/-!
# Proofs/Window — how far back a lookbehind sees

The threads of a lookbehind start with the scan. To match a stretch of the input that begins
anywhere, a lookbehind begins with a loop that skips units (`Program.SkipsAt`); what it skips is
what the scan has read, so that it sees back to where the scan began, and no further. An assertion
looks at the units before the scan as well.

So the verdict of such a lookbehind at a position does depend on where the scan began
(`Query.lookbehindMatches_iff`), and so does what a thread that reads it does
(`running_iff_bodyMatches`).
-/

namespace RegexMachine

/-! ## Lookbehinds that may begin anywhere -/

namespace Program

/-- At a counter stands a loop that skips units before it enters what follows it. -/
structure SkipsAt (p : Program) (entry : Nat) : Prop where
  fork : p.code[entry]? = some (.fork (entry + 2))
  enter : p.code[entry + 1]? = some (.jump (entry + 4))
  skip : p.code[entry + 2]? = some .consumeAny
  back : p.code[entry + 3]? = some (.jump entry)

instance (p : Program) (entry : Nat) : Decidable (p.SkipsAt entry) :=
  decidable_of_iff
    (p.code[entry]? = some (.fork (entry + 2)) ∧ p.code[entry + 1]? = some (.jump (entry + 4)) ∧
      p.code[entry + 2]? = some .consumeAny ∧ p.code[entry + 3]? = some (.jump entry))
    ⟨fun h => ⟨h.1, h.2.1, h.2.2.1, h.2.2.2⟩, fun h => ⟨h.1, h.2, h.3, h.4⟩⟩

/-- **Every lookbehind skips units first, and reads no other one.** -/
structure Floats (p : Program) : Prop where
  layout : p.WellLaidOut
  skips : ∀ entry ∈ p.lookbehindEntries, p.SkipsAt entry
  plain : ∀ x ∈ p.code.toList.zipIdx, p.segmentOf x.2 ≠ 0 → x.1.reads = false

instance (p : Program) : Decidable p.Floats :=
  decidable_of_iff
    (p.WellLaidOut ∧ (∀ entry ∈ p.lookbehindEntries, p.SkipsAt entry) ∧
      ∀ x ∈ p.code.toList.zipIdx, p.segmentOf x.2 ≠ 0 → x.1.reads = false)
    ⟨fun h => ⟨h.1, h.2.1, h.2.2⟩, fun h => ⟨h.1, h.2, h.3⟩⟩

/-- Only the main expression reads lookbehinds. -/
theorem Floats.segmentOf_read {p : Program} (h : p.Floats) {pc index : Nat} {want : Bool}
    (hi : p.code[pc]? = some (.readLookbehind index want)) : p.segmentOf pc = 0 := by
  by_contra hne
  have hplain := h.plain (.readLookbehind index want, pc)
    (List.mk_mem_zipIdx_iff_getElem?.mpr (by simpa using hi)) hne
  simp [Instruction.reads] at hplain

end Program

section Window

variable {α : Type} [CodeUnit α] {q : Query α} {V : Verdicts} {s j index position entry : Nat}
  {x : Site}

namespace Query

/-! ## The loop that skips units -/

section Loop

variable (hskips : q.program.SkipsAt entry)

include hskips

/-- To go on behind the loop is preferred to skipping a unit. -/
theorem branches_fork :
    q.branches V ⟨entry, true, j⟩ = [⟨entry + 1, true, j⟩, ⟨entry + 2, true, j⟩] := by
  simp [branches, instruction?, hskips.fork]

theorem branches_enter : q.branches V ⟨entry + 1, true, j⟩ = [⟨entry + 4, true, j⟩] := by
  simp [branches, instruction?, hskips.enter]

/-- Any unit will do to skip. -/
theorem branches_skip (hj : j < q.input.size) :
    q.branches V ⟨entry + 2, true, j⟩ = [⟨entry + 3, true, j + 1⟩] :=
  branches_consumeAny hskips.skip hj

theorem lt_of_mem_branches_skip {y : Site} (hy : y ∈ q.branches V ⟨entry + 2, true, j⟩) :
    j < q.input.size := by
  have hawaits : q.Awaits (entry + 2) := ⟨_, hskips.skip, rfl⟩
  exact (hawaits.branch (x := ⟨entry + 2, true, j⟩) hy).1

theorem branches_back : q.branches V ⟨entry + 3, true, j⟩ = [⟨entry, true, j⟩] := by
  simp [branches, instruction?, hskips.back]

/-- The loop comes back to its entry after any number of units. -/
theorem reaches_entry (hsj : s ≤ j) (hj : j ≤ q.input.size) :
    q.Reaches V ⟨entry, true, s⟩ ⟨entry, true, j⟩ := by
  induction hsj with
  | refl => exact .refl
  | @step j hsj ih =>
    have hfork : (⟨entry + 2, true, j⟩ : Site) ∈ q.branches V ⟨entry, true, j⟩ := by
      simp [branches_fork hskips]
    have hskip : (⟨entry + 3, true, j + 1⟩ : Site) ∈ q.branches V ⟨entry + 2, true, j⟩ := by
      simp [branches_skip hskips hj]
    have hback : (⟨entry, true, j + 1⟩ : Site) ∈ q.branches V ⟨entry + 3, true, j + 1⟩ := by
      simp [branches_back hskips]
    exact (((ih (Nat.le_of_lt hj)).tail hfork).tail hskip).tail hback

theorem reaches_body : q.Reaches V ⟨entry, true, s⟩ ⟨entry + 4, true, s⟩ := by
  have hfork : (⟨entry + 1, true, s⟩ : Site) ∈ q.branches V ⟨entry, true, s⟩ := by
    simp [branches_fork hskips]
  have henter : (⟨entry + 4, true, s⟩ : Site) ∈ q.branches V ⟨entry + 1, true, s⟩ := by
    simp [branches_enter hskips]
  exact (Relation.ReflTransGen.single hfork).tail henter

/-- The loop goes on to its body, or skips a unit and begins again. -/
theorem cases_of_skipsAt (hi : q.instruction? x.pc = some (.writeLookbehind index))
    (hreaches : q.Reaches V ⟨entry, true, s⟩ x) :
    q.Reaches V ⟨entry + 4, true, s⟩ x ∨ q.Reaches V ⟨entry, true, s + 1⟩ x := by
  have hgo : ∀ {y : Site}, q.instruction? y.pc ≠ some (.writeLookbehind index) →
      q.Reaches V y x → ∃ z ∈ q.branches V y, q.Reaches V z x := by
    intro y hy hreaches
    rcases Relation.ReflTransGen.cases_head hreaches with rfl | hgo
    · exact absurd hi hy
    · exact hgo
  have hfork : q.instruction? entry = some (.fork (entry + 2)) := hskips.fork
  have henter : q.instruction? (entry + 1) = some (.jump (entry + 4)) := hskips.enter
  have hskip : q.instruction? (entry + 2) = some .consumeAny := hskips.skip
  have hback : q.instruction? (entry + 3) = some (.jump entry) := hskips.back
  obtain ⟨y, hy, hreaches⟩ := hgo (by simp [hfork]) hreaches
  have hcases : y = ⟨entry + 1, true, s⟩ ∨ y = ⟨entry + 2, true, s⟩ := by
    simpa [branches_fork hskips] using hy
  rcases hcases with rfl | rfl
  · obtain ⟨y, hy, hreaches⟩ := hgo (by simp [henter]) hreaches
    obtain rfl : y = ⟨entry + 4, true, s⟩ := by simpa [branches_enter hskips] using hy
    exact .inl hreaches
  · obtain ⟨y, hy, hreaches⟩ := hgo (by simp [hskip, Instruction.consumeAny]) hreaches
    rw [branches_skip hskips (lt_of_mem_branches_skip hskips hy)] at hy
    obtain rfl := List.mem_singleton.mp hy
    obtain ⟨y, hy, hreaches⟩ := hgo (by simp [hback]) hreaches
    obtain rfl : y = ⟨entry, true, s + 1⟩ := by simpa [branches_back hskips] using hy
    exact .inr hreaches

/-- **The loop goes on to its body after it has skipped some units.** -/
theorem exists_enter_of_reaches (hi : q.instruction? x.pc = some (.writeLookbehind index))
    (hreaches : q.Reaches V ⟨entry, true, s⟩ x) :
    ∃ j, s ≤ j ∧ j ≤ x.position ∧ q.Reaches V ⟨entry + 4, true, j⟩ x := by
  induction hn : x.position - s using Nat.strongRecOn generalizing s with
  | _ n ih =>
    rcases cases_of_skipsAt hskips hi hreaches with hbody | hagain
    · exact ⟨s, Nat.le_refl _, Reaches.position_le hbody, hbody⟩
    · have hle : s + 1 ≤ x.position := Reaches.position_le hagain
      obtain ⟨j, hsj, hj, hbody⟩ := ih _ (by omega) hagain rfl
      exact ⟨j, by omega, hj, hbody⟩

end Loop

/-! ## What lies behind the loop -/

/-- **The body of a lookbehind matches the units from `start` up to `stop`** — entered at the one,
it can reach its end at the other. It reads no lookbehind, so the verdicts do not matter. -/
def BodyMatches (q : Query α) (index start stop : Nat) : Prop :=
  ∃ entry ∈ q.program.lookbehindEntries, ∃ x : Site,
    q.instruction? x.pc = some (.writeLookbehind index) ∧ x.position = stop ∧
      q.program.segmentOf entry = q.program.segmentOf x.pc ∧
      q.Reaches (fun _ _ => false) ⟨entry + 4, true, start⟩ x

/-- **A lookbehind matches at a position if its body matches what lies before it in the scan.** -/
theorem lookbehindMatches_iff (h : q.program.Floats) (hposition : position ≤ q.input.size) :
    q.LookbehindMatches V s index position ↔
      ∃ j, s ≤ j ∧ j ≤ position ∧ q.BodyMatches index j position := by
  -- In a segment that reads no lookbehind, all verdicts lead to the same sites.
  have hplain : ∀ {V V' : Verdicts} {x y : Site}, q.program.segmentOf x.pc ≠ 0 →
      q.Reaches V x y → q.Reaches V' x y := by
    intro V V' x y hne hreaches
    refine Reaches.congr h.layout (fun pc index want hsame hread => ?_) hreaches
    exact absurd (hsame ▸ h.segmentOf_read hread) hne
  constructor
  · rintro ⟨x, hi, rfl, entry, hentry, hsegment, hreaches⟩
    obtain ⟨j, hsj, hj, hbody⟩ := exists_enter_of_reaches (h.skips entry hentry) hi hreaches
    refine ⟨j, hsj, hj, entry, hentry, x, hi, rfl, hsegment, hplain ?_ hbody⟩
    rw [← Reaches.segmentOf_eq h.layout hbody, ← hsegment]
    exact q.program.segmentOf_entry hentry
  · rintro ⟨j, hsj, hj, entry, hentry, x, hi, rfl, hsegment, hbody⟩
    have hskips := h.skips entry hentry
    have hne : q.program.segmentOf (entry + 4) ≠ 0 := by
      rw [← Reaches.segmentOf_eq h.layout hbody, ← hsegment]
      exact q.program.segmentOf_entry hentry
    refine ⟨x, hi, rfl, entry, hentry, hsegment, ?_⟩
    have hskipped : q.Reaches V ⟨entry, true, s⟩ ⟨entry, true, j⟩ :=
      reaches_entry hskips hsj (Nat.le_trans hj hposition)
    exact (hskipped.trans (reaches_body hskips)).trans (hplain hne hbody)

end Query

end Window

/-- **A lookbehind sees back to where the scan began** — it is read as matching just if its body
matches a stretch of the input that ends here and begins in the scan. -/
theorem Machine.Scanning.running_iff_bodyMatches {α : Type} [CodeUnit α] {q : Query α}
    {m₀ m : Machine} {t : Thread} {index : Nat} {want : Bool} (hm : Scanning q m₀ m)
    (h₀ : m₀.Sound q) (hfloats : q.program.Floats) (ht : m.running = some t)
    (hadmits : m.visits.admits t.pc t.consumed m.position = true)
    (hi : q.instruction? t.pc = some (.readLookbehind index want)) :
    (m.step q).running = some t.advance ↔
      (want = true ↔ ∃ j, m₀.position ≤ j ∧ j ≤ m.position ∧ q.BodyMatches index j m.position) := by
  have hsound := hm.sound h₀
  obtain ⟨V, hV⟩ := Query.exists_isVerdict hfloats.layout m₀.position
  have hagrees := (hm.watches h₀ hfloats.layout hV).agrees hfloats.layout hV hsound
  rw [hsound.running_of_read hagrees ht hadmits hi,
    ← Query.lookbehindMatches_iff hfloats hsound.position_le, ← hV]
  cases V index m.position <;> cases want <;> simp

end RegexMachine
