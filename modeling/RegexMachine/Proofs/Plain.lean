import RegexMachine.Proofs.Lookbehind
import RegexMachine.Proofs.Priority

/-!
# Proofs/Plain — the machine without its log

A **plain** scan runs every instruction that a thread comes to, whether or not it was run before at
the same position. It may go round in circles forever, and where it does not it may take very long.
`PlainScan` relates a machine to the one a plain scan ends with, if it ends.

A plain step is a step of the machine with an empty log (`plainStep_eq`), so a thread is never
refused. Lookbehinds are read right, as they are with the log (`PlainWatches.agrees`): no thread of
a lookbehind is lost but at a dead end.
-/

namespace RegexMachine

namespace Machine

variable {α : Type} [CodeUnit α]

/-! ## Plain scans -/

/-- A step that asks the log nothing and notes nothing in it. -/
def plainStep (q : Query α) (m : Machine) : Machine :=
  match m.running, m.active with
  | some t, _ =>
    match q.instruction? t.pc with
    | some instruction => { m.note t with visits := m.visits }.execute q t instruction
    | none => m.drop t
  | none, t :: active => { m with running := some t, active }
  | none, [] => m

/-- Plain steps that end, since no thread can run any more. -/
inductive PlainDrain (q : Query α) : Machine → Machine → Prop
  | idle {m : Machine} (h : m.isIdle = true) : PlainDrain q m m
  | step {m last : Machine} (h : m.isIdle = false) (hrest : PlainDrain q (m.plainStep q) last) :
    PlainDrain q m last

/-- Reading the input with plain steps, as far as a scan reads it. -/
inductive PlainRun (q : Query α) : Machine → Machine → Prop
  | settled {m : Machine} (h : m.isSettled = true) : PlainRun q m m
  | ends {m : Machine} (hunsettled : m.isSettled = false) (hend : ¬ m.position < q.input.size) :
    PlainRun q m m
  | read {m next last : Machine} (hunsettled : m.isSettled = false)
    (hlt : m.position < q.input.size) (hdrain : PlainDrain q (m.read q hlt) next)
    (hrest : PlainRun q next last) : PlainRun q m last

/-- **A plain scan that ends** — it begins as every scan does. -/
def PlainScan (q : Query α) (m last : Machine) : Prop :=
  ∃ first, PlainDrain q (m.beginScan q) first ∧ PlainRun q first last

/-- **A plain scan begun with the machine `m₀` passes through `m`.** -/
inductive PlainScanning (q : Query α) (m₀ : Machine) : Machine → Prop
  | begin : PlainScanning q m₀ (m₀.beginScan q)
  | step {m : Machine} (h : PlainScanning q m₀ m) : PlainScanning q m₀ (m.plainStep q)
  | read {m : Machine} (h : PlainScanning q m₀ m) (hidle : m.isIdle = true)
      (hunsettled : m.isSettled = false) (hlt : m.position < q.input.size) :
      PlainScanning q m₀ (m.read q hlt)

variable {q : Query α} {V : Verdicts} {m m' m₀ last : Machine} {t : Thread}

theorem plainStep_of_isIdle (h : m.isIdle = true) : m.plainStep q = m := by
  rw [isIdle, Bool.and_eq_true, Option.isNone_iff_eq_none, List.isEmpty_iff] at h
  rw [plainStep]
  split <;> simp_all

theorem plainStep_of_none {active : List Thread} (hrunning : m.running = none)
    (hactive : m.active = t :: active) :
    m.plainStep q = { m with running := some t, active } := by
  rw [plainStep]
  split <;> simp_all

theorem plainStep_of_some {i : Instruction} (hrunning : m.running = some t)
    (hi : q.instruction? t.pc = some i) :
    m.plainStep q = { m.note t with visits := m.visits }.execute q t i := by
  rw [plainStep]
  split <;> simp_all

theorem PlainDrain.isIdle (h : PlainDrain q m last) : last.isIdle = true := by
  induction h with
  | idle h => exact h
  | step _ _ ih => exact ih

/-- Steps that come to an end are a plain drain. -/
theorem PlainDrain.iterate (n : Nat) (h : ((plainStep q)^[n] m).isIdle = true) :
    PlainDrain q m ((plainStep q)^[n] m) := by
  induction n generalizing m with
  | zero => exact .idle h
  | succ n ih =>
    rcases hbusy : m.isIdle with _ | _
    · exact .step hbusy (ih h)
    · rw [Function.iterate_succ_apply, plainStep_of_isIdle hbusy] at h ⊢
      exact ih h

theorem PlainScanning.drain (h : PlainScanning q m₀ m) (hdrain : PlainDrain q m last) :
    PlainScanning q m₀ last := by
  induction hdrain with
  | idle => exact h
  | step _ _ ih => exact ih h.step

/-! ## A plain step is a step with an empty log -/

theorem execute_visits (log : VisitLog) (i : Instruction) :
    { m with visits := log }.execute q t i = { m.execute q t i with visits := log } := by
  cases i <;> simp only [execute]
  all_goals first | rfl | (split <;> rfl)

/-- **With an empty log the machine is plain.** -/
theorem Sound.plainStep_eq (h : m.Sound q) (hfresh : m.visits = .fresh q.program.size) :
    m.plainStep q = { m.step q with visits := m.visits } := by
  rcases hrunning : m.running with _ | t
  · rcases hactive : m.active with _ | ⟨t, active⟩
    · have hidle : m.isIdle = true := by simp [isIdle, hrunning, hactive]
      rw [plainStep_of_isIdle hidle, step_of_isIdle q hidle]
    · rw [plainStep_of_none hrunning hactive, step_of_none q hrunning hactive]
  · have hlt := (h.fits_running hrunning).counter_lt
    obtain ⟨i, hi⟩ : ∃ i, q.instruction? t.pc = some i := ⟨_, Array.getElem?_eq_getElem hlt⟩
    have hadmits : m.visits.admits t.pc t.consumed m.position = true := by
      rw [VisitLog.admits_iff h.size_visits, hfresh]
      exact ⟨hlt, VisitLog.not_has_fresh _ _ _ _⟩
    rw [plainStep_of_some hrunning hi, step_of_admitted q hrunning hadmits hi, execute_visits]

/-- **All through a plain scan the machine is sound, and its log is empty.** -/
theorem PlainScanning.sound (h : PlainScanning q m₀ m) (h₀ : m₀.Sound q) :
    m.Sound q ∧ m.visits = .fresh q.program.size := by
  induction h with
  | begin =>
    refine ⟨h₀.beginScan, ?_⟩
    obtain ⟨pool, -, heq⟩ := h₀.beginScan_eq
    rw [heq]
  | step h ih =>
    obtain ⟨hsound, hfresh⟩ := ih
    rw [hsound.plainStep_eq hfresh]
    exact ⟨{ hsound.step with size_visits := hsound.size_visits }, hfresh⟩
  | read h hidle hunsettled hlt ih =>
    obtain ⟨hsound, hfresh⟩ := ih
    exact ⟨hsound.read hlt, (visits_feed _ _ _).trans hfresh⟩

/-- **A turn in a plain scan** — that of a machine whose log refuses no thread. -/
theorem PlainScanning.turn (h : PlainScanning q m₀ m) (h₀ : m₀.Sound q) (hreads : m.Agrees q V)
    (ht : m.running = some t) :
    ∃ m', Turn q V m t m' ∧ m'.position = m.position ∧
      m.plainStep q = { m' with visits := m.visits } ∧ ∀ x, ¬ m.visits.Marks x := by
  obtain ⟨hsound, hfresh⟩ := h.sound h₀
  refine ⟨m.step q, hsound.turn hreads ht, position_step q m, hsound.plainStep_eq hfresh,
    fun x => ?_⟩
  rw [hfresh]
  exact VisitLog.not_has_fresh _ _ _ _

/-! ## What a plain scan knows of its lookbehinds -/

section Watches

variable (q : Query α) (V : Verdicts) (s : Nat)

/-- **What a plain scan knows of its lookbehinds** — every one that has come to its end here is
recorded, and every way to a later end is some thread's. -/
structure PlainWatches (m : Machine) : Prop extends m.Ordered q V s where
  covered : ∀ x index, q.instruction? x.pc = some (.writeLookbehind index) → q.Enters V s x →
    m.position ≤ x.position →
    x.position = m.position ∧ m.matched[index]? = some true ∨
      ∃ t ∈ m.ranking, q.Reaches V (m.siteOf t) x

end Watches

namespace PlainWatches

variable {s : Nat} (h : m.PlainWatches q V s) (hlayout : q.program.WellLaidOut)
  (hV : q.IsVerdict s V) (hsound : m.Sound q)

include h in
theorem congr (hblocked : m'.blocked = m.blocked) (hpending : m'.pending = m.pending)
    (hposition : m'.position = m.position) (hmatched : m'.matched = m.matched) :
    m'.PlainWatches q V s := by
  refine { h.toOrdered.congr hblocked hpending hposition hmatched with covered := ?_ }
  rw [ranking, hblocked, hpending, siteOf_congr hposition, hposition, hmatched]
  exact h.covered

include h hlayout hV hsound in
theorem agrees : m.Agrees q V :=
  h.toOrdered.agrees hlayout hV hsound fun x index hx henters hposition =>
    (h.covered x index hx henters (Nat.le_of_eq hposition.symm)).imp_left And.right

include h hlayout hV hsound in
/-- **A turn goes on watching**, when its thread is not refused. -/
theorem of_turn (ht : m.running = some t) (hturn : Turn q V m t m')
    (hmarks : ¬ m.visits.Marks (m.siteOf t)) (hposition : m'.position = m.position) :
    m'.PlainWatches q V s := by
  refine { h.toOrdered.of_turn hlayout hV hsound ht hturn hposition with
    covered := fun x index hx henters hle => ?_ }
  rw [siteOf_congr hposition]
  rw [hposition] at hle ⊢
  rcases h.covered x index hx henters hle with ⟨heq, hmatched⟩ | ⟨u, hu, hreaches⟩
  · exact .inl ⟨heq, (hturn.matched_iff hsound).mpr (.inl hmatched)⟩
  · have hsegment : segment q u ≠ 0 := by
      have hne := henters.segmentOf_ne
      rwa [Query.Reaches.segmentOf_eq hlayout hreaches] at hne
    rcases mem_ranking.mp hu with hu | hu
    · exact .inr ⟨u, mem_ranking.mpr (.inl (hturn.mem_blocked hu)), hreaches⟩
    · rw [pending_of_some ht] at hu
      rcases List.mem_cons.mp hu with rfl | hactive
      · rcases Relation.ReflTransGen.cases_head hreaches with rfl | ⟨y, hbranch, hreaches'⟩
        · exact .inl ⟨rfl, (hturn.matched_iff hsound).mpr (.inr ⟨hmarks, hx⟩)⟩
        · rcases hturn.goes_on hmarks with hblocked | haccept | hgoes
          · exact .inr ⟨u, mem_ranking.mpr (.inl hblocked), hreaches⟩
          · exact absurd (hlayout.segmentOf_accept haccept) hsegment
          · obtain ⟨v, hv, rfl⟩ := hgoes y hbranch
            exact .inr ⟨v, mem_ranking.mpr (.inr hv), hreaches'⟩
      · exact .inr ⟨u, mem_ranking.mpr
          (.inr (h.toOrdered.mem_pending_of_turn hlayout ht hturn hactive hsegment)), hreaches⟩

include h hlayout hsound in
theorem read (hidle : m.isIdle = true) (hlt : m.position < q.input.size) :
    (m.read q hlt).PlainWatches q V s := by
  refine { h.toOrdered.read hlayout hsound hidle hlt with
    covered := fun x index hx henters hle => ?_ }
  have hposition : (m.read q hlt).position = m.position + 1 := position_feed _ _ _
  rw [hposition] at hle
  rcases h.covered x index hx henters (Nat.le_of_succ_le hle) with ⟨heq, -⟩ | ⟨t, ht, hreaches⟩
  · omega
  · exact .inr (hsound.exists_reaches_read hidle hlt ht hreaches hle)

end PlainWatches

/-- **All through a plain scan the lookbehinds are watched.** -/
theorem PlainScanning.watches (h : PlainScanning q m₀ m) (h₀ : m₀.Sound q)
    (hlayout : q.program.WellLaidOut) (hV : q.IsVerdict m₀.position V) :
    m.PlainWatches q V m₀.position := by
  induction h with
  | begin =>
    exact { h₀.ordered_beginScan with
      covered := fun x _ _ henters _ => .inr (h₀.exists_reaches_beginScan henters) }
  | @step m h ih =>
    have hsound := (h.sound h₀).1
    rcases ht : m.running with _ | t
    · rcases hactive : m.active with _ | ⟨t, active⟩
      · rwa [plainStep_of_isIdle (by simp [isIdle, ht, hactive])]
      · rw [plainStep_of_none ht hactive]
        exact ih.congr rfl (by rw [pending_of_some rfl, pending_of_none ht, hactive]) rfl rfl
    · obtain ⟨m', hturn, hposition, heq, hmarks⟩ := h.turn h₀ (ih.agrees hlayout hV hsound) ht
      rw [heq]
      exact (ih.of_turn hlayout hV hsound ht hturn (hmarks _) hposition).congr rfl rfl rfl rfl
  | read h hidle hunsettled hlt ih => exact ih.read hlayout (h.sound h₀).1 hidle hlt

end Machine

end RegexMachine
