import RegexMachine.Proofs.Cost

/-!
# Proofs/View — a machine, but for the pool and the log

What a thread does next depends on where it stands, on the threads before it and on where
instructions were run at this position, but not on the pool, and not on what the log says of earlier
positions. A `View` has just this, and turns of its own (`View.turn`). It follows a machine that
shows it (`Machine.Shows`) through a drain (`Shows.drain`) and from one position to the next
(`Shows.exists_run_eq`), so that the scans of a given program over any input can be computed.
-/

namespace RegexMachine

/-! ## Views and their turns -/

/-- What decides on the next turn of a machine, and what the turns so far have come to. -/
structure View where
  position : Nat
  pending : List Thread
  blocked : List Thread
  best : Option Registers
  /-- Where instructions were run at this position. -/
  visited : List Site
  /-- Instructions run, over all scans. -/
  steps : Nat

namespace View

variable {α : Type} [CodeUnit α] (q : Query α) (V : Verdicts) (v : View)

/-- The threads that go on where a thread stands. -/
def successors (t : Thread) : List Thread :=
  let x : Site := ⟨t.pc, t.consumed, v.position⟩
  (q.branches V x).map fun y =>
    { pc := y.pc, registers := q.carry t.registers x, consumed := y.consumed }

/-- The turn of the thread of highest priority. -/
def turn : View :=
  match v.pending with
  | [] => v
  | t :: rest =>
    let x : Site := ⟨t.pc, t.consumed, v.position⟩
    if x ∈ v.visited then { v with pending := rest }
    else
      let v := { v with visited := x :: v.visited, steps := v.steps + 1 }
      match q.instruction? t.pc with
      | some (.consume _ _) => { v with pending := rest, blocked := t :: v.blocked }
      | some .accept => { v with pending := [], best := some t.registers }
      | _ => { v with pending := v.successors q V t ++ rest }

/-- At the next position. -/
def read : View :=
  { v with
    position := v.position + 1
    pending := v.blocked.reverse.flatMap (v.successors q V)
    blocked := []
    visited := [] }

end View

/-! ## The machine behind a view -/

namespace Machine

/-- **A machine shows a view.** -/
structure Shows (m : Machine) (v : View) : Prop where
  position_eq : m.position = v.position
  pending_eq : m.pending = v.pending
  blocked_eq : m.blocked = v.blocked
  best_eq : m.best = v.best
  steps_eq : m.stats.steps = v.steps
  marks_iff : ∀ x : Site, x.position = m.position → (m.visits.Marks x ↔ x ∈ v.visited)

variable {α : Type} [CodeUnit α] {q : Query α} {V : Verdicts} {m₀ m : Machine} {v : View}
  {t : Thread}

theorem Shows.successors_eq (h : m.Shows v) : m.successors q V = v.successors q V := by
  funext t
  rw [successors, View.successors, siteOf, h.position_eq]

/-- A turn is counted unless the thread is refused. -/
theorem Sound.steps_step (h : m.Sound q) (ht : m.running = some t) :
    (m.visits.Marks (m.siteOf t) → (m.step q).stats.steps = m.stats.steps) ∧
      (¬ m.visits.Marks (m.siteOf t) → (m.step q).stats.steps = m.stats.steps + 1) := by
  have hlt := (h.fits_running ht).counter_lt
  have hadmits : m.visits.admits t.pc t.consumed m.position = true ↔
      t.pc < q.program.size ∧ ¬ m.visits.Marks (m.siteOf t) := VisitLog.admits_iff h.size_visits
  refine ⟨fun hmarks => ?_, fun hmarks => ?_⟩
  · rw [step_of_refused q ht
      (Bool.eq_false_iff.mpr fun hadmitted => (hadmits.mp hadmitted).2 hmarks)]
    rfl
  · rw [step_of_admitted q ht (hadmits.mpr ⟨hlt, hmarks⟩) (Array.getElem?_eq_getElem hlt),
      stats_execute]
    rfl

/-- **A turn of the machine is a turn of the view.** -/
theorem Shows.turn (h : m.Shows v) (hsound : m.Sound q) (hreads : m.Agrees q V)
    (ht : m.running = some t) : (m.step q).Shows (v.turn q V) := by
  have hturn := hsound.turn hreads ht
  have hpending : v.pending = t :: m.active := h.pending_eq.symm.trans (pending_of_some ht)
  have hposition : (m.step q).position = v.position := (position_step q m).trans h.position_eq
  have hsite : (⟨t.pc, t.consumed, v.position⟩ : Site) = m.siteOf t := by
    rw [siteOf, h.position_eq]
  have hvisited : m.visits.Marks (m.siteOf t) ↔ m.siteOf t ∈ v.visited := h.marks_iff _ rfl
  obtain ⟨hrefused, hruns⟩ := hsound.steps_step ht
  rw [h.steps_eq] at hrefused hruns
  have hmarks : ∀ x : Site, x.position = (m.step q).position →
      ((m.step q).visits.Marks x ↔ x = m.siteOf t ∨ x ∈ v.visited) := fun x hx => by
    have hx' := hx.trans (position_step q m)
    rw [hturn.marks_iff hsound ht hx', h.marks_iff x hx']
  rw [View.turn, hpending]
  dsimp only
  rw [hsite]
  cases hturn with
  | refused hhas hpending' hblocked hbest =>
    rw [if_pos (hvisited.mp hhas)]
    refine ⟨hposition, hpending', hblocked.trans h.blocked_eq, hbest.trans h.best_eq,
      hrefused hhas, fun x hx => (hmarks x hx).trans ⟨?_, .inr⟩⟩
    rintro (rfl | hx)
    · exact hvisited.mp hhas
    · exact hx
  | waits hnew hawaits hpending' hblocked hbest =>
    obtain ⟨i, hi, hwaits⟩ := hawaits
    rw [if_neg fun hmem => hnew (hvisited.mpr hmem), hi]
    cases i with
    | consume min max =>
      exact ⟨hposition, hpending', hblocked.trans (congrArg (t :: ·) h.blocked_eq),
        hbest.trans h.best_eq, hruns hnew, fun x hx => by rw [hmarks x hx, List.mem_cons]⟩
    | _ => exact absurd hwaits (by simp [Instruction.waits])
  | accepts hnew hi hpending' hblocked hbest =>
    rw [if_neg fun hmem => hnew (hvisited.mpr hmem), hi]
    exact ⟨hposition, hpending', hblocked.trans h.blocked_eq, hbest, hruns hnew,
      fun x hx => by rw [hmarks x hx, List.mem_cons]⟩
  | @goes hnew i hi hwaits haccept hpending' hblocked hbest =>
    rw [if_neg fun hmem => hnew (hvisited.mpr hmem), hi]
    have hgoes : (m.step q).Shows
        { v with
          pending := v.successors q V t ++ m.active
          visited := m.siteOf t :: v.visited
          steps := v.steps + 1 } :=
      ⟨hposition, by rw [hpending', h.successors_eq], hblocked.trans h.blocked_eq,
        hbest.trans h.best_eq, hruns hnew, fun x hx => by rw [hmarks x hx, List.mem_cons]⟩
    cases i with
    | consume => exact absurd hwaits (by simp [Instruction.waits])
    | accept => exact absurd rfl haccept
    | _ => exact hgoes

/-- **What a drain shows** can be had from the view, if so many turns come to an end. -/
theorem Shows.drain (h : m.Shows v) (hscanning : Scanning q m₀ m) (h₀ : m₀.Sound q)
    (hreads : ∀ m : Machine, m.Agrees q V) (turns : Nat)
    (hdone : ((View.turn q V)^[turns] v).pending = []) :
    (m.drain q).Shows ((View.turn q V)^[turns] v) := by
  -- A step that gives an active thread its turn changes nothing in the view: only the steps of a
  -- running thread are turns.
  fun_induction Machine.drain q m generalizing v turns with
  | case1 m hidle =>
    have hrest : v.turn q V = v := by
      rw [View.turn, ← h.pending_eq, isIdle_iff.mp hidle]
    rwa [Function.iterate_fixed hrest]
  | case2 m hbusy ih =>
    rcases hrunning : m.running with _ | t
    · rcases hactive : m.active with _ | ⟨t, active⟩
      · simp [isIdle, hrunning, hactive] at hbusy
      · refine ih ?_ hscanning.step turns hdone
        rw [step_of_none q hrunning hactive]
        have hpending : t :: active = v.pending := by
          rw [← h.pending_eq, pending_of_none hrunning, hactive]
        exact ⟨h.position_eq, hpending, h.blocked_eq, h.best_eq, h.steps_eq, h.marks_iff⟩
    · have hturn := h.turn (hscanning.sound h₀) (hreads m) hrunning
      cases turns with
      | zero =>
        have hpending := h.pending_eq.trans hdone
        simp [pending_of_some hrunning] at hpending
      | succ turns => exact ih hturn hscanning.step turns hdone

/-- **What is shown at the next position** before a thread has had a turn. -/
theorem Shows.read (h : m.Shows v) (hscanning : Scanning q m₀ m) (h₀ : m₀.Sound q)
    (hidle : m.isIdle = true) (hlt : m.position < q.input.size) :
    (m.read q hlt).Shows (v.read q V) := by
  have hposition : (m.read q hlt).position = m.position + 1 := position_feed _ _ _
  have hvisits : (m.read q hlt).visits = m.visits := visits_feed _ _ _
  have hsteps : (m.read q hlt).stats = m.stats := stats_feed _ _ _
  refine ⟨by rw [hposition, h.position_eq]; rfl, ?_, blocked_feed _ _ _,
    (best_feed _ _ _).trans h.best_eq, by rw [hsteps, h.steps_eq]; rfl, fun x hx => ?_⟩
  · rw [(hscanning.sound h₀).pending_read hidle hlt, View.read, ← h.successors_eq, h.blocked_eq]
  · rw [hvisits, View.read]
    refine iff_of_false (fun hmark => ?_) List.not_mem_nil
    have hle := hscanning.upTo h₀ _ _ _ hmark
    omega

/-- **Where a scan reads on**, it does so from what is shown at the next position, once so many
turns there have come to an end. -/
theorem Shows.exists_run_eq (h : m.Shows v) (hscanning : Scanning q m₀ m) (h₀ : m₀.Sound q)
    (hreads : ∀ m : Machine, m.Agrees q V) (hunsettled : m.isSettled = false)
    (hpending : v.pending = []) (hlt : v.position < q.input.size) {host : Host}
    (hquiet : ∀ n, host.answer n = .proceed) {turns : Nat} {v' : View}
    (hturns : (View.turn q V)^[turns] (v.read q V) = v') (hdone : v'.pending = []) :
    ∃ (m' : Machine) (later : Host), Scanning q m₀ m' ∧ m'.Shows v' ∧
      (∀ n, later.answer n = .proceed) ∧ m.run q host = m'.run q later := by
  have hlt' : m.position < q.input.size := h.position_eq ▸ hlt
  have hidle : m.isIdle = true := isIdle_iff.mpr (h.pending_eq.trans hpending)
  have hread := hscanning.read hidle hunsettled hlt'
  have hdrain := (h.read hscanning h₀ hidle hlt').drain hread h₀ hreads turns
    (by rw [hturns, hdone])
  rw [hturns] at hdrain
  have hnone := Host.error_pollIf_of_quiet hquiet (q.pollsAt (m.position + 1))
  have hanswer := Host.answer_pollIf host (q.pollsAt (m.position + 1))
  exact ⟨_, _, hread.drain, hdrain, fun n => by rw [hanswer]; exact hquiet n,
    run_of_proceed q hunsettled hlt' (Prod.ext hnone rfl)⟩

omit [CodeUnit α] in
/-- What a scan begins with. -/
theorem Sound.shows_beginScan (h : m.Sound q) :
    (m.beginScan q).Shows
      { position := m.position
        pending := ((seeds q).map q.seed).reverse
        blocked := []
        best := none
        visited := []
        steps := m.stats.steps } := by
  obtain ⟨pool, -, heq⟩ := h.beginScan_eq
  rw [heq]
  exact ⟨rfl, rfl, rfl, rfl, rfl, fun x _ =>
    iff_of_false (VisitLog.not_has_fresh _ _ _ _) List.not_mem_nil⟩

end Machine

end RegexMachine
