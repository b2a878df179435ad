import Mathlib
import RegexMachine.Proofs.Route

/-!
# Proofs/Priority — a scan ends with the match of the first route

The machine follows all walks side by side and drops most of them; the route of highest priority
survives. The invariant draws the walks behind the threads (`Chart`): every thread stands at the end
of its walk, and read in the order of the threads the walks precede one another. One step replaces
a walk by its extensions, ends it, or ends all walks behind it (`Chart.Of.turn`).

The first route is never lost (`Chart.Tracks`). A thread on it is not refused, since a site it has
yet to reach is marked by no thread before it (`IsFirst.not_precedes`), and no thread before it
accepts. So when nothing is left to do the first route is the best match.
-/

namespace RegexMachine

/-! ## One step of a walk -/

section Extensions

variable {α : Type} [CodeUnit α] (q : Query α)

/-- The thread that has followed a trail. -/
def Query.threadAfter : Trail → Thread
  | [] => q.seed 0
  | x :: w => { pc := x.2.pc, registers := q.registersAfter w, consumed := x.2.consumed }

/-- The trails that go on where a trail ends, in the order of their priority. -/
def Query.extend (V : Verdicts) (s : Nat) (w : Trail) : List Trail :=
  (q.onward V s w).mapIdx fun k x => (k, x) :: w

variable {q} {V : Verdicts} {s : Nat} {u v w : Trail}

namespace Query

theorem mem_extend :
    u ∈ q.extend V s w ↔ ∃ x, u = x :: w ∧ (q.onward V s w)[x.1]? = some x.2 := by
  rw [extend, List.mem_mapIdx]
  constructor
  · rintro ⟨k, hk, rfl⟩
    exact ⟨_, rfl, List.getElem?_eq_getElem hk⟩
  · rintro ⟨⟨k, x⟩, rfl, hx⟩
    obtain ⟨hk, hx⟩ := List.getElem?_eq_some_iff.mp hx
    exact ⟨k, hk, by rw [hx]⟩

theorem suffix_of_mem_extend (h : u ∈ q.extend V s w) : w <:+ u := by
  obtain ⟨x, rfl, -⟩ := mem_extend.mp h
  exact List.suffix_cons x w

theorem map_threadAfter_extend :
    (q.extend V s w).map q.threadAfter = (q.onward V s w).map fun x =>
      { pc := x.pc, registers := q.registersAfter w, consumed := x.consumed } := by
  refine List.ext_getElem? fun k => ?_
  rw [extend, List.getElem?_map, List.getElem?_mapIdx, List.getElem?_map, Option.map_map]
  rfl

/-- Where a walk goes on, so does its thread. -/
theorem map_extend_eq_successors {m : Machine} {x : Nat × Site}
    (hsite : x.2 = m.siteOf (q.threadAfter (x :: w))) :
    (q.extend V s (x :: w)).map q.threadAfter = m.successors q V (q.threadAfter (x :: w)) := by
  have hregisters : q.registersAfter (x :: w) =
      q.carry (q.registersAfter w) (m.siteOf (q.threadAfter (x :: w))) := by
    rw [← hsite]
    rfl
  rw [map_threadAfter_extend, hregisters, onward, hsite]
  rfl

/-- A trail that takes an earlier branch precedes the others. -/
theorem pairwise_extend : (q.extend V s w).Pairwise Trail.Precedes := by
  refine List.pairwise_iff_getElem.mpr fun i j hi hj hlt => ?_
  simp only [extend, List.getElem_mapIdx]
  exact Trail.precedes_cons hlt

end Query

/-! ## Walks in the order of their priority -/

/-- Walks in order stay so when one of them goes on. -/
theorem pairwise_extend_one {before after : List Trail}
    (h : (before ++ w :: after).Pairwise Trail.Precedes) :
    (before ++ (q.extend V s w ++ after)).Pairwise Trail.Precedes := by
  rw [List.pairwise_append, List.pairwise_cons] at h
  obtain ⟨hbefore, ⟨hw, hafter⟩, hacross⟩ := h
  refine List.pairwise_append.mpr ⟨hbefore, List.pairwise_append.mpr
    ⟨Query.pairwise_extend, hafter, fun u hu v hv => ?_⟩, fun u hu v hv => ?_⟩
  · exact (hw v hv).mono (Query.suffix_of_mem_extend hu) List.suffix_rfl
  · rcases List.mem_append.mp hv with hv | hv
    · exact (hacross u hu w List.mem_cons_self).mono List.suffix_rfl
        (Query.suffix_of_mem_extend hv)
    · exact hacross u hu v (List.mem_cons_of_mem _ hv)

/-- Walks in order stay so when all of them go on. -/
theorem pairwise_extend_all {waiting after : List Trail}
    (h : (waiting ++ after).Pairwise Trail.Precedes) :
    (waiting.flatMap (q.extend V s) ++ after).Pairwise Trail.Precedes := by
  obtain ⟨hwaiting, hafter, hacross⟩ := List.pairwise_append.mp h
  refine List.pairwise_append.mpr ⟨List.pairwise_flatMap.mpr
    ⟨fun w _ => Query.pairwise_extend, hwaiting.imp fun huv u' hu v' hv => ?_⟩, hafter,
    fun u hu v hv => ?_⟩
  · exact huv.mono (Query.suffix_of_mem_extend hu) (Query.suffix_of_mem_extend hv)
  · obtain ⟨w, hw, hu⟩ := List.mem_flatMap.mp hu
    exact (hacross w hw v hv).mono (Query.suffix_of_mem_extend hu) List.suffix_rfl

end Extensions

/-! ## Charts -/

section Charts

variable {α : Type} [CodeUnit α] (q : Query α) (V : Verdicts) (s : Nat)

/-- A walk behind a thread that waits for a unit. -/
structure Trail.Waits (m : Machine) (w : Trail) : Prop where
  walk : Walk q V s w
  simple : w.Simple
  stands : ∃ x ∈ w.head?, x.2.position = m.position ∧ q.Awaits x.2.pc

/-- A walk behind a thread that can run: it has marked all of its sites at this position but the
last. -/
structure Trail.Runs (m : Machine) (w : Trail) : Prop where
  walk : Walk q V s w
  simple : Trail.Simple w.tail
  stands : ∃ x ∈ w.head?, x.2.position = m.position
  marked : ∀ y ∈ w.tail, y.2.position = m.position → m.visits.Marks y.2

/-- The walks behind the threads of a machine, in the order of the threads, and the route behind its
best match. -/
structure Chart where
  waiting : List Trail
  pending : List Trail
  best : Option Trail

/-- **A chart of a machine** — its walks lead to the threads, and precede one another in the order
of priority. -/
structure Chart.Of (c : Chart) (m : Machine) : Prop where
  blocked_eq : m.blocked = c.waiting.map q.threadAfter
  pending_eq : m.pending = c.pending.map q.threadAfter
  best_eq : m.best = c.best.map q.registersAfter
  waits : ∀ w ∈ c.waiting, w.Waits q V s m
  runs : ∀ w ∈ c.pending, w.Runs q V s m
  route : ∀ w ∈ c.best, Route q V s w
  ranked : (c.waiting.reverse ++ (c.pending ++ c.best.toList)).Pairwise Trail.Precedes

/-- **A route is not lost** — a thread waits on it, or a thread can run on it and the way ahead
is free of marks, or it is the best match. -/
def Chart.Tracks (c : Chart) (m : Machine) (r : Trail) : Prop :=
  (∃ w ∈ c.waiting, w <:+ r) ∨
    (∃ l x w, x :: w ∈ c.pending ∧ l ++ x :: w = r ∧ ∀ y ∈ l ++ [x], ¬ m.visits.Marks y.2) ∨
    c.best = some r

/-- A chart on which the first route is not lost, if there is a first route. -/
def Chart.Follows (c : Chart) (m : Machine) : Prop :=
  c.Of q V s m ∧ ∀ r, Route.IsFirst q V s r → c.Tracks m r

/-- A machine has a chart on which the first route is not lost, if there is a first route. -/
def Machine.IsCharted (m : Machine) : Prop :=
  ∃ c : Chart, c.Of q V s m ∧ ∀ r, Route.IsFirst q V s r → c.Tracks m r

variable {q} {V} {s} {c : Chart} {m m' : Machine} {w rest : List Trail}

/-- A step that changes nothing a chart shows. -/
theorem Chart.Follows.congr (h : c.Follows q V s m) (hblocked : m'.blocked = m.blocked)
    (hpending : m'.pending = m.pending) (hbest : m'.best = m.best)
    (hposition : m'.position = m.position) (hvisits : m'.visits = m.visits) :
    c.Follows q V s m' := by
  obtain ⟨hc, htracks⟩ := h
  refine ⟨⟨hblocked.trans hc.blocked_eq, hpending.trans hc.pending_eq, hbest.trans hc.best_eq,
    fun w hw => ?_, fun w hw => ?_, hc.route, hc.ranked⟩, fun r hr => ?_⟩
  · obtain ⟨hwalk, hsimple, hstands⟩ := hc.waits w hw
    exact ⟨hwalk, hsimple, by rwa [hposition]⟩
  · obtain ⟨hwalk, hsimple, hstands, hmarked⟩ := hc.runs w hw
    exact ⟨hwalk, hsimple, by rwa [hposition], by rwa [hposition, hvisits]⟩
  · rw [Chart.Tracks, hvisits]
    exact htracks r hr

/-! ## What a step does to a chart -/

namespace Trail

variable {x : Nat × Site} {w : Trail}

/-- A walk that waits goes on at the next position. -/
theorem Waits.position_onward (h : w.Waits q V s m) (hx : Walk q V s (x :: w)) :
    m.position < q.input.size ∧ x.2.position = m.position + 1 := by
  obtain ⟨y, hy, hposition, hawaits⟩ := h.stands
  obtain ⟨w, rfl⟩ := List.head?_eq_some_iff.mp hy
  rw [← hposition]
  exact hawaits.branch hx.mem_branches

/-- A walk that waits has been at no later position. -/
theorem Waits.position_le (h : w.Waits q V s m) (hx : x ∈ w) : x.2.position ≤ m.position := by
  obtain ⟨y, hy, hposition, -⟩ := h.stands
  obtain ⟨w, rfl⟩ := List.head?_eq_some_iff.mp hy
  rw [← hposition]
  rcases List.mem_cons.mp hx with rfl | hx
  · exact Nat.le_refl _
  · exact h.walk.position_le hx

/-- A walk that waits has not come to the end of a route. -/
theorem Waits.exists_onward (h : w.Waits q V s m) {r : Trail} (hr : Route q V s r) (hwr : w <:+ r) :
    ∃ x, x :: w <:+ r ∧ Walk q V s (x :: w) := by
  have hne : w ≠ r := by
    rintro rfl
    obtain ⟨x, hx, -, hawaits⟩ := h.stands
    obtain ⟨x', hx', haccept⟩ := hr.accepts
    obtain rfl : x = x' := Option.some.inj (hx.symm.trans hx')
    have hwaits := hawaits.waits haccept
    simp [Instruction.waits] at hwaits
  obtain ⟨x, hx⟩ := exists_cons_suffix hwr hne
  exact ⟨x, hx, hr.walk.of_suffix hx⟩

/-- Until the last site of a walk is marked, the walk has not passed it before. -/
theorem Runs.simple_of_not_marks (h : Trail.Runs q V s m (x :: w)) (hx : ¬ m.visits.Marks x.2) :
    Simple (x :: w) := by
  obtain ⟨y, rfl, hposition⟩ : ∃ y, x = y ∧ y.2.position = m.position := by simpa using h.stands
  refine simple_cons.mpr ⟨fun z hz heq => hx ?_, h.simple⟩
  rw [← heq]
  exact h.marked z hz (by rw [heq, hposition])

/-- A mark more does no harm to a walk. -/
theorem Runs.record {size : Nat} (h : w.Runs q V s m) (hsize : m.visits.last.size = 2 * size)
    {x : Site} (hx : x.pc < size) (hposition : x.position = m.position)
    (hposition' : m'.position = m.position)
    (hvisits : m'.visits = m.visits.record x.pc x.consumed x.position) : w.Runs q V s m' := by
  refine ⟨h.walk, h.simple, by rw [hposition']; exact h.stands, fun y hy hy' => ?_⟩
  rw [hposition'] at hy'
  rw [hvisits]
  exact (h.marked y hy hy').record hsize hx (hy'.trans hposition.symm)

end Trail

namespace Chart

variable {x : Nat × Site} {w : Trail} {rest : List Trail}

/-- **The thread whose turn it is has the first of the walks that can go on.** -/
theorem Of.running (hc : c.Of q V s m) {t : Thread} (ht : m.running = some t) :
    ∃ x w rest, c.pending = (x :: w) :: rest ∧ t = q.threadAfter (x :: w) ∧
      m.active = rest.map q.threadAfter ∧ x.2 = m.siteOf t := by
  have hpending := hc.pending_eq
  rw [Machine.pending_of_some ht] at hpending
  obtain ⟨u, rest, hc', rfl, hactive⟩ := List.map_eq_cons_iff.mp hpending.symm
  have hruns := hc.runs u (by rw [hc']; exact List.mem_cons_self)
  obtain ⟨x, hx, hposition⟩ := hruns.stands
  obtain ⟨w, rfl⟩ := List.head?_eq_some_iff.mp hx
  exact ⟨x, w, rest, hc', rfl, hactive.symm, by rw [Machine.siteOf, ← hposition]; rfl⟩

/-- A walk that ends takes no other one with it. -/
theorem Of.ranked_tail (hc : c.Of q V s m) (hpending : c.pending = w :: rest) :
    (c.waiting.reverse ++ (rest ++ c.best.toList)).Pairwise Trail.Precedes := by
  have hranked := hc.ranked
  rw [hpending, List.cons_append] at hranked
  exact hranked.sublist (List.Sublist.append_left (List.sublist_cons_self _ _) _)

/-- The walk of the thread whose turn it is precedes those of the threads behind it. -/
theorem Of.precedes (hc : c.Of q V s m) (hpending : c.pending = w :: rest) {u : Trail}
    (hu : u ∈ rest ++ c.best.toList) : w.Precedes u := by
  have hranked := hc.ranked
  rw [hpending, List.cons_append] at hranked
  exact List.rel_of_pairwise_cons (List.pairwise_append.mp hranked).2.1 hu

/-- **A thread that is refused was not on the first route.** -/
theorem Of.refuse (hc : c.Of q V s m) (htracks : ∀ r, Route.IsFirst q V s r → c.Tracks m r)
    (hpending : c.pending = (x :: w) :: rest) (hmarked : m.visits.Marks x.2)
    (hblocked' : m'.blocked = m.blocked) (hpending' : m'.pending = rest.map q.threadAfter)
    (hbest' : m'.best = m.best) (hposition' : m'.position = m.position)
    (hvisits' : m'.visits = m.visits) : { c with pending := rest }.Follows q V s m' := by
  refine ⟨⟨hblocked'.trans hc.blocked_eq, hpending', hbest'.trans hc.best_eq, fun u hu => ?_,
    fun u hu => ?_, hc.route, hc.ranked_tail hpending⟩, fun r hr => ?_⟩
  · obtain ⟨hwalk, hsimple, hstands⟩ := hc.waits u hu
    exact ⟨hwalk, hsimple, by rwa [hposition']⟩
  · obtain ⟨hwalk, hsimple, hstands, hmarks⟩ :=
      hc.runs u (by rw [hpending]; exact List.mem_cons_of_mem _ hu)
    exact ⟨hwalk, hsimple, by rwa [hposition'], by rwa [hposition', hvisits']⟩
  · rw [Tracks, hvisits']
    rcases htracks r hr with hwait | ⟨l, y, u, hu, hr, hfree⟩ | hbest
    · exact .inl hwait
    · rw [hpending] at hu
      rcases List.mem_cons.mp hu with heq | hu
      · obtain ⟨rfl, rfl⟩ := List.cons.inj heq
        exact absurd hmarked (hfree y (by simp))
      · exact .inr (.inl ⟨l, y, u, hu, hr, hfree⟩)
    · exact .inr (.inr hbest)

section Admitted

/-! A step of a thread that is not refused marks its site, and leaves the position as it is. Its
walk has passed no site twice. -/

variable (hc : c.Of q V s m) (htracks : ∀ r, Route.IsFirst q V s r → c.Tracks m r)
  (hpending : c.pending = (x :: w) :: rest) (hsimple : Trail.Simple (x :: w))
  (hsize : m.visits.last.size = 2 * q.program.size) (hlt : x.2.pc < q.program.size)
  (hposition : m'.position = m.position)
  (hvisits : m'.visits = m.visits.record x.2.pc x.2.consumed x.2.position)

include hc hposition in
theorem Of.waits_of_step {u : Trail} (hu : u ∈ c.waiting) : u.Waits q V s m' := by
  obtain ⟨hwalk, hsimple, hstands⟩ := hc.waits u hu
  exact ⟨hwalk, hsimple, by rwa [hposition]⟩

include hc hpending

theorem Of.stands : x.2.position = m.position := by
  have hruns := hc.runs (x :: w) (by rw [hpending]; exact List.mem_cons_self)
  obtain ⟨y, hy, hposition⟩ := hruns.stands
  obtain rfl : x = y := by simpa using hy
  exact hposition

theorem Of.walk : Walk q V s (x :: w) :=
  (hc.runs (x :: w) (by rw [hpending]; exact List.mem_cons_self)).walk

theorem Of.simple (hunmarked : ¬ m.visits.Marks x.2) : Trail.Simple (x :: w) :=
  (hc.runs (x :: w) (by rw [hpending]; exact List.mem_cons_self)).simple_of_not_marks hunmarked

include hsize hlt hposition hvisits in
theorem Of.runs_of_step {u : Trail} (hu : u ∈ rest) : u.Runs q V s m' :=
  (hc.runs u (by rw [hpending]; exact List.mem_cons_of_mem _ hu)).record hsize hlt
    (hc.stands hpending) hposition hvisits

include hsimple hsize hlt hvisits in
/-- **A thread before the first route leaves no mark on the way ahead.** -/
theorem Of.free_of_step {l u : Trail} {y : Nat × Site} (hr : Route.IsFirst q V s (l ++ y :: u))
    (hu : y :: u ∈ rest) (hfree : ∀ z ∈ l ++ [y], ¬ m.visits.Marks z.2) :
    ∀ z ∈ l ++ [y], ¬ m'.visits.Marks z.2 := by
  intro z hz hmarks
  rw [hvisits] at hmarks
  rcases VisitLog.marks_of_record hsize hlt hmarks with heq | hold
  · exact hr.ne_of_precedes (hc.walk hpending) hsimple
      (hc.precedes hpending (List.mem_append_left _ hu)) hz heq
  · exact hfree z hz hold

include htracks hsimple hposition in
/-- **A thread that accepts** was on the first route, or there is a better one before it. -/
theorem Of.accept (hi : q.instruction? x.2.pc = some .accept) (hblocked' : m'.blocked = m.blocked)
    (hpending' : m'.pending = []) (hbest' : m'.best = some (q.registersAfter w)) :
    { c with pending := [], best := some (x :: w) }.Follows q V s m' := by
  have hroute : Route q V s (x :: w) := ⟨hc.walk hpending, hsimple, x, rfl, hi⟩
  have hregisters : q.registersAfter (x :: w) = q.registersAfter w := by
    simp [Query.registersAfter, Query.carry, hi]
  refine ⟨⟨hblocked'.trans hc.blocked_eq, hpending', ?_, fun u hu => ?_, by simp,
    by simpa using hroute, ?_⟩, fun r hr => ?_⟩
  · rw [hbest', Option.map_some, hregisters]
  · exact hc.waits_of_step hposition hu
  · have hranked := hc.ranked
    rw [hpending, List.cons_append] at hranked
    refine hranked.sublist (List.Sublist.append_left ?_ _)
    simp
  · have hbehind : ∀ u ∈ rest ++ c.best.toList, ¬ u <:+ r := by
      intro u hu hur
      have hprecedes := (hc.precedes hpending hu).mono List.suffix_rfl hur
      rcases hr.first _ hroute with rfl | hback
      · exact hprecedes.irrefl
      · exact (hprecedes.trans hback).irrefl
    rcases htracks r hr with hwait | ⟨l, y, u, hu, hlu, -⟩ | hbest
    · exact .inl hwait
    · rw [hpending] at hu
      rcases List.mem_cons.mp hu with heq | hu
      · have hsuffix : x :: w <:+ r := hlu ▸ heq ▸ List.suffix_append l _
        exact .inr (.inr (congrArg some (hroute.eq_of_suffix hr.route hsuffix)))
      · exact absurd ⟨l, hlu⟩ (hbehind _ (List.mem_append_left _ hu))
    · exact absurd List.suffix_rfl (hbehind r (List.mem_append_right _ (by simp [hbest])))

include htracks hsimple hsize hlt hposition hvisits

/-- **A thread that waits for a unit** keeps its walk. -/
theorem Of.wait (hawaits : q.Awaits x.2.pc)
    (hblocked' : m'.blocked = q.threadAfter (x :: w) :: m.blocked)
    (hpending' : m'.pending = rest.map q.threadAfter) (hbest' : m'.best = m.best) :
    { c with waiting := (x :: w) :: c.waiting, pending := rest }.Follows q V s m' := by
  refine ⟨⟨?_, hpending', hbest'.trans hc.best_eq, fun u hu => ?_, fun u hu => ?_, hc.route, ?_⟩,
    fun r hr => ?_⟩
  · rw [hblocked', hc.blocked_eq]
    rfl
  · rcases List.mem_cons.mp hu with rfl | hu
    · exact ⟨hc.walk hpending, hsimple, x, rfl, (hc.stands hpending).trans hposition.symm,
        hawaits⟩
    · exact hc.waits_of_step hposition hu
  · exact hc.runs_of_step hpending hsize hlt hposition hvisits hu
  · have hranked := hc.ranked
    rw [hpending] at hranked
    simpa using hranked
  · rcases htracks r hr with ⟨u, hu, hur⟩ | ⟨l, y, u, hu, rfl, hfree⟩ | hbest
    · exact .inl ⟨u, List.mem_cons_of_mem _ hu, hur⟩
    · rw [hpending] at hu
      rcases List.mem_cons.mp hu with heq | hu
      · exact .inl ⟨x :: w, List.mem_cons_self, heq ▸ List.suffix_append l _⟩
      · exact .inr (.inl ⟨l, y, u, hu, rfl,
          hc.free_of_step hpending hsimple hsize hlt hvisits hr hu hfree⟩)
    · exact .inr (.inr hbest)

/-- **A thread that goes on** leaves its walk to its successors. -/
theorem Of.go (hpositions : ∀ y ∈ q.branches V x.2, y.position = x.2.position)
    (haccept : q.instruction? x.2.pc ≠ some .accept) (hblocked' : m'.blocked = m.blocked)
    (hpending' : m'.pending = (q.extend V s (x :: w) ++ rest).map q.threadAfter)
    (hbest' : m'.best = m.best) :
    { c with pending := q.extend V s (x :: w) ++ rest }.Follows q V s m' := by
  have hstands := hc.stands hpending
  refine ⟨⟨hblocked'.trans hc.blocked_eq, hpending', hbest'.trans hc.best_eq, fun u hu => ?_,
    fun u hu => ?_, hc.route, ?_⟩, fun r hr => ?_⟩
  · exact hc.waits_of_step hposition hu
  · rcases List.mem_append.mp hu with hu | hu
    · obtain ⟨y, rfl, hy⟩ := Query.mem_extend.mp hu
      refine ⟨.cons (hc.walk hpending) hy, hsimple, ⟨y, rfl, ?_⟩, fun z hz hz' => ?_⟩
      · rw [hpositions y.2 (List.mem_of_getElem? hy), hstands, hposition]
      · rw [hvisits]
        rcases List.mem_cons.mp hz with rfl | hz
        · exact VisitLog.marks_record_self hsize hlt
        · have hruns := hc.runs (x :: w) (by rw [hpending]; exact List.mem_cons_self)
          rw [hposition] at hz'
          exact (hruns.marked z hz hz').record hsize hlt (hz'.trans hstands.symm)
    · exact hc.runs_of_step hpending hsize hlt hposition hvisits hu
  · have hranked := hc.ranked
    rw [hpending, List.cons_append] at hranked
    rw [List.append_assoc]
    exact pairwise_extend_one hranked
  · rcases htracks r hr with hwait | ⟨l, y, u, hu, rfl, hfree⟩ | hbest
    · exact .inl hwait
    · rw [hpending] at hu
      rcases List.mem_cons.mp hu with heq | hu
      · obtain ⟨rfl, rfl⟩ := List.cons.inj heq
        rcases List.eq_nil_or_concat l with rfl | ⟨l, z, rfl⟩
        · obtain ⟨y', hy', hi⟩ := hr.route.accepts
          obtain rfl : y = y' := by simpa using hy'
          exact absurd hi haccept
        · have hroute := hr.route
          rw [List.concat_eq_append, List.append_assoc, List.singleton_append] at hroute hfree ⊢
          have hz := hroute.walk.of_suffix (List.suffix_append l _)
          refine .inr (.inl ⟨l, z, y :: u, List.mem_append_left _
            (Query.mem_extend.mpr ⟨z, rfl, hz.mem_onward⟩), rfl, fun z' hz' hmarks => ?_⟩)
          rw [hvisits] at hmarks
          rcases VisitLog.marks_of_record hsize hlt hmarks with heq' | hold
          · rw [← List.singleton_append (x := z), ← List.append_assoc] at hroute
            exact hroute.simple.ne_of_mem hz' heq'
          · exact hfree z' (by simp at hz' ⊢; tauto) hold
      · exact .inr (.inl ⟨l, y, u, List.mem_append_right _ hu, rfl,
          hc.free_of_step hpending hsimple hsize hlt hvisits hr hu hfree⟩)
    · exact .inr (.inr hbest)

end Admitted

/-- **A turn of a thread that is not refused** — the thread waits, accepts, or leaves its walk to
its successors. The log may be another one than the machine's, as long as the walk of the thread
passes no site twice. -/
theorem Of.turn {log : VisitLog} (hc : c.Of q V s { m with visits := log })
    (htracks : ∀ r, Route.IsFirst q V s r → c.Tracks { m with visits := log } r)
    (hpending : c.pending = (x :: w) :: rest) (hsimple : Trail.Simple (x :: w))
    (hsize : log.last.size = 2 * q.program.size) (hlt : x.2.pc < q.program.size)
    (hactive : m.active = rest.map q.threadAfter)
    (hsite : x.2 = m.siteOf (q.threadAfter (x :: w))) (hmarks : ¬ m.visits.Marks x.2)
    (hturn : Machine.Turn q V m (q.threadAfter (x :: w)) m')
    (hposition : m'.position = m.position) :
    ∃ c' : Chart,
      c'.Follows q V s { m' with visits := log.record x.2.pc x.2.consumed x.2.position } ∧
        (q.instruction? x.2.pc = some .accept ∧ c'.pending = [] ∨
          q.Awaits x.2.pc ∧ c'.pending = rest ∨
          (∃ i, q.instruction? x.2.pc = some i ∧ i.waits = false ∧ i ≠ .accept) ∧
            c'.pending = q.extend V s (x :: w) ++ rest) := by
  rw [hsite] at hmarks
  rcases hturn with
    ⟨hmarks', -⟩ | ⟨-, hawaits, hpending', hblocked', hbest', -⟩ |
    ⟨-, hi, hpending', hblocked', hbest', -⟩ |
    ⟨-, hi, hwaits, haccept, hpending', hblocked', hbest', -⟩
  · exact absurd hmarks' hmarks
  · exact ⟨_, hc.wait htracks hpending hsimple hsize hlt hposition rfl hawaits hblocked'
      (hpending'.trans hactive) hbest', .inr (.inl ⟨hawaits, rfl⟩)⟩
  · exact ⟨_, hc.accept htracks hpending hsimple hposition hi hblocked' hpending' hbest',
      .inl ⟨hi, rfl⟩⟩
  · refine ⟨_, hc.go htracks hpending hsimple hsize hlt hposition rfl
      (fun y => Query.position_branch hi hwaits) ?_ hblocked' ?_ hbest',
      .inr (.inr ⟨⟨_, hi, hwaits, haccept⟩, rfl⟩)⟩
    · exact fun hi' => haccept (Option.some.inj (hi.symm.trans hi'))
    · change m'.pending = _
      rw [hpending', List.map_append, Query.map_extend_eq_successors hsite, hactive]

/-- **Reading a unit** takes every walk one branch further, and past all marks. -/
theorem Of.read (hc : c.Of q V s m) (htracks : ∀ r, Route.IsFirst q V s r → c.Tracks m r)
    (hsound : m.Sound q) (hidle : m.isIdle = true) (hmarks : m.visits.UpTo m.position)
    (hlt : m.position < q.input.size) :
    Chart.Follows q V s ⟨[], c.waiting.reverse.flatMap (q.extend V s), c.best⟩ (m.read q hlt) := by
  have hpending : c.pending = [] := by
    have hpending := hc.pending_eq
    rw [Machine.isIdle_iff.mp hidle] at hpending
    exact List.map_eq_nil_iff.mp hpending.symm
  have hfresh : ∀ x : Site, m.position < x.position → ¬ m.visits.Marks x :=
    fun x hx => hmarks.not_has hx _ _
  refine ⟨⟨?_, ?_, ?_, by simp, fun u hu => ?_, hc.route, ?_⟩, fun r hr => ?_⟩
  · simp [Machine.read]
  · rw [hsound.pending_read (V := V) hidle hlt, hc.blocked_eq, ← List.map_reverse,
      List.flatMap_map, List.map_flatMap]
    refine List.flatMap_congr fun w hw => ?_
    obtain ⟨x, hx, hposition, -⟩ := (hc.waits w (List.mem_reverse.mp hw)).stands
    obtain ⟨w, rfl⟩ := List.head?_eq_some_iff.mp hx
    exact (Query.map_extend_eq_successors (by rw [Machine.siteOf, ← hposition]; rfl)).symm
  · rw [Machine.read, Machine.best_feed]
    exact hc.best_eq
  · obtain ⟨w, hw, hu⟩ := List.mem_flatMap.mp hu
    have hw := List.mem_reverse.mp hw
    obtain ⟨x, rfl, hx⟩ := Query.mem_extend.mp hu
    have hwaits := hc.waits w hw
    obtain ⟨-, hposition⟩ := hwaits.position_onward (.cons hwaits.walk hx)
    refine ⟨.cons hwaits.walk hx, hwaits.simple, ⟨x, rfl, ?_⟩, fun y hy hy' => ?_⟩
    · rw [Machine.read, Machine.position_feed, hposition]
      rfl
    · have hle := hwaits.position_le hy
      rw [hy', Machine.read, Machine.position_feed] at hle
      exact absurd hle (Nat.not_succ_le_self _)
  · have hranked := hc.ranked
    rw [hpending, List.nil_append] at hranked
    exact pairwise_extend_all hranked
  · rcases htracks r hr with ⟨w, hw, hwr⟩ | ⟨l, y, u, hu, -⟩ | hbest
    · obtain ⟨x, ⟨l, rfl⟩, hx⟩ := (hc.waits w hw).exists_onward hr.route hwr
      refine .inr (.inl ⟨l, x, w, List.mem_flatMap.mpr ⟨w, List.mem_reverse.mpr hw,
        Query.mem_extend.mpr ⟨x, rfl, hx.mem_onward⟩⟩, rfl, fun z hz => ?_⟩)
      rw [Machine.read, Machine.visits_feed]
      have hahead := hr.route.walk.position_le_ahead hz
      rw [((hc.waits w hw).position_onward hx).2] at hahead
      exact hfresh z.2 hahead
    · rw [hpending] at hu
      simp at hu
    · exact .inr (.inr hbest)

end Chart

namespace Machine

/-- A scan begins with the walks that have only entered the program. -/
theorem Sound.follows_beginScan (h : m.Sound q) :
    Chart.Follows q V m.position ⟨[], q.extend V m.position [], none⟩ (m.beginScan q) := by
  obtain ⟨pool, -, heq⟩ := h.beginScan_eq
  rw [heq]
  refine ⟨⟨rfl, ?_, rfl, by simp, fun u hu => ?_, by simp, ?_⟩, fun r hr => ?_⟩
  · rw [Query.map_threadAfter_extend, ← List.map_reverse, Query.onward, List.map_map]
    rfl
  · obtain ⟨x, rfl, hx⟩ := Query.mem_extend.mp hu
    obtain ⟨pc, -, hsite⟩ := List.mem_map.mp (List.mem_of_getElem? hx)
    exact ⟨.cons .nil hx, List.nodup_nil, ⟨x, rfl, by rw [← hsite]⟩, by simp⟩
  · simpa using Query.pairwise_extend
  · have hne : ([] : Trail) ≠ r := by
      rintro rfl
      obtain ⟨x, hx, -⟩ := hr.route.accepts
      simp at hx
    obtain ⟨x, l, rfl⟩ := Trail.exists_cons_suffix List.nil_suffix hne
    have hx := hr.route.walk.of_suffix (List.suffix_append l [x])
    exact .inr (.inl ⟨l, x, [], Query.mem_extend.mpr ⟨x, rfl, hx.mem_onward⟩, rfl,
      fun y _ => VisitLog.not_has_fresh _ _ _ _⟩)

/-- **A step keeps the chart.** -/
theorem IsCharted.step (h : m.IsCharted q V s) (hsound : m.Sound q) (hreads : m.Agrees q V) :
    (m.step q).IsCharted q V s := by
  rcases hrunning : m.running with _ | t
  · rcases hactive : m.active with _ | ⟨t, active⟩
    · rwa [step_of_isIdle q (by simp [isIdle, hrunning, hactive])]
    · obtain ⟨c, hfollows⟩ := h
      rw [step_of_none q hrunning hactive]
      exact ⟨c, Chart.Follows.congr hfollows rfl
        (by rw [pending_of_some rfl, pending_of_none hrunning, hactive]) rfl rfl rfl⟩
  · obtain ⟨c, hc, htracks⟩ := h
    obtain ⟨x, w, rest, hpending, rfl, hactive, hsite⟩ := hc.running hrunning
    have hlt : x.2.pc < q.program.size := (hsound.fits_running hrunning).counter_lt
    have hposition : (m.step q).position = m.position := position_step q m
    have hturn := hsound.turn hreads hrunning
    by_cases hmarks : m.visits.Marks x.2
    · obtain ⟨hpending', hblocked', hbest', hvisits'⟩ := hturn.of_marks (hsite ▸ hmarks)
      exact ⟨_, hc.refuse htracks hpending hmarks hblocked' (hpending'.trans hactive) hbest'
        hposition hvisits'⟩
    · obtain ⟨c', hfollows, -⟩ := hc.turn htracks hpending (hc.simple hpending hmarks)
        hsound.size_visits hlt hactive hsite hmarks hturn hposition
      refine ⟨c', Chart.Follows.congr hfollows rfl rfl rfl rfl ?_⟩
      rw [hturn.visits_eq (hsite ▸ hmarks), hc.stands hpending]
      rfl

/-! ## Whole scans -/

variable {m₀ : Machine}

/-- **All through a scan the machine has a chart.** -/
theorem Scanning.isCharted (h : Scanning q m₀ m) (h₀ : m₀.Sound q)
    (hreads : ∀ m, Scanning q m₀ m → m.Agrees q V) : m.IsCharted q V m₀.position := by
  induction h with
  | begin => exact ⟨_, h₀.follows_beginScan⟩
  | step h ih => exact ih.step (h.sound h₀) (hreads _ h)
  | read h hidle hunsettled hlt ih =>
    obtain ⟨c, hc, htracks⟩ := ih
    exact ⟨_, hc.read htracks (h.sound h₀) hidle (h.upTo h₀) hlt⟩

/-- Nothing waits on a route when there is nothing left to read. -/
theorem not_waiting_of_end {w r : Trail} (hw : w.Waits q V s m) (hr : Route q V s r)
    (hend : q.input.size ≤ m.position) : ¬ w <:+ r := by
  intro hwr
  obtain ⟨x, -, hx⟩ := hw.exists_onward hr hwr
  exact absurd (hw.position_onward hx).1 (Nat.not_lt.mpr hend)

/-- **A scan ends with the first route as its best match**, and with no match if there is no
route. -/
theorem IsCharted.best_iff (h : m.IsCharted q V s) (hs : s ≤ q.input.size)
    (hidle : m.isIdle = true) (hend : m.isSettled = true ∨ q.input.size ≤ m.position) :
    (m.best = none ↔ ∀ w, ¬ Route q V s w) ∧
      ∀ registers, m.best = some registers ↔
        ∃ w, Route.IsFirst q V s w ∧ q.registersAfter w = registers := by
  obtain ⟨c, hc, htracks⟩ := h
  have hfirst : ∀ r, Route.IsFirst q V s r → c.best = some r := by
    intro r hr
    rcases htracks r hr with ⟨w, hw, hwr⟩ | ⟨l, x, w, hw, -⟩ | hbest
    · rcases hend with hsettled | hend
      · rw [isSettled, Bool.and_eq_true, List.isEmpty_iff, hc.blocked_eq, List.map_eq_nil_iff]
          at hsettled
        rw [hsettled.2] at hw
        simp at hw
      · exact absurd hwr (not_waiting_of_end (hc.waits w hw) hr.route hend)
    · have hpending := hc.pending_eq
      rw [isIdle_iff.mp hidle] at hpending
      rw [List.map_eq_nil_iff.mp hpending.symm] at hw
      simp at hw
    · exact hbest
  have hexists : (∃ w, Route q V s w) → ∃ w, Route.IsFirst q V s w ∧ c.best = some w := fun h =>
    let ⟨w, hw⟩ := Route.exists_isFirst hs h
    ⟨w, hw, hfirst w hw⟩
  rw [hc.best_eq]
  refine ⟨⟨fun hnone w hw => ?_, fun hnone => ?_⟩, fun registers => ⟨fun hsome => ?_, ?_⟩⟩
  · obtain ⟨r, -, hbest⟩ := hexists ⟨w, hw⟩
    simp [hbest] at hnone
  · rcases hbest : c.best with _ | w
    · rfl
    · exact absurd (hc.route w (by simp [hbest])) (hnone w)
  · obtain ⟨w, hbest, hregisters⟩ := Option.map_eq_some_iff.mp hsome
    obtain ⟨r, hr, hbest'⟩ := hexists ⟨w, hc.route w (by simp [hbest])⟩
    obtain rfl : w = r := Option.some.inj (hbest.symm.trans hbest')
    exact ⟨w, hr, hregisters⟩
  · rintro ⟨w, hw, rfl⟩
    rw [hfirst w hw, Option.map_some]

/-- **The match of a scan is the first route** — as long as what the machine says of lookbehinds
agrees with the verdicts, and the host does not end the scan before. -/
theorem Sound.best_iff_of_scan (h₀ : m₀.Sound q) (hreads : ∀ m, Scanning q m₀ m → m.Agrees q V)
    {host : Host} (hnone : (m₀.scan q host).1 = none) :
    ((m₀.scan q host).2.1.best = none ↔ ∀ w, ¬ Route q V m₀.position w) ∧
      ∀ registers, (m₀.scan q host).2.1.best = some registers ↔
        ∃ w, Route.IsFirst q V m₀.position w ∧ q.registersAfter w = registers := by
  have hend := Scanning.scan q m₀ host
  split at hend
  · next last host' heq =>
    rw [heq]
    exact (hend.1.isCharted h₀ hreads).best_iff h₀.position_le hend.2.1 hend.2.2
  · next error last host' heq =>
    rw [heq] at hnone
    simp at hnone

theorem Sound.best_scan_iff (h₀ : m₀.Sound q) (hreads : ∀ m, Scanning q m₀ m → m.Agrees q V)
    {host : Host} (hquiet : ∀ n, host.answer n = .proceed) :
    ((m₀.scan q host).2.1.best = none ↔ ∀ w, ¬ Route q V m₀.position w) ∧
      ∀ registers, (m₀.scan q host).2.1.best = some registers ↔
        ∃ w, Route.IsFirst q V m₀.position w ∧ q.registersAfter w = registers :=
  h₀.best_iff_of_scan hreads (error_scan_of_quiet m₀ hquiet)

end Machine

end Charts

/-! ## Programs that read no lookbehind -/

/-- No instruction of the program reads a lookbehind. -/
def Program.ReadsNothing (p : Program) : Prop := ∀ i ∈ p.code, i.reads = false

instance (p : Program) : Decidable p.ReadsNothing :=
  inferInstanceAs (Decidable (∀ i ∈ p.code, i.reads = false))

/-- Where nothing is read, any verdicts will do. -/
theorem Program.ReadsNothing.agrees {α : Type} {q : Query α} (h : q.program.ReadsNothing)
    (V : Verdicts) (m : Machine) : m.Agrees q V := by
  intro t index want _ _ hi
  have hno := h _ (Array.mem_of_getElem? hi)
  simp [Instruction.reads] at hno

namespace Search

variable {α : Type} [CodeUnit α]

/-- **A scan finds the route of the highest priority** — a search that is anywhere in the input,
after whatever calls, finds nothing exactly if there is no route from there, and otherwise the
registers of the route that precedes all others. No lookbehind is read, so the verdicts do not
matter. -/
theorem scan_finds_first_route (q : Query α) (hreads : q.program.ReadsNothing) (position : Nat)
    (calls : List Call) (V : Verdicts) (host : Host) (hquiet : ∀ n, host.answer n = .proceed) :
    let m := ((start q position).after q calls).machine
    (m.scan q host).1 = none ∧
      ((m.scan q host).2.1.best = none ↔ ∀ w, ¬ Route q V m.position w) ∧
      ∀ registers, (m.scan q host).2.1.best = some registers ↔
        ∃ w, Route.IsFirst q V m.position w ∧ q.registersAfter w = registers := by
  intro m
  have hsound : m.Sound q := sound_after (sound_start q position) calls
  exact ⟨Machine.error_scan_of_quiet m hquiet,
    hsound.best_scan_iff (fun m' _ => hreads.agrees V m') hquiet⟩

/-- The expression `a|ab`, on the input `ab`. -/
def alternation : Query UInt8 where
  program :=
    ⟨#[.setRegister 0, .fork 4, .consume 0x61 0x61, .jump 6, .consume 0x61 0x61,
      .consume 0x62 0x62, .setRegister 1, .accept], by decide⟩
  registerCount := 2
  enough := by decide
  input := #[0x61, 0x62]
  pollInterval := defaultPollInterval

/-- The first route of `a|ab` takes the first alternative, although the second one goes further. -/
theorem scan_finds_first_alternative :
    alternation.program.ReadsNothing ∧ (∀ n, Host.quiet.answer n = .proceed) ∧
      ∃ w, Route.IsFirst alternation (fun _ _ => false) 0 w ∧
        alternation.registersAfter w = #[some 0, some 1] := by
  have hreads : alternation.program.ReadsNothing := by decide
  have hquiet : ∀ n, Host.quiet.answer n = .proceed := fun _ => rfl
  have hscan := scan_finds_first_route alternation hreads 0 [] (fun _ _ => false) .quiet hquiet
  exact ⟨hreads, hquiet, (hscan.2.2 _).mp (by cbv)⟩

end Search

end RegexMachine
