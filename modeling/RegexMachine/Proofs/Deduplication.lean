import RegexMachine.Proofs.Plain

/-!
# Proofs/Deduplication — the log never changes what a scan finds

A scan refuses a thread where another one was before, at the same position and with the same flag.
Where a plain scan ends at all, it ends with the same match (`best_eq_of_plainScan`): both end with
the first route.

For the plain scan this needs that no walk comes back to a site, as those of a scan with a log never
do. A site that a walk came back to would be run with the same branches again and again. So the
steps are counted that the threads of a site take to come to an end (`Query.Clears`): a walk that is
at a site takes more of them than at any later one (`Trail.Dwindles`).
-/

namespace RegexMachine

/-! ## How many steps the threads at a position take -/

namespace Query

variable {α : Type} [CodeUnit α] (q : Query α) (V : Verdicts)

/-- The branches of a site that stay at its position. -/
def stays (x : Site) : List Site := (q.branches V x).filter (·.position = x.position)

/-- **The threads at these sites come to an end** in so many plain steps: all of them end or wait
for a unit, or one accepts and ends those behind it. -/
inductive Clears : List Site → Nat → Prop
  | nil : Clears [] 0
  | accept {x : Site} {rest : List Site} (hi : q.instruction? x.pc = some .accept) :
    Clears (x :: rest) 1
  | step {x : Site} {rest : List Site} {n : Nat} (hi : q.instruction? x.pc ≠ some .accept)
    (h : Clears (q.stays V x ++ rest) n) : Clears (x :: rest) (n + 1)

variable {q} {V} {x : Site} {front rest : List Site} {n n' : Nat}

theorem stays_of_awaits (h : q.Awaits x.pc) : q.stays V x = [] := by
  refine List.filter_eq_nil_iff.mpr fun y hy => ?_
  have hposition := (h.branch hy).2
  simp [hposition]

theorem stays_of_silent {i : Instruction} (hi : q.instruction? x.pc = some i)
    (hwaits : i.waits = false) : q.stays V x = q.branches V x :=
  List.filter_eq_self.mpr fun _ hy => decide_eq_true (position_branch hi hwaits hy)

namespace Clears

theorem of_step (h : q.Clears V (x :: rest) n) (hi : q.instruction? x.pc ≠ some .accept) :
    ∃ n' < n, q.Clears V (q.stays V x ++ rest) n' := by
  cases h with
  | accept hi' => exact absurd hi' hi
  | step _ h => exact ⟨_, Nat.lt_succ_self _, h⟩

theorem unique (h : q.Clears V rest n) (h' : q.Clears V rest n') : n = n' := by
  induction h generalizing n' with
  | nil =>
    cases h'
    rfl
  | accept hi =>
    cases h' with
    | accept => rfl
    | step hi' => exact absurd hi hi'
  | step hi h ih =>
    cases h' with
    | accept hi' => exact absurd hi' hi
    | step _ h' => rw [ih h']

/-- The threads in front come to an end before the others do. -/
theorem of_append (h : q.Clears V (front ++ rest) n) : ∃ n' ≤ n, q.Clears V front n' := by
  generalize hall : front ++ rest = all at h
  induction h generalizing front with
  | nil =>
    obtain ⟨rfl, -⟩ := List.append_eq_nil_iff.mp hall
    exact ⟨0, Nat.le_refl _, .nil⟩
  | accept hi =>
    cases front with
    | nil => exact ⟨0, Nat.zero_le _, .nil⟩
    | cons y front =>
      obtain ⟨rfl, -⟩ := List.cons.inj hall
      exact ⟨1, Nat.le_refl _, .accept hi⟩
  | step hi h ih =>
    cases front with
    | nil => exact ⟨0, Nat.zero_le _, .nil⟩
    | cons y front =>
      obtain ⟨rfl, rfl⟩ := List.cons.inj hall
      obtain ⟨n', hle, hfront⟩ := ih (List.append_assoc _ _ _)
      exact ⟨n' + 1, Nat.succ_le_succ hle, .step hi hfront⟩

end Clears

end Query

/-! ## Walks that take less and less -/

namespace Trail

/-- Where a trail has come to. -/
def site : Trail → Site
  | [] => ⟨0, true, 0⟩
  | x :: _ => x.2

section Dwindles

variable {α : Type} [CodeUnit α] (q : Query α) (V : Verdicts)

/-- **Walks that take less and less** — where a walk was before, at this position, all walks that go
on from there take less steps together than were needed there. -/
def Dwindles (pending : List Trail) (position : Nat) : Prop :=
  ∀ y v u, u ∈ pending → y :: v <:+ u → y :: v ≠ u → y.2.position = position →
    ∀ n, q.Clears V [y.2] n →
      ∃ n' < n, q.Clears V ((pending.filter (y :: v <:+ ·)).map site) n'

variable {q} {V} {x : Nat × Site} {w : Trail} {rest onward : List Trail} {position : Nat}

/-- **A walk never comes back**, if all walks come to an end: it would take as many steps again. -/
theorem Dwindles.simple (h : Dwindles q V ((x :: w) :: rest) position)
    (hclears : ∃ n, q.Clears V (((x :: w) :: rest).map site) n) (hw : Simple w)
    (hstands : x.2.position = position) : Simple (x :: w) := by
  refine simple_cons.mpr ⟨fun z hz heq => ?_, hw⟩
  obtain ⟨n, hclears⟩ := hclears
  obtain ⟨n, -, hx⟩ : ∃ n' ≤ n, q.Clears V [x.2] n' := hclears.of_append
  obtain ⟨l, v, rfl⟩ := List.append_of_mem hz
  have hsuffix : z :: v <:+ x :: (l ++ z :: v) :=
    (List.suffix_append l _).trans (List.suffix_cons _ _)
  have hne : z :: v ≠ x :: (l ++ z :: v) := fun heq => by
    have hlength := congrArg List.length heq
    simp at hlength
    omega
  obtain ⟨n', hlt, hfilter⟩ := h z v _ List.mem_cons_self hsuffix hne (by rw [heq, hstands]) n
    (by rwa [heq])
  rw [List.filter_cons, if_pos (decide_eq_true hsuffix)] at hfilter
  obtain ⟨n'', hle, hx'⟩ : ∃ n'' ≤ n', q.Clears V [x.2] n'' := hfilter.of_append
  have hsame := hx.unique hx'
  omega

/-- **One step keeps walks dwindling** — the first one leaves its place to those that go on from it
here. -/
theorem Dwindles.step (h : Dwindles q V ((x :: w) :: rest) position)
    (hprecedes : ∀ u ∈ rest, Precedes (x :: w) u)
    (hi : q.instruction? x.2.pc ≠ some .accept) (honward : ∀ u ∈ onward, ∃ z, u = z :: x :: w)
    (hstays : onward.map site = q.stays V x.2) : Dwindles q V (onward ++ rest) position := by
  have hrest : ∀ u ∈ rest, ¬ x :: w <:+ u := fun u hu hsuffix =>
    (hprecedes u hu).not_suffix hsuffix List.suffix_rfl
  intro y v u hu hsuffix hne hposition n hn
  rw [List.filter_append, List.map_append]
  by_cases hxw : y :: v <:+ x :: w
  · have hall : onward.filter (y :: v <:+ ·) = onward := by
      refine List.filter_eq_self.mpr fun u hu => decide_eq_true ?_
      obtain ⟨z, rfl⟩ := honward u hu
      exact hxw.trans (List.suffix_cons z _)
    rw [hall, hstays]
    by_cases heq : y :: v = x :: w
    · obtain ⟨rfl, rfl⟩ := List.cons.inj heq
      have hnone : rest.filter (y :: v <:+ ·) = [] :=
        List.filter_eq_nil_iff.mpr fun u hu => by simpa using hrest u hu
      rw [hnone]
      exact hn.of_step hi
    · obtain ⟨n', hlt, hfilter⟩ := h y v _ List.mem_cons_self hxw heq hposition n hn
      rw [List.filter_cons, if_pos (decide_eq_true hxw)] at hfilter
      obtain ⟨n'', hlt', hclears⟩ := hfilter.of_step hi
      exact ⟨n'', Nat.lt_trans hlt' hlt, hclears⟩
  · -- The walks that go on from `y` are all behind the first one.
    have hu : u ∈ rest := by
      refine (List.mem_append.mp hu).resolve_left fun hu => ?_
      obtain ⟨z, rfl⟩ := honward u hu
      exact (List.suffix_cons_iff.mp hsuffix).elim hne hxw
    have hnone : onward.filter (y :: v <:+ ·) = [] := by
      refine List.filter_eq_nil_iff.mpr fun u' hu' => ?_
      obtain ⟨z, rfl⟩ := honward u' hu'
      rw [decide_eq_true_iff]
      intro hsuffix'
      rcases List.suffix_cons_iff.mp hsuffix' with heq | hsuffix'
      · exact hrest u hu ((List.suffix_cons z _).trans (heq ▸ hsuffix))
      · exact hxw hsuffix'
    obtain ⟨n', hlt, hfilter⟩ := h y v u (List.mem_cons_of_mem _ hu) hsuffix hne hposition n hn
    rw [List.filter_cons, if_neg (by simpa using hxw)] at hfilter
    exact ⟨n', hlt, by rwa [hnone]⟩

end Dwindles

end Trail

/-! ## Charts of plain scans -/

section Charts

variable {α : Type} [CodeUnit α] {q : Query α} {V : Verdicts} {s : Nat} {x : Nat × Site} {w : Trail}

theorem Query.map_site_extend : (q.extend V s (x :: w)).map Trail.site = q.branches V x.2 := by
  refine List.ext_getElem? fun k => ?_
  rw [Query.extend, List.getElem?_map, List.getElem?_mapIdx, Option.map_map]
  exact Option.map_id'

/-- The walks of a chart lead to where the threads stand. -/
theorem Chart.Of.map_site {c : Chart} {m : Machine} (hc : c.Of q V s m) :
    m.pending.map m.siteOf = c.pending.map Trail.site := by
  rw [hc.pending_eq, List.map_map]
  refine List.map_congr_left fun u hu => ?_
  obtain ⟨x, hx, hposition⟩ := (hc.runs u hu).stands
  obtain ⟨w, rfl⟩ := List.head?_eq_some_iff.mp hx
  rw [Function.comp, Machine.siteOf, ← hposition]
  rfl

end Charts

/-! ## Plain scans that end -/

namespace Machine

variable {α : Type} [CodeUnit α] {q : Query α} {V : Verdicts} {s : Nat} {m m₀ last : Machine}

/-- **A plain drain that ends** clears the sites of the threads that can run. -/
theorem PlainDrain.clears (hdrain : PlainDrain q m last) (h : PlainScanning q m₀ m)
    (h₀ : m₀.Sound q) (hreads : ∀ m, PlainScanning q m₀ m → m.Agrees q V) :
    ∃ n, q.Clears V (m.pending.map m.siteOf) n := by
  induction hdrain with
  | idle hidle =>
    rw [isIdle_iff.mp hidle]
    exact ⟨0, .nil⟩
  | @step m last hbusy _ ih =>
    obtain ⟨n, hn⟩ := ih h.step
    rcases ht : m.running with _ | t
    · rcases hactive : m.active with _ | ⟨t, active⟩
      · simp [Machine.isIdle, ht, hactive] at hbusy
      · rw [plainStep_of_none ht hactive] at hn
        rw [pending_of_none ht, hactive]
        exact ⟨n, hn⟩
    · obtain ⟨m', hturn, hposition, heq, hmarks⟩ := h.turn h₀ (hreads m h) ht
      rw [heq] at hn
      change q.Clears V (m'.pending.map m'.siteOf) n at hn
      rw [siteOf_congr hposition] at hn
      rw [pending_of_some ht, List.map_cons]
      rcases hturn with ⟨hmarks', -⟩ | ⟨-, hawaits, hpending, -⟩ | ⟨-, hi, -⟩ |
        ⟨-, hi, hwaits, haccept, hpending, -⟩
      · exact absurd hmarks' (hmarks _)
      · refine ⟨n + 1, .step (fun hi => ?_) ?_⟩
        · exact absurd (hawaits.waits hi) (by simp [Instruction.waits])
        · rwa [Query.stays_of_awaits hawaits, List.nil_append, ← hpending]
      · exact ⟨1, .accept hi⟩
      · refine ⟨n + 1, .step (fun hi' => haccept (Option.some.inj (hi.symm.trans hi'))) ?_⟩
        rwa [Query.stays_of_silent (x := m.siteOf t) hi hwaits, ← map_siteOf_successors
          fun y => Query.position_branch (x := m.siteOf t) hi hwaits, ← List.map_append, ← hpending]

section Definitions

variable (q : Query α) (V : Verdicts) (s : Nat)

/-- A machine of a plain scan has a chart too, with a log of its own, and its walks take less and
less. -/
def IsPlainCharted (m : Machine) : Prop :=
  ∃ (log : VisitLog) (c : Chart), log.last.size = 2 * q.program.size ∧ log.UpTo m.position ∧
    c.Follows q V s { m with visits := log } ∧ Trail.Dwindles q V c.pending m.position

end Definitions

/-- **A plain step keeps the chart**, if the threads that can run come to an end. -/
theorem IsPlainCharted.step (hcharted : m.IsPlainCharted q V s) (h : PlainScanning q m₀ m)
    (h₀ : m₀.Sound q) (hreads : m.Agrees q V)
    (hclears : ∃ n, q.Clears V (m.pending.map m.siteOf) n) :
    (m.plainStep q).IsPlainCharted q V s := by
  obtain ⟨log, c, hsize, hmarks, hfollows, hdwindles⟩ := hcharted
  rcases ht : m.running with _ | t
  · rcases hactive : m.active with _ | ⟨t, active⟩
    · rw [plainStep_of_isIdle (by simp [isIdle, ht, hactive])]
      exact ⟨log, c, hsize, hmarks, hfollows, hdwindles⟩
    · have hpending : m.pending = t :: active := by rw [pending_of_none ht, hactive]
      rw [plainStep_of_none ht hactive]
      exact ⟨log, c, hsize, hmarks, hfollows.congr rfl hpending.symm rfl rfl rfl, hdwindles⟩
  · obtain ⟨hc, htracks⟩ := hfollows
    obtain ⟨x, w, rest, hpending, rfl, hactive, hsite⟩ := hc.running ht
    obtain ⟨m', hturn, hposition, heq, hunmarked⟩ := h.turn h₀ hreads ht
    have hlt : x.2.pc < q.program.size := ((h.sound h₀).1.fits_running ht).counter_lt
    have hstands : x.2.position = m.position := hc.stands hpending
    have hprecedes : ∀ u ∈ rest, Trail.Precedes (x :: w) u := fun u hu =>
      hc.precedes hpending (List.mem_append_left _ hu)
    have hsites : m.pending.map m.siteOf = c.pending.map Trail.site := hc.map_site
    have hw := (hc.runs (x :: w) (by rw [hpending]; exact List.mem_cons_self)).simple
    rw [hsites, hpending] at hclears
    rw [hpending] at hdwindles
    obtain ⟨c', hfollows', hc'⟩ := hc.turn htracks hpending
      (hdwindles.simple hclears hw hstands) hsize hlt hactive hsite (hunmarked _) hturn hposition
    rw [heq]
    refine ⟨log.record x.2.pc x.2.consumed x.2.position, c', by simpa using hsize, ?_, hfollows',
      ?_⟩
    · change (log.record x.2.pc x.2.consumed x.2.position).UpTo m'.position
      rw [hposition, hstands]
      exact hmarks.record hsize hlt
    · change Trail.Dwindles q V c'.pending m'.position
      rw [hposition]
      rcases hc' with ⟨-, hpending'⟩ | ⟨hawaits, hpending'⟩ |
        ⟨⟨i, hi, hwaits, haccept⟩, hpending'⟩ <;> rw [hpending']
      · exact fun y v u hu => absurd hu List.not_mem_nil
      · have hi : q.instruction? x.2.pc ≠ some .accept := fun hi =>
          absurd (hawaits.waits hi) (by simp [Instruction.waits])
        exact hdwindles.step hprecedes hi (List.forall_mem_nil _)
          (Query.stays_of_awaits hawaits).symm
      · refine hdwindles.step hprecedes
          (fun hi' => haccept (Option.some.inj (hi.symm.trans hi'))) (fun u hu => ?_) ?_
        · obtain ⟨z, rfl, -⟩ := Query.mem_extend.mp hu
          exact ⟨z, rfl⟩
        · rw [Query.map_site_extend, Query.stays_of_silent hi hwaits]

/-- **At the next position no walk has been anywhere yet.** -/
theorem IsPlainCharted.read (hcharted : m.IsPlainCharted q V s) (hsound : m.Sound q)
    (hidle : m.isIdle = true) (hlt : m.position < q.input.size) :
    (m.read q hlt).IsPlainCharted q V s := by
  obtain ⟨log, c, hsize, hmarks, ⟨hc, htracks⟩, -⟩ := hcharted
  have hfollows := hc.read htracks { hsound with size_visits := hsize } hidle hmarks hlt
  have hposition : (m.read q hlt).position = m.position + 1 := position_feed _ _ _
  refine ⟨log, _, hsize, ?_, hfollows.congr ?_ ?_ ?_ ?_ ?_, fun y v u hu hsuffix hne hy => ?_⟩
  · rw [hposition]
    exact hmarks.mono (Nat.le_succ _)
  · simp [Machine.read, Machine.advance]
  · simp [Machine.read, Machine.advance, pending]
  · simp [Machine.read, Machine.advance]
  · simp [Machine.read, Machine.advance]
  · simp [Machine.read, Machine.advance]
  · obtain ⟨w, hw, hu⟩ := List.mem_flatMap.mp hu
    obtain ⟨z, rfl, -⟩ := Query.mem_extend.mp hu
    have hyw := (List.suffix_cons_iff.mp hsuffix).resolve_left hne
    have hle : y.2.position ≤ m.position :=
      (hc.waits w (List.mem_reverse.mp hw)).position_le (hyw.subset List.mem_cons_self)
    omega

theorem Sound.isPlainCharted_beginScan (h : m.Sound q) :
    (m.beginScan q).IsPlainCharted q V m.position := by
  have hfollows := h.follows_beginScan (V := V)
  obtain ⟨pool, -, heq⟩ := h.beginScan_eq
  refine ⟨(m.beginScan q).visits, _, h.beginScan.size_visits, ?_, hfollows,
    fun y v u hu hsuffix hne => ?_⟩
  · rw [heq]
    exact VisitLog.upTo_fresh _ _
  · obtain ⟨z, rfl, -⟩ := Query.mem_extend.mp hu
    simpa using (List.suffix_cons_iff.mp hsuffix).resolve_left hne

/-! ## Whole scans -/

variable (h₀ : m₀.Sound q) (hreads : ∀ m, PlainScanning q m₀ m → m.Agrees q V)

include h₀ hreads

theorem PlainDrain.isPlainCharted (hdrain : PlainDrain q m last) (h : PlainScanning q m₀ m)
    (hcharted : m.IsPlainCharted q V s) : last.IsPlainCharted q V s := by
  induction hdrain with
  | idle => exact hcharted
  | @step m last hbusy hrest ih =>
    exact ih h.step (hcharted.step h h₀ (hreads m h)
      ((PlainDrain.step hbusy hrest).clears h h₀ hreads))

/-- **A plain scan that ends** has a chart then, and has no reason to read on. -/
theorem PlainRun.isPlainCharted (hrun : PlainRun q m last) (h : PlainScanning q m₀ m)
    (hidle : m.isIdle = true) (hcharted : m.IsPlainCharted q V s) :
    last.IsPlainCharted q V s ∧ last.isIdle = true ∧
      (last.isSettled = true ∨ q.input.size ≤ last.position) := by
  induction hrun with
  | settled hsettled => exact ⟨hcharted, hidle, .inl hsettled⟩
  | ends hunsettled hend => exact ⟨hcharted, hidle, .inr (Nat.not_lt.mp hend)⟩
  | read hunsettled hlt hdrain _ ih =>
    have hread := h.read hidle hunsettled hlt
    exact ih (hread.drain hdrain) hdrain.isIdle
      (hdrain.isPlainCharted h₀ hreads hread (hcharted.read (h.sound h₀).1 hidle hlt))

/-- **A plain scan that ends, ends with the first route** as its best match. -/
theorem PlainScan.best_iff (hscan : PlainScan q m₀ last) :
    (last.best = none ↔ ∀ w, ¬ Route q V m₀.position w) ∧
      ∀ registers, last.best = some registers ↔
        ∃ w, Route.IsFirst q V m₀.position w ∧ q.registersAfter w = registers := by
  obtain ⟨first, hdrain, hrun⟩ := hscan
  have hcharted := hdrain.isPlainCharted h₀ hreads .begin h₀.isPlainCharted_beginScan
  obtain ⟨⟨log, c, -, -, hfollows, -⟩, hidle, hend⟩ := hrun.isPlainCharted h₀ hreads
    (PlainScanning.begin.drain hdrain) hdrain.isIdle hcharted
  exact IsCharted.best_iff (m := { last with visits := log }) ⟨c, hfollows⟩ h₀.position_le hidle
    hend

omit hreads in
/-- What either scan reads of lookbehinds agrees with the same verdicts. -/
theorem Sound.exists_agrees (hprogram : q.program.ReadsNothing ∨ q.program.WellLaidOut) :
    ∃ V, (∀ m, Scanning q m₀ m → m.Agrees q V) ∧ ∀ m, PlainScanning q m₀ m → m.Agrees q V := by
  rcases hprogram with hnothing | hlayout
  · exact ⟨fun _ _ => false, fun m _ => hnothing.agrees _ m, fun m _ => hnothing.agrees _ m⟩
  · obtain ⟨V, hV⟩ := Query.exists_isVerdict hlayout m₀.position
    exact ⟨V, fun m hm => (hm.watches h₀ hlayout hV).agrees hlayout hV (hm.sound h₀),
      fun m hm => (hm.watches h₀ hlayout hV).agrees hlayout hV (hm.sound h₀).1⟩

end Machine

namespace Search

variable {α : Type} [CodeUnit α]

/-- **The log never changes what a scan finds** — in a program that reads no lookbehinds or is laid
out well, whatever scan of whatever search: if the plain scan from there ends, the scan ends with
the same match, in all registers, and with none if that ends with none. It ends unless the host
ends it. -/
theorem best_eq_of_plainScan (q : Query α)
    (hprogram : q.program.ReadsNothing ∨ q.program.WellLaidOut) (position : Nat)
    (calls : List Call) (last : Machine)
    (hplain : Machine.PlainScan q ((start q position).after q calls).machine last) (host : Host) :
    let m := ((start q position).after q calls).machine
    ((∀ n, host.answer n = .proceed) → (m.scan q host).1 = none) ∧
      ((m.scan q host).1 = none → (m.scan q host).2.1.best = last.best) := by
  intro m
  have hsound : m.Sound q := sound_after (sound_start q position) calls
  obtain ⟨V, hscan, hplainScan⟩ := hsound.exists_agrees hprogram
  obtain ⟨hnone, hsome⟩ := hplain.best_iff hsound hplainScan
  refine ⟨fun hquiet => Machine.error_scan_of_quiet m hquiet, fun hended => ?_⟩
  obtain ⟨hnone', hsome'⟩ := hsound.best_iff_of_scan hscan hended
  rcases hbest : last.best with _ | registers
  · exact hnone'.mpr (hnone.mp hbest)
  · exact (hsome' registers).mpr ((hsome registers).mp hbest)

/-- The expression `(?:a|a)b`, on the input `ab`. -/
def twins : Query UInt8 where
  program :=
    ⟨#[.setRegister 0, .fork 4, .consume 0x61 0x61, .jump 5, .consume 0x61 0x61,
      .consume 0x62 0x62, .setRegister 1, .accept], by decide⟩
  registerCount := 2
  enough := by decide
  input := #[0x61, 0x62]
  pollInterval := defaultPollInterval

/-- Without the log two threads go on behind the `a` of `(?:a|a)b`, and the scan takes a step
more. -/
theorem best_of_twins :
    twins.program.ReadsNothing ∧
      ∃ last, Machine.PlainScan twins ((start twins 0).after twins []).machine last ∧
        ((((start twins 0).after twins []).machine.scan twins .quiet).1 = none) ∧
        (((start twins 0).after twins []).machine.scan twins .quiet).2.1.best = last.best ∧
        last.best = some #[some 0, some 2] ∧
        (((start twins 0).after twins []).machine.scan twins .quiet).2.1.stats.steps <
          last.stats.steps := by
  have hreads : twins.program.ReadsNothing := by decide
  -- Six steps at the start of `ab`, five behind the `a` and four at the end.
  obtain ⟨last, hplain, hbest, hsteps⟩ : ∃ last : Machine,
      Machine.PlainScan twins ((start twins 0).after twins []).machine last ∧
        last.best = some #[some 0, some 2] ∧ last.stats.steps = 9 :=
    ⟨_, ⟨_, .iterate 6 (by cbv), .read (by cbv) (by cbv) (.iterate 5 (by cbv))
      (.read (by cbv) (by cbv) (.iterate 4 (by cbv)) (.settled (by cbv)))⟩, by cbv, by cbv⟩
  obtain ⟨hends, hsame⟩ := best_eq_of_plainScan twins (.inl hreads) 0 [] last hplain .quiet
  have hnone := hends fun _ => rfl
  refine ⟨hreads, last, hplain, hnone, hsame hnone, hbest, ?_⟩
  rw [hsteps]
  cbv

end Search

end RegexMachine
