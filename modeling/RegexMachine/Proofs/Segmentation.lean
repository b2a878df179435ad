import RegexMachine.Proofs.Block
import RegexMachine.Regex

/-!
# Proofs/Segmentation — the matches of a block, from left to right

A block cuts an input into segments (`Block.Segments`): each begins at the first place, from where
the one before has ended, from which there is a way through the block at all, and ends where the
first of the ways from there does; behind an empty segment the search goes on one unit further.

Asked for one match after the other, the program that looks for the block gives these segments and
no others, and never fails (`findAll_segments`).
-/

namespace RegexMachine

/-! ## Ways and routes -/

section Ways

variable {α : Type} [CodeUnit α] {q : Query α} {V : Verdicts} {s : Nat} {w : Trail}
  {x : Nat × Site} {y : Site}

/-- A walk begins at one of the entries. -/
theorem Walk.exists_reaches (h : Walk q V s (x :: w)) :
    ∃ y ∈ q.onward V s [], q.Reaches V y x.2 := by
  induction w generalizing x with
  | nil => exact ⟨x.2, List.mem_of_getElem? h.mem_onward, .refl⟩
  | cons v w ih =>
    obtain ⟨y, hy, hreaches⟩ := ih h.tail
    exact ⟨y, hy, hreaches.tail h.mem_branches⟩

/-- **Where there is a way, there is one that comes nowhere twice.** -/
theorem Walk.exists_simple (hw : Walk q V s (x :: w)) (hsimple : Trail.Simple (x :: w))
    (hreaches : q.Reaches V x.2 y) :
    ∃ z v, Walk q V s (z :: v) ∧ Trail.Simple (z :: v) ∧ z.2 = y := by
  induction hreaches with
  | refl => exact ⟨x, w, hw, hsimple, rfl⟩
  | @tail y y' _ hbranch ih =>
    obtain ⟨z, v, hv, hsimple, rfl⟩ := ih
    by_cases hback : ∃ z' ∈ z :: v, z'.2 = y'
    · obtain ⟨z', hz', heq⟩ := hback
      obtain ⟨l, v', hsplit⟩ := List.append_of_mem hz'
      have hsuffix : z' :: v' <:+ z :: v := ⟨l, hsplit.symm⟩
      exact ⟨z', v', hv.of_suffix hsuffix, hsimple.of_suffix hsuffix, heq⟩
    · push Not at hback
      obtain ⟨number, hnumber⟩ := List.getElem?_of_mem hbranch
      exact ⟨(number, y'), z :: v, .cons hv hnumber, Trail.simple_cons.mpr ⟨hback, hsimple⟩, rfl⟩

end Ways

/-! ## Segmentations -/

namespace Block

section Definitions

variable {α : Type} [CodeUnit α] (b : Block) (input : Array α)

/-- **There is a way through the block** from a position to another one. It may come to the same
place more than once. -/
def Traverses (start stop : Nat) : Prop :=
  ∃ consumed, (b.query input).Reaches (fun _ _ => false) ⟨0, true, start⟩
    ⟨b.code.length, consumed, stop⟩

/-- A position of the input from which there is a way through the block. -/
def BeginsAt (start : Nat) : Prop := start ≤ input.size ∧ ∃ stop, b.Traverses input start stop

/-- Where the first of the ways through the block ends, of those that come nowhere twice. -/
def FirstStop (start stop : Nat) : Prop :=
  ∃ x w, Route.IsFirst (b.query input) (fun _ _ => false) start (x :: w) ∧ x.2.position = stop

/-- **The segments of an input**, from a position on. -/
inductive Segments : Nat → List Span → Prop
  | none {i : Nat} (h : ∀ start, i ≤ start → ¬ b.BeginsAt input start) : Segments i []
  | nonempty {i start stop : Nat} {rest : List Span}
    (hstart : IsLeast {start | i ≤ start ∧ b.BeginsAt input start} start)
    (hstop : b.FirstStop input start stop) (hlt : start < stop) (hrest : Segments stop rest) :
    Segments i (⟨start, stop⟩ :: rest)
  | emptyAtEnd {i start : Nat}
    (hstart : IsLeast {start | i ≤ start ∧ b.BeginsAt input start} start)
    (hstop : b.FirstStop input start start) (hend : start = input.size) :
    Segments i [⟨start, start⟩]
  | empty {i start : Nat} {rest : List Span}
    (hstart : IsLeast {start | i ≤ start ∧ b.BeginsAt input start} start)
    (hstop : b.FirstStop input start start) (hmore : start ≠ input.size)
    (hrest : Segments (start + 1) rest) : Segments i (⟨start, start⟩ :: rest)

end Definitions

/-- The segments of a subject of either width. -/
def SegmentsOf (b : Block) : Subject → Nat → List Span → Prop
  | .oneByte units => b.Segments units
  | .twoByte units => b.Segments units

section Segments

variable {α : Type} [CodeUnit α] {b : Block} {input : Array α} {i start stop stop' : Nat}
  {spans spans' : List Span}

theorem FirstStop.unique (h : b.FirstStop input start stop) (h' : b.FirstStop input start stop') :
    stop = stop' := by
  obtain ⟨x, w, hfirst, rfl⟩ := h
  obtain ⟨x', w', hfirst', rfl⟩ := h'
  obtain ⟨rfl, -⟩ := List.cons.inj (hfirst'.unique hfirst)
  rfl

/-- **How segments begin** where there is a way through the block. -/
theorem Segments.eq_cons (h : b.Segments input i spans)
    (hstart : IsLeast {start | i ≤ start ∧ b.BeginsAt input start} start)
    (hstop : b.FirstStop input start stop) :
    ∃ rest, spans = ⟨start, stop⟩ :: rest ∧ (start < stop → b.Segments input stop rest) ∧
      (start = stop → start = input.size → rest = []) ∧
      (start = stop → start ≠ input.size → b.Segments input (start + 1) rest) := by
  cases h with
  | none h => exact absurd hstart.1.2 (h _ hstart.1.1)
  | nonempty hstart' hstop' hlt hrest =>
    obtain rfl := hstart'.unique hstart
    obtain rfl := hstop'.unique hstop
    exact ⟨_, rfl, fun _ => hrest, fun heq => absurd heq hlt.ne, fun heq => absurd heq hlt.ne⟩
  | emptyAtEnd hstart' hstop' hend =>
    obtain rfl := hstart'.unique hstart
    obtain rfl := hstop'.unique hstop
    exact ⟨[], rfl, fun hlt => absurd hlt (lt_irrefl _), fun _ _ => rfl,
      fun _ hmore => absurd hend hmore⟩
  | empty hstart' hstop' hmore hrest =>
    obtain rfl := hstart'.unique hstart
    obtain rfl := hstop'.unique hstop
    exact ⟨_, rfl, fun hlt => absurd hlt (lt_irrefl _), fun _ hend => absurd hend hmore,
      fun _ _ => hrest⟩

/-- **An input has but one segmentation.** -/
theorem Segments.unique (h : b.Segments input i spans) (h' : b.Segments input i spans') :
    spans' = spans := by
  induction h generalizing spans' with
  | none h =>
    cases h' with
    | none => rfl
    | nonempty hstart | emptyAtEnd hstart | empty hstart => exact absurd hstart.1.2 (h _ hstart.1.1)
  | nonempty hstart hstop hlt hrest ih =>
    obtain ⟨rest', rfl, hrest', -⟩ := h'.eq_cons hstart hstop
    rw [ih (hrest' hlt)]
  | emptyAtEnd hstart hstop hend =>
    obtain ⟨rest', rfl, -, hends, -⟩ := h'.eq_cons hstart hstop
    rw [hends rfl hend]
  | empty hstart hstop hmore hrest ih =>
    obtain ⟨rest', rfl, -, -, hrest'⟩ := h'.eq_cons hstart hstop
    rw [ih (hrest' rfl hmore)]

/-- Where there is a way through the block, there is a route. -/
theorem beginsAt_iff : b.BeginsAt input start ↔
    start ≤ input.size ∧ ∃ w, Route (b.query input) (fun _ _ => false) start w := by
  refine and_congr_right fun hstart => ⟨?_, ?_⟩
  · rintro ⟨stop, consumed, hreaches⟩
    have hbegin : Walk (b.query input) (fun _ _ => false) start [(0, ⟨0, true, start⟩)] :=
      .cons .nil (by rw [onward_query_nil]; rfl)
    obtain ⟨z, v, hv, hsimple, hz⟩ :=
      hbegin.exists_simple (List.nodup_singleton _) hreaches
    exact ⟨z :: v, hv, hsimple, z, rfl, accepts_iff.mpr (congrArg Site.pc hz)⟩
  · rintro ⟨w, hw⟩
    obtain ⟨x, w, rfl, -⟩ := hw.accepts.exists_cons
    obtain ⟨y, hy, hreaches⟩ := hw.walk.exists_reaches
    rw [onward_query_nil, List.mem_singleton] at hy
    refine ⟨x.2.position, x.2.consumed, ?_⟩
    rw [← hy, ← pc_of_route hw]
    exact hreaches

/-- Where a way through the block begins, one of the ways is the first. -/
theorem exists_firstStop (h : b.BeginsAt input start) :
    ∃ stop, b.FirstStop input start stop ∧ start ≤ stop ∧ stop ≤ input.size := by
  obtain ⟨hstart, hroute⟩ := beginsAt_iff.mp h
  obtain ⟨w, hfirst⟩ := Route.exists_isFirst hstart hroute
  obtain ⟨x, w, rfl, -⟩ := hfirst.route.accepts.exists_cons
  have hsite := hfirst.route.walk.mem_sites hstart List.mem_cons_self
  exact ⟨x.2.position, ⟨x, w, hfirst, rfl⟩, hfirst.route.walk.start_le List.mem_cons_self,
    (Query.mem_sites.mp hsite).2⟩

end Segments

/-! ## One scan for a block -/

section Scan

variable {α : Type} [CodeUnit α] {b : Block} {q : Query α} {m : Machine} {start stop : Nat}
  (hq : q.program = b.unanchored) (h : m.Sound q)

include hq h

/-- What a scan finds are ways through the block. No lookbehind is read, so any verdicts do. -/
theorem best_scan_iff :
    ((m.scan q .quiet).2.1.best = none ↔ ∀ w, ¬ Route q (fun _ _ => false) m.position w) ∧
      ∀ registers, (m.scan q .quiet).2.1.best = some registers ↔
        ∃ w, Route.IsFirst q (fun _ _ => false) m.position w ∧ q.registersAfter w = registers :=
  h.best_scan_iff (fun m' _ => (hq ▸ readsNothing_unanchored).agrees _ m') fun _ => rfl

/-- **Where no way through the block begins, a scan finds nothing.** -/
theorem best_scan_of_none (hnone : ∀ start, m.position ≤ start → ¬ b.BeginsAt q.input start) :
    (m.scan q .quiet).2.1.best = none := by
  refine (best_scan_iff hq h).1.mpr fun r hr => ?_
  obtain ⟨k, w, hk, hw, -⟩ := exists_eq_ending hq h.position_le hr
  exact hnone _ (Nat.le_add_right _ k) (beginsAt_iff.mpr ⟨hk, w, hw⟩)

/-- **A scan finds the first place where a way through the block begins**, and the first way from
there. -/
theorem best_scan_of_isLeast
    (hstart : IsLeast {start | m.position ≤ start ∧ b.BeginsAt q.input start} start)
    (hstop : b.FirstStop q.input start stop) :
    ∃ registers, (m.scan q .quiet).2.1.best = some registers ∧
      registers.span? = some ⟨start, stop⟩ := by
  obtain ⟨x, w, hfirst, rfl⟩ := hstop
  obtain ⟨k, rfl⟩ := Nat.exists_eq_add_of_le hstart.1.1
  have hk : m.position + k ≤ q.input.size := hstart.1.2.1
  have hleast : IsLeast {k | m.position + k ≤ q.input.size ∧
      ∃ w, Route (b.query q.input) (fun _ _ => false) (m.position + k) w} k :=
    ⟨⟨hk, _, hfirst.route⟩, fun k' hk' => Nat.le_of_add_le_add_left
      (hstart.2 ⟨Nat.le_add_right _ k', beginsAt_iff.mpr hk'⟩)⟩
  exact ⟨_, ((best_scan_iff hq h).2 _).mpr
    ⟨_, isFirst_ending hq h.position_le hleast hfirst, rfl⟩,
    span?_registersAfter_ending hq hk hfirst.route⟩

end Scan

end Block

/-! ## One span after the other -/

namespace Search

variable {α : Type} [CodeUnit α] {q : Query α} {s : Search} {registers : Registers} {span : Span}
  {spans : List Span}

/-- Asks for the span of the next match. -/
def nextSpan? (q : Query α) (s : Search) : Option (Except SearchError Span) × Search :=
  let (outcome, s, _) := s.next q .quiet
  (Cursor.item? (outcome.map (·.bind Registers.span?)), s)

/-- **A search gives these spans, and then none**, however often it is asked. -/
def Yields (q : Query α) (s : Search) (spans : List Span) : Prop :=
  ∀ times, (((fun s => (s.nextSpan? q).2)^[times] s).nextSpan? q).1 = spans[times]?.map .ok

theorem nextSpan?_of_finished (h : s.finished = true) : s.nextSpan? q = (none, s) := by
  rw [nextSpan?, next_of_finished h]
  rfl

theorem sound_nextSpan? (h : s.machine.Sound q) : (s.nextSpan? q).2.machine.Sound q :=
  sound_next h .quiet

theorem exists_nextSpan?_eq_none (hgoing : s.finished = false)
    (hbest : (s.machine.scan q .quiet).2.1.best = none) :
    ∃ m, s.nextSpan? q = (none, { machine := m, finished := true }) := by
  refine ⟨(s.machine.scan q .quiet).2.1, ?_⟩
  rw [nextSpan?, next_of_quiet hgoing fun _ => rfl, conclude_of_none hbest]
  rfl

theorem exists_nextSpan?_eq_some (hgoing : s.finished = false)
    (hbest : (s.machine.scan q .quiet).2.1.best = some registers)
    (hspan : registers.span? = some span) (hstop : span.stop ≤ q.input.size) :
    ∃ m, s.nextSpan? q = (some (.ok span), passMatch q m span) := by
  have hwithin : registers.span?.filter (·.stop ≤ q.input.size) = some span := by
    simp [hspan, hstop]
  refine ⟨(s.machine.scan q .quiet).2.1, ?_⟩
  rw [nextSpan?, next_of_quiet hgoing fun _ => rfl, conclude_of_span hbest hwithin]
  simp [Except.map, hspan, Cursor.item?]

theorem yields_nil_of_finished (h : s.finished = true) : s.Yields q [] := by
  intro times
  have hnext : s.nextSpan? q = (none, s) := nextSpan?_of_finished h
  rw [Function.iterate_fixed (by rw [hnext]), hnext]
  rfl

theorem yields_nil (hnone : (s.nextSpan? q).1 = none) (hends : (s.nextSpan? q).2.finished = true) :
    s.Yields q [] := by
  rintro (_ | times)
  · exact hnone
  · exact yields_nil_of_finished hends times

theorem Yields.cons (hspan : (s.nextSpan? q).1 = some (.ok span))
    (hrest : (s.nextSpan? q).2.Yields q spans) : s.Yields q (span :: spans) := by
  rintro (_ | times)
  · exact hspan
  · exact hrest times

/-- **A search for a block gives the segments of the input.** -/
theorem exists_segments {b : Block} (hq : q.program = b.unanchored) (h : s.machine.Sound q)
    (hgoing : s.finished = false) :
    ∃ spans, b.Segments q.input s.position spans ∧ s.Yields q spans := by
  classical
  -- By induction on what is left of the input: every segment is passed by a unit or more.
  induction hn : q.input.size - s.position using Nat.strongRecOn generalizing s with
  | _ n ih =>
    by_cases hbegins : ∃ start, s.position ≤ start ∧ b.BeginsAt q.input start
    · have hstart : IsLeast {start | s.position ≤ start ∧ b.BeginsAt q.input start}
          (Nat.find hbegins) := Nat.isLeast_find hbegins
      generalize Nat.find hbegins = start at hstart
      obtain ⟨stop, hstop, hle, hsize⟩ := Block.exists_firstStop hstart.1.2
      have hposition : s.position ≤ start := hstart.1.1
      obtain ⟨registers, hbest, hspan⟩ := Block.best_scan_of_isLeast hq h hstart hstop
      obtain ⟨m, hnext⟩ := exists_nextSpan?_eq_some hgoing hbest hspan hsize
      have hfirst : (s.nextSpan? q).1 = some (.ok ⟨start, stop⟩) := by rw [hnext]
      have hsound := sound_nextSpan? h
      -- The search goes on behind the segment, a unit further if that is empty, or not at all.
      rcases Nat.lt_or_eq_of_le hle with hlt | rfl
      · have hbehind : (s.nextSpan? q).2.position = stop ∧ (s.nextSpan? q).2.finished = false := by
          simp [hnext, passMatch, position, Span.isEmpty, hlt.ne]
        obtain ⟨spans, hspans, hyields⟩ := ih _ (by omega) hsound hbehind.2 rfl
        rw [hbehind.1] at hspans
        exact ⟨_, .nonempty hstart hstop hlt hspans, .cons hfirst hyields⟩
      · by_cases hend : start = q.input.size
        · have hends : (s.nextSpan? q).2.finished = true := by
            simp [hnext, passMatch, Span.isEmpty, hend]
          exact ⟨_, .emptyAtEnd hstart hstop hend, .cons hfirst (yields_nil_of_finished hends)⟩
        · have hbehind : (s.nextSpan? q).2.position = start + 1 ∧
              (s.nextSpan? q).2.finished = false := by
            simp [hnext, passMatch, position, Span.isEmpty, hend]
          obtain ⟨spans, hspans, hyields⟩ := ih _ (by omega) hsound hbehind.2 rfl
          rw [hbehind.1] at hspans
          exact ⟨_, .empty hstart hstop hend hspans, .cons hfirst hyields⟩
    · push Not at hbegins
      have hbest := Block.best_scan_of_none hq h hbegins
      obtain ⟨m, hnext⟩ := exists_nextSpan?_eq_none hgoing hbest
      exact ⟨[], .none hbegins, yields_nil (by rw [hnext]) (by rw [hnext])⟩

end Search

/-! ## The cursor of a regex -/

namespace Cursor

/-- What a cursor gives when it is asked for a span once more, after it was asked so many times. -/
def spanAfter (c : Cursor) (times : Nat) : Option (Except SearchError Span) :=
  ((fun c => c.nextSpan?.2)^[times] c).nextSpan?.1

/-- A cursor gives what its search gives. -/
theorem spanAfter_eq {α : Type} [CodeUnit α] {q : Query α} {c : Cursor} {spans : List Span}
    (hsearch : ∀ search, { c with search }.nextSpan? =
      ((search.nextSpan? q).1, { c with search := (search.nextSpan? q).2 }))
    (hyields : c.search.Yields q spans) (times : Nat) :
    c.spanAfter times = spans[times]?.map .ok := by
  have hsemiconj : Function.Semiconj (fun search => { c with search })
      (fun search => (search.nextSpan? q).2) (fun c : Cursor => c.nextSpan?.2) :=
    fun search => congrArg Prod.snd (hsearch search).symm
  rw [spanAfter, ← hyields times, ← hsemiconj.iterate_right times c.search, hsearch]

end Cursor

namespace Regex

/-- **A regex that looks for a block finds the segments of the input**, whatever the block and
wherever the search begins: the spans of its matches are the segments from there, the first one
first, and no item is an error. The segments are determined by the input. -/
theorem findAll_segments (b : Block) (re : Regex) (hprogram : re.program = b.unanchored)
    (input : Input) (hvalid : input.isValid = true) :
    ∃ spans, b.SegmentsOf input.subject input.start spans ∧
      (∀ spans', b.SegmentsOf input.subject input.start spans' → spans' = spans) ∧
      ∀ times, (re.findAll input).spanAfter times = spans[times]?.map .ok := by
  obtain ⟨subject, start⟩ := input
  have hstart : start ≤ subject.size := of_decide_eq_true hvalid
  cases subject with
  | oneByte units | twoByte units =>
    obtain ⟨spans, hspans, hyields⟩ := Search.exists_segments (q := re.query units) hprogram
      (Search.sound_start _ start) (decide_eq_false (Nat.not_lt.mpr hstart))
    have hposition : (Search.start (re.query units) start).position = start :=
      Nat.min_eq_left hstart
    rw [hposition] at hspans
    exact ⟨spans, hspans, fun spans' => hspans.unique, Cursor.spanAfter_eq (fun _ => rfl) hyields⟩

/-- The expression `a*`. -/
def star : Block := ⟨[.fork 3, .consume 0x61 0x61, .jump 0], by decide⟩

/-- In `baa`, an empty segment stands before the `b`, and another one at the end. -/
theorem findAll_segments_star :
    let re : Regex := ⟨star.unanchored, 2, by decide, defaultPollInterval⟩
    let input : Input := { subject := .oneByte #[0x62, 0x61, 0x61] }
    let spans : List Span := [⟨0, 0⟩, ⟨1, 3⟩, ⟨3, 3⟩]
    input.isValid = true ∧ star.SegmentsOf input.subject 0 spans ∧
      ∀ times, (re.findAll input).spanAfter times = spans[times]?.map .ok := by
  intro re input spans
  obtain ⟨spans', hsegments, -, hyields⟩ := findAll_segments star re rfl input rfl
  have hitems : ∀ times < 4, (spans'[times]?.map .ok : Option (Except SearchError Span)) =
      spans[times]?.map .ok := by
    intro times htimes
    rw [← hyields times]
    interval_cases times <;> cbv
  have heq : spans' = spans := by
    have hlength : spans'.length ≤ 3 := by simpa [spans] using hitems 3 (by decide)
    refine List.ext_getElem? fun k => ?_
    rcases Nat.lt_or_ge k 4 with hlt | hge
    · exact Option.map_injective (fun _ _ => Except.ok.inj) (hitems k hlt)
    · rw [List.getElem?_eq_none (by omega), List.getElem?_eq_none (by simpa [spans] using by omega)]
  exact ⟨rfl, heq ▸ hsegments, heq ▸ hyields⟩

end Regex

end RegexMachine
