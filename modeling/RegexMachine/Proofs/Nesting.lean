import Mathlib
import RegexMachine.Proofs.Ancestry

/-!
# Proofs/Nesting — one flag is enough for loops within loops

A thread has one flag for all loops it is in, and a `beginLoop` clears it, that of an inner loop as
well as that of an outer one. Yet an `endLoop` lets a thread through just if the thread has consumed
a unit since the `beginLoop` of the same loop, as long as loops are properly nested
(`Program.NestsLoops`).

The **course** of a thread is the way it has come, through its ancestors, from an entry of the
program. Machine and courses are moved along together (`Machine.Retraced`); what the machine does
does not depend on them. Along a course the flag tells this of the loops the thread is in: if it is
set, each of them was begun at an earlier position, and if it is not, the innermost one was begun
here (`Course.Follows.begun`). An inner loop does no harm, since it is left with the flag set only.
-/

namespace RegexMachine

/-! ## Loops -/

namespace Program

/-- Whether an instruction belongs to the loop with its `beginLoop` at `head`. -/
def InLoop (close : Nat → Nat) (head pc : Nat) : Prop := head ≤ pc ∧ pc ≤ close head

instance (close : Nat → Nat) (head pc : Nat) : Decidable (InLoop close head pc) :=
  inferInstanceAs (Decidable (_ ∧ _))

/-- Whether threads can come to an instruction. -/
def IsLive (p : Program) (pc : Nat) : Prop := ∃ entry ∈ 0 :: p.lookbehindEntries, p.Leads entry pc

/-- **Loops are properly nested** — every `beginLoop` has an `endLoop` further on that closes it.
Two loops are apart, or one is inside the other. A loop is entered at its `beginLoop` only, and left
from its `endLoop` only. -/
structure NestsLoops (p : Program) (close : Nat → Nat) : Prop where
  closes : ∀ head, p.code[head]? = some .beginLoop →
    head < close head ∧ p.code[close head]? = some .endLoop
  nested : ∀ head inner, p.code[head]? = some .beginLoop → p.code[inner]? = some .beginLoop →
    head < inner → close head < inner ∨ close inner < close head
  enters : ∀ head pc pc', p.code[head]? = some .beginLoop → p.IsLive pc → p.Follows pc pc' →
    InLoop close head pc' → InLoop close head pc ∨ pc' = head
  leaves : ∀ head pc pc', p.code[head]? = some .beginLoop → p.IsLive pc → p.Follows pc pc' →
    InLoop close head pc → InLoop close head pc' ∨ pc = close head
  entries : ∀ head entry, p.code[head]? = some .beginLoop → entry ∈ 0 :: p.lookbehindEntries →
    InLoop close head entry → entry = head

instance (p : Program) (pc pc' : Nat) : Decidable (p.Follows pc pc') :=
  decidable_of_iff
    (∃ i ∈ p.code[pc]?,
      pc' = pc + 1 ∧ i.neverFallsThrough = false ∨ i = .fork pc' ∨ i = .jump pc')
    Iff.rfl

/-- The loops of a program, each by its `beginLoop`. -/
def heads (p : Program) : List Nat :=
  (List.range p.size).filter fun pc => p.code[pc]? == some .beginLoop

theorem mem_heads {p : Program} {pc : Nat} : pc ∈ p.heads ↔ p.code[pc]? = some .beginLoop := by
  simp only [heads, List.mem_filter, List.mem_range, beq_iff_eq, and_iff_right_iff_imp]
  exact fun hi => (Array.getElem?_eq_some_iff.mp hi).1

/-- **Loops that are properly nested can be told by going through all pairs of instructions**, those
included that no thread comes to. -/
theorem NestsLoops.of_heads {p : Program} {close : Nat → Nat}
    (closes : ∀ head ∈ p.heads, head < close head ∧ p.code[close head]? = some .endLoop)
    (nested : ∀ head ∈ p.heads, ∀ inner ∈ p.heads, head < inner →
      close head < inner ∨ close inner < close head)
    (enters : ∀ head ∈ p.heads, ∀ pc < p.size, ∀ pc' < p.size, p.Follows pc pc' →
      InLoop close head pc' → InLoop close head pc ∨ pc' = head)
    (leaves : ∀ head ∈ p.heads, ∀ pc < p.size, ∀ pc' < p.size, p.Follows pc pc' →
      InLoop close head pc → InLoop close head pc' ∨ pc = close head)
    (entries : ∀ head ∈ p.heads, ∀ entry ∈ 0 :: p.lookbehindEntries,
      InLoop close head entry → entry = head) :
    p.NestsLoops close := by
  have hlt : ∀ {pc pc' : Nat}, p.Follows pc pc' → pc < p.size ∧ pc' < p.size := by
    rintro pc pc' ⟨i, hi, hgoes⟩
    refine ⟨(Array.getElem?_eq_some_iff.mp hi).1, ?_⟩
    rcases hgoes with ⟨rfl, hgoes⟩ | rfl | rfl
    · exact p.next_lt hi hgoes
    · exact p.target_lt (.inl hi)
    · exact p.target_lt (.inr hi)
  exact
    { closes := fun head hhead => closes head (mem_heads.mpr hhead)
      nested := fun head inner hhead hinner =>
        nested head (mem_heads.mpr hhead) inner (mem_heads.mpr hinner)
      enters := fun head pc pc' hhead _ h =>
        enters head (mem_heads.mpr hhead) pc (hlt h).1 pc' (hlt h).2 h
      leaves := fun head pc pc' hhead _ h =>
        leaves head (mem_heads.mpr hhead) pc (hlt h).1 pc' (hlt h).2 h
      entries := fun head entry hhead => entries head (mem_heads.mpr hhead) entry }

end Program

/-! ## Courses -/

/-- The way a thread has come: the sites it and its ancestors have stood at, **the last one
first**. -/
abbrev Course := List Site

section Definitions

variable {α : Type} [CodeUnit α] (q : Query α)

/-- A way through the program from an entry on, in a scan that begins at the position `s`. -/
inductive Course.Follows (s : Nat) : Course → Prop
  | seed {pc : Nat} (h : pc ∈ Machine.seeds q) : Follows s [{ pc, consumed := true, position := s }]
  | go {x y : Site} {w : Course} {V : Verdicts} (h : Follows s (x :: w))
    (hy : y ∈ q.branches V x) : Follows s (y :: x :: w)

/-- The courses that go on from the end of a course, one for every branch. -/
def Course.onward (V : Verdicts) : Course → List Course
  | [] => []
  | x :: w => (q.branches V x).map fun y => y :: x :: w

/-- The position at which a course has last passed an instruction. -/
def Course.lastAt (w : Course) (pc : Nat) : Option Nat :=
  (w.find? fun x => x.pc == pc).map Site.position

/-- The number of units consumed on a course since it has last passed an instruction. -/
def Course.unitsSince (w : Course) (pc : Nat) : Nat :=
  (w.takeWhile fun x => x.pc != pc).countP fun x => (q.instruction? x.pc).any Instruction.waits

/-- The courses of the threads of a machine, each in the place that its thread has. -/
structure Courses where
  pending : List Course
  blocked : List Course := []
  deriving DecidableEq, Repr

namespace Courses

/-- The courses after a step of the machine. Giving the turn to a thread moves none. -/
def step (m : Machine) (c : Courses) : Courses :=
  match m.running, c.pending with
  | some _, w :: rest =>
    match m.ran? q with
    | none => { c with pending := rest }
    | some (.consume _ _) => { pending := rest, blocked := w :: c.blocked }
    | some .accept => { c with pending := [] }
    | some _ => { c with pending := w.onward q m.known ++ rest }
  | _, _ => c

/-- The courses after reading a unit. -/
def read (m : Machine) (c : Courses) : Courses where
  pending := c.blocked.reverse.flatMap (Course.onward q m.known)

/-- A course leads to where a thread stands. -/
structure Brings (s : Nat) (m : Machine) (w : Course) (t : Thread) : Prop where
  follows : w.Follows q s
  stands : w.head? = some (m.siteOf t)

/-- **Courses of a machine** — each leads to where its thread stands. -/
structure Of (s : Nat) (m : Machine) (c : Courses) : Prop where
  pending : List.Forall₂ (Brings q s m) c.pending m.pending
  blocked : List.Forall₂ (Brings q s m) c.blocked m.blocked

end Courses

/-- **A scan begun with the machine `m₀` passes through `m`, and these are the ways its threads have
come.** -/
inductive Machine.Retraced (m₀ : Machine) : Machine → Courses → Prop
  | begin : Retraced m₀ (m₀.beginScan q)
    { pending := (seeds q).reverse.map fun pc => [⟨pc, true, m₀.position⟩] }
  | step {m : Machine} {c : Courses} (h : Retraced m₀ m c) : Retraced m₀ (m.step q) (c.step q m)
  | read {m : Machine} {c : Courses} (h : Retraced m₀ m c) (hidle : m.isIdle = true)
      (hunsettled : m.isSettled = false) (hlt : m.position < q.input.size) :
    Retraced m₀ (m.read q hlt) (c.read q m)

end Definitions

variable {α : Type} [CodeUnit α] {q : Query α} {V : Verdicts} {s : Nat}

/-! ## What a course tells of the loops it is in -/

/-- What an instruction makes of the flag, if it lets the thread go on. -/
def Instruction.flagAfter (consumed : Bool) : Instruction → Bool
  | consume _ _ => true
  | beginLoop => false
  | _ => consumed

namespace Instruction

variable {i : Instruction} {consumed : Bool}

theorem flagAfter_of_waits (h : i.waits = true) : i.flagAfter consumed = true := by
  cases i with
  | consume => rfl
  | _ => simp [waits] at h

theorem flagAfter_of_quiet (hwaits : i.waits = false) (hbegins : i ≠ .beginLoop) :
    i.flagAfter consumed = consumed := by
  cases i with
  | consume => simp [waits] at hwaits
  | beginLoop => exact absurd rfl hbegins
  | _ => rfl

end Instruction

namespace Query

variable {x y : Site} {i : Instruction}

theorem flag_branch (hi : q.instruction? x.pc = some i) (h : y ∈ q.branches V x) :
    y.consumed = i.flagAfter x.consumed ∧ (i = .endLoop → x.consumed = true) := by
  cases i with
  | consume min max =>
    simp only [branches, hi] at h
    split at h
    · simp at h
    · obtain ⟨-, rfl⟩ := by simpa using h
      exact ⟨rfl, by simp⟩
  | fork target =>
    simp only [branches, hi, List.mem_cons, List.not_mem_nil, or_false] at h
    rcases h with rfl | rfl <;> exact ⟨rfl, by simp⟩
  | accept | writeLookbehind => simp [branches, hi] at h
  | jump | setRegister | clearRegister | beginLoop =>
    simp only [branches, hi, List.mem_singleton] at h
    subst h
    exact ⟨rfl, by simp⟩
  | assert | readLookbehind =>
    simp only [branches, hi] at h
    split at h
    · obtain rfl := List.mem_singleton.mp h
      exact ⟨rfl, by simp⟩
    · simp at h
  | endLoop =>
    simp only [branches, hi] at h
    split at h
    · next hconsumed =>
      obtain rfl := List.mem_singleton.mp h
      exact ⟨rfl, fun _ => hconsumed⟩
    · simp at h

theorem follows_branch (h : y ∈ q.branches V x) : q.program.Follows x.pc y.pc := by
  obtain ⟨i, hi, hgoes, -⟩ := branch_cases h
  exact ⟨i, hi, hgoes⟩

end Query

namespace Course

variable {close : Nat → Nat} {head pc : Nat} {x : Site} {w : Course}

theorem lastAt_cons_of_ne (h : x.pc ≠ pc) : lastAt (x :: w) pc = w.lastAt pc := by
  simp [lastAt, h]

theorem lastAt_cons_self : lastAt (x :: w) x.pc = some x.position := by
  simp [lastAt]

omit [CodeUnit α] in
theorem unitsSince_cons_of_ne (h : x.pc ≠ pc) :
    unitsSince q (x :: w) pc =
      unitsSince q w pc + if (q.instruction? x.pc).any Instruction.waits then 1 else 0 := by
  simp [unitsSince, h, List.countP_cons]

omit [CodeUnit α] in
theorem unitsSince_cons_self : unitsSince q (x :: w) x.pc = 0 := by
  simp [unitsSince]

/-- **What the flag tells of a loop the thread is in**, which was begun at the position `since`. An
inner loop that was begun later clears the flag, too; so only of the innermost loop the flag tells
that nothing was consumed in it. -/
structure Begun (q : Query α) (close : Nat → Nat) (head since : Nat) (x : Site) : Prop where
  le : since ≤ x.position
  of_consumed : x.consumed = true → since < x.position
  of_not_consumed : x.consumed = false →
    (∀ inner, q.instruction? inner = some .beginLoop → head < inner →
      ¬ Program.InLoop close inner x.pc) → since = x.position

/-- A `beginLoop` begins its loop here. -/
theorem begun_of_beginLoop {y : Site} (hx : q.instruction? x.pc = some .beginLoop)
    (hy : y ∈ q.branches V x) : Begun q close x.pc x.position y := by
  have hposition : y.position = x.position := Query.position_branch hx rfl hy
  have hflag : y.consumed = false := (Query.flag_branch hx hy).1
  exact
    { le := Nat.le_of_eq hposition.symm
      of_consumed := fun hconsumed => by simp [hflag] at hconsumed
      of_not_consumed := fun _ _ => hposition.symm }

/-- **Inside a loop the flag keeps its meaning.** If it is not set, the thread has not left an inner
loop with this step. -/
theorem Begun.branch {y : Site} {since : Nat} (h : Begun q close head since x)
    (hnests : q.program.NestsLoops close) (hlive : q.program.IsLive x.pc)
    (hy : y ∈ q.branches V x) (hlt : head < x.pc) : Begun q close head since y := by
  obtain ⟨i, hi, -, hposition⟩ := Query.branch_cases hy
  obtain ⟨hflag, hends⟩ := Query.flag_branch hi hy
  have hfollows := Query.follows_branch hy
  have hle := h.le
  by_cases hwaits : i.waits = true
  · rw [if_pos hwaits] at hposition
    rw [Instruction.flagAfter_of_waits hwaits] at hflag
    exact ⟨by omega, fun _ => by omega, fun hunset => by simp [hflag] at hunset⟩
  · rw [if_neg hwaits] at hposition
    by_cases hbegins : i = .beginLoop
    · -- The thread has begun an inner loop, and is in it now.
      subst hbegins
      have hloop := (hnests.closes x.pc hi).1
      have hin : Program.InLoop close x.pc y.pc :=
        (hnests.leaves x.pc _ _ hi hlive hfollows ⟨Nat.le_refl _, Nat.le_of_lt hloop⟩).resolve_right
          (Nat.ne_of_lt hloop)
      have hunset : y.consumed = false := hflag
      exact ⟨by omega, fun hset => by simp [hunset] at hset,
        fun _ hinnermost => absurd hin (hinnermost x.pc hi hlt)⟩
    · rw [Instruction.flagAfter_of_quiet (by simpa using hwaits) hbegins] at hflag
      refine ⟨by omega, fun hset => ?_, fun hunset hinnermost => ?_⟩
      · rw [hposition]
        exact h.of_consumed (hflag.symm.trans hset)
      · rw [hposition]
        refine h.of_not_consumed (hflag.symm.trans hunset) fun inner hinner hlt' hin => ?_
        rcases hnests.leaves inner _ _ hinner hlive hfollows hin with hstays | hpc
        · exact hinnermost inner hinner hlt' hstays
        · have hend : q.instruction? x.pc = some .endLoop := hpc ▸ (hnests.closes inner hinner).2
          have hset := hends (Option.some.inj (hi.symm.trans hend))
          simp [hflag, hset] at hunset

namespace Follows

theorem isLive (h : Follows q s (x :: w)) : q.program.IsLive x.pc := by
  generalize hxw : x :: w = u at h
  induction h generalizing x w with
  | seed hpc =>
    obtain ⟨rfl, -⟩ := List.cons.inj hxw
    exact ⟨_, hpc, .refl⟩
  | go h hy ih =>
    obtain ⟨rfl, -⟩ := List.cons.inj hxw
    obtain ⟨entry, hentry, hleads⟩ := ih rfl
    exact ⟨entry, hentry, hleads.tail (Query.follows_branch hy)⟩

/-- **A thread in a loop has begun it**, and the flag tells what was consumed since. -/
theorem begun (hnests : q.program.NestsLoops close) (h : Follows q s (x :: w))
    (hhead : q.instruction? head = some .beginLoop) (hlt : head < x.pc) (hle : x.pc ≤ close head) :
    ∃ since, lastAt (x :: w) head = some since ∧ Begun q close head since x := by
  generalize hxw : x :: w = u at h
  induction h generalizing x w with
  | @seed pc hpc =>
    obtain ⟨rfl, -⟩ := List.cons.inj hxw
    have hentry := hnests.entries head pc hhead hpc ⟨Nat.le_of_lt hlt, hle⟩
    exact absurd hentry (Nat.ne_of_gt hlt)
  | @go x' y w' V h hy ih =>
    obtain ⟨rfl, -⟩ := List.cons.inj hxw
    rw [lastAt_cons_of_ne (Nat.ne_of_gt hlt)]
    rcases hnests.enters head _ _ hhead h.isLive (Query.follows_branch hy)
      ⟨Nat.le_of_lt hlt, hle⟩ with hin | hpc
    · rcases Nat.lt_or_eq_of_le hin.1 with hlt' | rfl
      · obtain ⟨since, hsince, hbegun⟩ := ih hlt' hin.2 rfl
        exact ⟨since, hsince, hbegun.branch hnests h.isLive hy hlt'⟩
      · exact ⟨_, lastAt_cons_self, begun_of_beginLoop hhead hy⟩
    · exact absurd hpc (Nat.ne_of_gt hlt)

/-- A course moves on by one position with every unit that is consumed on it. -/
theorem position_eq (h : Follows q s (x :: w)) (hhead : q.instruction? head = some .beginLoop)
    {since : Nat} (hsince : lastAt (x :: w) head = some since) (hx : x.pc ≠ head) :
    x.position + (if (q.instruction? x.pc).any Instruction.waits then 1 else 0) =
      since + unitsSince q (x :: w) head := by
  generalize hxw : x :: w = u at h
  induction h generalizing x w with
  | @seed pc hpc =>
    obtain ⟨rfl, rfl⟩ := List.cons.inj hxw
    simp [lastAt, hx] at hsince
  | @go x' y w' V h hy ih =>
    obtain ⟨rfl, rfl⟩ := List.cons.inj hxw
    rw [lastAt_cons_of_ne hx] at hsince
    rw [unitsSince_cons_of_ne hx, ← Nat.add_assoc]
    obtain ⟨i, hi, -, hposition⟩ := Query.branch_cases hy
    refine congrArg (· + _) ?_
    by_cases hx' : x'.pc = head
    · subst hx'
      obtain rfl := Option.some.inj (hhead.symm.trans hi)
      rw [lastAt_cons_self] at hsince
      rw [unitsSince_cons_self, ← Option.some.inj hsince]
      exact hposition
    · rw [← ih hsince hx' rfl, hi]
      split at hposition
      · next hwaits => simp [hwaits, hposition.2]
      · next hwaits => simp [hwaits, hposition]

/-- **At its end a loop knows whether it has consumed a unit.** -/
theorem consumed_iff (hnests : q.program.NestsLoops close) (h : Follows q s (x :: w))
    (hhead : q.instruction? head = some .beginLoop) (hend : x.pc = close head) :
    ∃ since, lastAt (x :: w) head = some since ∧
      x.position = since + unitsSince q (x :: w) head ∧
      (x.consumed = true ↔ since < x.position) := by
  obtain ⟨hlt, hclose⟩ := hnests.closes head hhead
  have hx : q.instruction? x.pc = some .endLoop := hend ▸ hclose
  obtain ⟨since, hsince, hbegun⟩ := h.begun hnests hhead (hend ▸ hlt) (Nat.le_of_eq hend)
  have hunits := h.position_eq hhead hsince (hend ▸ Nat.ne_of_gt hlt)
  rw [hx] at hunits
  refine ⟨since, hsince, hunits, hbegun.of_consumed, fun hmore => ?_⟩
  by_contra hunset
  have hhere := hbegun.of_not_consumed (by simpa using hunset) fun inner hinner hlt' hin => ?_
  · exact absurd hmore (Nat.not_lt.mpr (Nat.le_of_eq hhere.symm))
  · -- The last instruction of a loop belongs to no loop inside it.
    rw [hend] at hin
    rcases hnests.nested head inner hhead hinner hlt' with hapart | hinside
    · exact absurd hin.1 (Nat.not_le.mpr hapart)
    · exact absurd hin.2 (Nat.not_le.mpr hinside)

end Follows

end Course

/-! ## Courses of a machine -/

namespace Machine

variable {m : Machine} {t : Thread}

omit [CodeUnit α] in
theorem ran?_of_marks (h : m.Sound q) (ht : m.running = some t)
    (hmarks : m.visits.Marks (m.siteOf t)) : m.ran? q = none := by
  have hadmits : m.visits.admits t.pc t.consumed m.position = false :=
    Bool.eq_false_iff.mpr fun hadmits =>
      ((VisitLog.admits_iff h.size_visits).mp hadmits).2 hmarks
  simp [ran?, ht, hadmits]

omit [CodeUnit α] in
theorem ran?_of_not_marks (h : m.Sound q) (ht : m.running = some t)
    (hmarks : ¬ m.visits.Marks (m.siteOf t)) : m.ran? q = q.instruction? t.pc := by
  have hadmits : m.visits.admits t.pc t.consumed m.position = true :=
    (VisitLog.admits_iff h.size_visits).mpr ⟨(h.fits_running ht).counter_lt, hmarks⟩
  simp [ran?, ht, hadmits]

end Machine

namespace Courses

variable {m m' : Machine} {c : Courses} {w : Course} {t : Thread}

/-- Only the position of the machine has to do with where its threads stand. -/
theorem Brings.congr (h : Brings q s m w t) (hposition : m'.position = m.position) :
    Brings q s m' w t :=
  ⟨h.follows, by rw [Machine.siteOf_congr hposition]; exact h.stands⟩

/-- **Courses go on as their threads do.** -/
theorem Brings.onward (h : Brings q s m w t)
    (hposition : ∀ y ∈ q.branches V (m.siteOf t), y.position = m'.position) :
    List.Forall₂ (Brings q s m') (w.onward q V) (m.successors q V t) := by
  obtain ⟨hfollows, hstands⟩ := h
  obtain ⟨w, rfl⟩ := List.head?_eq_some_iff.mp hstands
  rw [Course.onward, Machine.successors, List.forall₂_map_left_iff, List.forall₂_map_right_iff,
    List.forall₂_same]
  intro y hy
  exact ⟨hfollows.go hy, congrArg some (congrArg (Site.mk y.pc y.consumed) (hposition y hy))⟩

theorem forall₂_flatMap {waiting : List Course} {threads : List Thread}
    {f : Course → List Course} {g : Thread → List Thread}
    {R R' : Course → Thread → Prop} (h : List.Forall₂ R waiting threads)
    (hfg : ∀ w t, R w t → t ∈ threads → List.Forall₂ R' (f w) (g t)) :
    List.Forall₂ R' (waiting.flatMap f) (threads.flatMap g) := by
  induction h with
  | nil => exact .nil
  | @cons w t waiting threads hwt _ ih =>
    refine List.rel_append (hfg w t hwt List.mem_cons_self) ?_
    exact ih fun w t h ht => hfg w t h (List.mem_cons_of_mem _ ht)

/-- Courses go on with the thread whose turn it is. -/
theorem Of.turn {rest : List Course} (h : Of q s m c) (hsound : m.Sound q)
    (ht : m.running = some t) (hcourses : c.pending = w :: rest) :
    Of q s (m.step q) (c.step q m) := by
  have hcongr : ∀ w t, Brings q s m w t → Brings q s (m.step q) w t := fun w t h =>
    h.congr (Machine.position_step q m)
  have hblocked := h.blocked.imp hcongr
  have hpending := h.pending
  rw [hcourses, Machine.pending_of_some ht, List.forall₂_cons] at hpending
  obtain ⟨hw, hrest⟩ := hpending
  have hrest := hrest.imp hcongr
  rw [Courses.step, ht, hcourses]
  dsimp only
  cases hsound.turn hsound.agrees_known ht with
  | refused hmarks hpending hblocked' =>
    rw [Machine.ran?_of_marks hsound ht hmarks]
    exact ⟨hpending ▸ hrest, hblocked' ▸ hblocked⟩
  | waits hmarks hawaits hpending hblocked' =>
    obtain ⟨i, hi, hwaits⟩ := hawaits
    rw [Machine.ran?_of_not_marks hsound ht hmarks, hi]
    cases i with
    | consume => exact ⟨hpending ▸ hrest, hblocked' ▸ .cons (hcongr _ _ hw) hblocked⟩
    | _ => simp [Instruction.waits] at hwaits
  | accepts hmarks hi hpending hblocked' =>
    rw [Machine.ran?_of_not_marks hsound ht hmarks, hi]
    exact ⟨hpending ▸ .nil, hblocked' ▸ hblocked⟩
  | @goes hmarks i hi hwaits haccept hpending hblocked' =>
    have hgoes : Of q s (m.step q) { c with pending := w.onward q m.known ++ rest } := by
      refine ⟨?_, hblocked' ▸ hblocked⟩
      rw [hpending]
      refine List.rel_append (hw.onward fun y hy => ?_) hrest
      rw [Machine.position_step]
      exact Query.position_branch hi hwaits hy
    rw [Machine.ran?_of_not_marks hsound ht hmarks, hi]
    cases i with
    | consume => simp [Instruction.waits] at hwaits
    | accept => exact absurd rfl haccept
    | _ => exact hgoes

/-- **A step of the machine keeps the courses.** -/
theorem Of.step (h : Of q s m c) (hsound : m.Sound q) : Of q s (m.step q) (c.step q m) := by
  have hpending := h.pending
  rcases ht : m.running with _ | t
  · have hcongr : ∀ w t, Brings q s m w t → Brings q s (m.step q) w t := fun w t h =>
      h.congr (Machine.position_step q m)
    obtain ⟨hpending', hblocked', -⟩ := Machine.step_gives_turn (q := q) ht
    rw [show c.step q m = c by simp [Courses.step, ht]]
    exact ⟨hpending' ▸ hpending.imp hcongr, hblocked' ▸ h.blocked.imp hcongr⟩
  · rw [Machine.pending_of_some ht] at hpending
    obtain ⟨w, rest, -, -, hcourses⟩ := List.forall₂_cons_right_iff.mp hpending
    exact h.turn hsound ht hcourses

/-- The first course is that of the thread whose turn it is. -/
theorem Of.brings_running {rest : List Course} (h : Of q s m c) (ht : m.running = some t)
    (hw : c.pending = w :: rest) : Brings q s m w t := by
  have hpending := h.pending
  rw [hw, Machine.pending_of_some ht] at hpending
  exact (List.forall₂_cons.mp hpending).1

/-- **Reading a unit keeps the courses.** -/
theorem Of.read (h : Of q s m c) (hsound : m.Sound q) (hidle : m.isIdle = true)
    (hlt : m.position < q.input.size) : Of q s (m.read q hlt) (c.read q m) := by
  refine ⟨?_, by rw [Machine.read, Machine.blocked_feed]; exact .nil⟩
  rw [hsound.pending_read (V := m.known) hidle hlt]
  refine forall₂_flatMap (List.forall₂_reverse_iff.mpr h.blocked) fun w t hw ht => ?_
  refine hw.onward fun y hy => ?_
  rw [Machine.read, Machine.position_feed]
  exact ((hsound.awaits t (List.mem_reverse.mp ht)).branch hy).2

/-- A scan begins with one thread at every entry. -/
theorem of_beginScan (h : m.Sound q) :
    Of q m.position (m.beginScan q)
      { pending := (Machine.seeds q).reverse.map fun pc => [⟨pc, true, m.position⟩] } := by
  obtain ⟨pool, -, heq⟩ := h.beginScan_eq
  rw [heq]
  refine ⟨?_, .nil⟩
  rw [Machine.pending_of_none rfl, ← List.map_reverse, List.forall₂_map_left_iff,
    List.forall₂_map_right_iff, List.forall₂_same]
  exact fun pc hpc => ⟨.seed (List.mem_reverse.mp hpc), rfl⟩

end Courses

namespace Machine

variable {m₀ m : Machine} {c : Courses}

/-- The states of a scan are those that have courses. -/
theorem scanning_iff_exists_retraced : Scanning q m₀ m ↔ ∃ c, Retraced q m₀ m c := by
  constructor
  · intro h
    induction h with
    | begin => exact ⟨_, .begin⟩
    | step _ ih =>
      obtain ⟨c, hc⟩ := ih
      exact ⟨_, hc.step⟩
    | read _ hidle hunsettled hlt ih =>
      obtain ⟨c, hc⟩ := ih
      exact ⟨_, hc.read hidle hunsettled hlt⟩
  · rintro ⟨c, hc⟩
    induction hc with
    | begin => exact .begin
    | step _ ih => exact ih.step
    | read _ hidle hunsettled hlt ih => exact ih.read hidle hunsettled hlt

namespace Retraced

/-- **All through a scan, the courses are the ways the threads have come.** -/
theorem of (h : Retraced q m₀ m c) (h₀ : m₀.Sound q) : c.Of q m₀.position m := by
  induction h with
  | begin => exact Courses.of_beginScan h₀
  | step h ih => exact ih.step ((scanning_iff_exists_retraced.mpr ⟨_, h⟩).sound h₀)
  | read h hidle hunsettled hlt ih =>
    exact ih.read ((scanning_iff_exists_retraced.mpr ⟨_, h⟩).sound h₀) hidle hlt

theorem iterate (h : Retraced q m₀ m c) (n : Nat) :
    let x := (fun x : Machine × Courses => (x.1.step q, x.2.step q x.1))^[n] (m, c)
    Retraced q m₀ x.1 x.2 := by
  induction n with
  | zero => exact h
  | succ n ih =>
    rw [Function.iterate_succ_apply']
    exact ih.step

end Retraced

/-- An `endLoop` lets a thread through if the flag is set. -/
theorem running_of_endLoop {t : Thread} (ht : m.running = some t)
    (hran : m.ran? q = some .endLoop) :
    (m.step q).running = if t.consumed then some t.advance else none := by
  rw [ran?, ht] at hran
  obtain ⟨hadmits, hi⟩ := Option.ite_none_right_eq_some.mp hran
  rw [step_of_admitted q ht hadmits hi, execute]
  split <;> rfl

end Machine

namespace Search

/-- **One flag is enough for loops within loops** — all through a scan, an `endLoop` lets a thread
through just if the course of this thread has moved on since it last passed the `beginLoop` of the
same loop, that is, if at least one unit was consumed on it since. -/
theorem endLoop_lets_through (q : Query α) (close : Nat → Nat)
    (hnests : q.program.NestsLoops close) (position : Nat) (calls : List Call) :
    let m₀ := ((start q position).after q calls).machine
    ∀ m, Machine.Scanning q m₀ m →
      (∃ c, Machine.Retraced q m₀ m c) ∧
        ∀ c, Machine.Retraced q m₀ m c →
          c.Of q m₀.position m ∧
            ∀ t w rest head, m.running = some t → c.pending = w :: rest →
              q.instruction? head = some .beginLoop → t.pc = close head →
              m.ran? q = some .endLoop →
              ∃ since, w.lastAt head = some since ∧
                m.position = since + w.unitsSince q head ∧
                (m.step q).running = if since < m.position then some t.advance else none := by
  intro m₀ m h
  refine ⟨Machine.scanning_iff_exists_retraced.mp h, fun c hc => ?_⟩
  have hof := hc.of (sound_after (sound_start q position) calls)
  refine ⟨hof, fun t w rest head ht hw hhead hend hran => ?_⟩
  obtain ⟨hfollows, hstands⟩ := hof.brings_running ht hw
  obtain ⟨w, rfl⟩ := List.head?_eq_some_iff.mp hstands
  obtain ⟨since, hsince, hunits, hconsumed⟩ := hfollows.consumed_iff hnests hhead hend
  refine ⟨since, hsince, hunits, ?_⟩
  rw [Machine.running_of_endLoop ht hran]
  exact if_congr hconsumed rfl rfl

/-- The expression `(?:(?:a?)*b?)*`, with an inner loop at 4 and an outer one at 2, on the input
`aa`. -/
def loopInLoop : Query UInt8 where
  program :=
    ⟨#[.setRegister 0, .fork 13, .beginLoop, .fork 9, .beginLoop, .fork 7, .consume 0x61 0x61,
      .endLoop, .jump 3, .fork 11, .consume 0x62 0x62, .endLoop, .jump 1, .setRegister 1, .accept],
      by decide⟩
  registerCount := 2
  enough := by decide
  input := #[0x61, 0x61]
  pollInterval := defaultPollInterval

/-- The thread has gone round the inner loop twice since it began the outer one, and the inner loop
has cleared the flag at position 1. -/
theorem outer_endLoop_lets_through :
    let close := fun head => if head = 2 then 11 else 7
    let first := (start loopInLoop 0).machine
    loopInLoop.program.NestsLoops close ∧
      ∃ m c t w rest, Machine.Retraced loopInLoop first m c ∧ m.running = some t ∧
        c.pending = w :: rest ∧ t.pc = close 2 ∧ m.ran? loopInLoop = some .endLoop ∧
        m.position = 2 ∧ w.lastAt 4 = some 1 ∧ w.lastAt 2 = some 0 ∧
        (m.step loopInLoop).running = some t.advance := by
  intro close first
  have hnests : loopInLoop.program.NestsLoops close :=
    .of_heads (by decide +kernel) (by decide +kernel) (by decide +kernel) (by decide +kernel)
      (by decide +kernel)
  refine ⟨hnests, ?_⟩
  -- 18 steps before the first unit, 28 before the second one, and 13 more.
  have hbegin : Machine.Retraced loopInLoop first _ _ := .begin
  have hfirst := ((hbegin.iterate 18).read (by decide +kernel) (by decide +kernel)
    (by decide +kernel)).iterate 28
  have hend := (hfirst.read (by decide +kernel) (by decide +kernel) (by decide +kernel)).iterate 13
  obtain ⟨m, c, hretraced, ⟨t, ht, hpc⟩, ⟨w, hw, hinner, houter⟩, hran, hposition⟩ :
      ∃ m c, Machine.Retraced loopInLoop first m c ∧ (∃ t ∈ m.running, t.pc = close 2) ∧
        (∃ w ∈ c.pending.head?, w.lastAt 4 = some 1 ∧ w.lastAt 2 = some 0) ∧
        m.ran? loopInLoop = some .endLoop ∧ m.position = 2 :=
    ⟨_, _, hend, by decide +kernel, by decide +kernel, by decide +kernel, by decide +kernel⟩
  obtain ⟨rest, hw⟩ := List.head?_eq_some_iff.mp hw
  refine ⟨m, c, t, w, rest, hretraced, ht, hw, hpc, hran, hposition, hinner, houter, ?_⟩
  have hscanning := Machine.scanning_iff_exists_retraced.mpr ⟨c, hretraced⟩
  obtain ⟨-, hlets⟩ := endLoop_lets_through loopInLoop close hnests 0 [] m hscanning
  obtain ⟨since, hsince, -, hstep⟩ :=
    (hlets c hretraced).2 t w rest 2 ht hw (by decide) hpc hran
  obtain rfl : since = 0 := Option.some.inj (hsince.symm.trans houter)
  rw [hstep, hposition]
  rfl

end Search

end RegexMachine
