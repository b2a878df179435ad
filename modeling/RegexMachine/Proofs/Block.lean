import RegexMachine.Proofs.Unanchored

/-!
# Proofs/Block — a block of code on its own, and in a program that looks for it

A **block** is code whose jumps lead into it or to its end. `Block.alone` runs it from where one
begins, and accepts at its end; a route through it is a way through the block. `Block.unanchored`
looks for a place to begin: it skips units, runs the block, and records in registers 0 and 1 where
that began and ended.

The block does the same in both (`Query.branches_shift`). So the routes of the program are the ways
through the block, from one place or another (`Block.exists_eq_ending`), and the first one begins at
the first place from which there is a way, and takes the first of the ways from there
(`Block.isFirst_ending`).
-/

namespace RegexMachine

/-! ## Blocks and the programs around them -/

namespace Instruction

/-- **Whether an instruction may stand in a block** — it jumps no further than to the end, writes
neither of the registers 0 and 1, does not accept, and leaves lookbehinds alone. A `consume` has its
bounds in order, as in any program. -/
def FitsBlock (length : Nat) : Instruction → Prop
  | consume min max => min ≤ max
  | fork target | jump target => target ≤ length
  | setRegister r | clearRegister r => 2 ≤ r
  | accept | writeLookbehind _ | readLookbehind _ _ => False
  | assert _ | beginLoop | endLoop => True

instance (length : Nat) : (i : Instruction) → Decidable (i.FitsBlock length)
  | consume _ _ | fork _ | jump _ | setRegister _ | clearRegister _ =>
    inferInstanceAs (Decidable (_ ≤ _))
  | accept | writeLookbehind _ | readLookbehind _ _ => .isFalse not_false
  | assert _ | beginLoop | endLoop => .isTrue trivial

/-- The instruction for code that is moved to a later place. -/
def relocate (offset : Nat) : Instruction → Instruction
  | fork target => fork (target + offset)
  | jump target => jump (target + offset)
  | i => i

variable {length size offset pc tableSize : Nat} {i : Instruction}

theorem FitsBlock.fault_relocate (h : i.FitsBlock length) (hsize : length + offset < size) :
    (i.relocate offset).fault? size tableSize pc = none := by
  cases i <;> simp only [FitsBlock, relocate, fault?] at h ⊢
  case consume => exact if_pos h
  case fork | jump => exact if_pos (by omega)

theorem FitsBlock.endsSegment_relocate (h : i.FitsBlock length) :
    (i.relocate offset).endsSegment = false := by
  cases i <;> first | rfl | exact absurd h not_false

theorem FitsBlock.reads_relocate (h : i.FitsBlock length) : (i.relocate offset).reads = false := by
  cases i <;> first | rfl | exact absurd h not_false

theorem FitsBlock.relocate_ne_accept (h : i.FitsBlock length) : i.relocate offset ≠ accept := by
  cases i <;> first | exact absurd h not_false | simp [relocate]

@[simp] theorem relocate_zero : i.relocate 0 = i := by
  cases i <;> rfl

end Instruction

/-- Code that is to stand in a program. -/
structure Block where
  code : List Instruction
  fits : ∀ i ∈ code, i.FitsBlock code.length

section Concat

variable {front : List Instruction}

/-- Code without faults that ends with an `accept` is a program. -/
theorem faultIn?_concat_accept
    (h : ∀ i ∈ front, ∀ tableSize pc, i.fault? (front.length + 1) tableSize pc = none) :
    faultIn? (front ++ [Instruction.accept]).toArray = none := by
  have hlast : (front ++ [Instruction.accept]).toArray.back? = some .accept := by simp
  rw [faultIn?, hlast]
  simp only [List.size_toArray, List.length_append, List.length_singleton, Option.or_eq_none_iff]
  refine ⟨List.findSome?_eq_none_iff.mpr ?_, rfl⟩
  rintro ⟨i, pc⟩ hmem
  rcases List.mem_append.mp (List.fst_mem_of_mem_zipIdx hmem) with hi | hi
  · exact h i hi _ _
  · rw [List.mem_singleton.mp hi]
    rfl

namespace Program

variable {p : Program} (hcode : p.code.toList = front ++ [Instruction.accept])
  (h : ∀ i ∈ front, i.endsSegment = false)

include hcode h

/-- A main expression without lookbehinds is all there is. -/
theorem segmentOf_concat_accept {pc : Nat} (hpc : pc < p.size) : p.segmentOf pc = 0 := by
  have hsize : p.size = front.length + 1 := by
    rw [size, ← Array.length_toList, hcode, List.length_append, List.length_singleton]
  rw [segmentOf, hcode, List.take_append_of_le_length (by omega)]
  exact List.countP_eq_zero.mpr fun i hi => by simp [h i (List.mem_of_mem_take hi)]

theorem lookbehindEntries_concat_accept : p.lookbehindEntries = [] :=
  List.eq_nil_iff_forall_not_mem.mpr fun _ hentry => p.segmentOf_entry hentry
    (segmentOf_concat_accept hcode h (p.lt_of_mem_entries hentry))

/-- **A main expression without lookbehinds is laid out well.** -/
theorem wellLaidOut_concat_accept : p.WellLaidOut where
  laidOut := by
    have hsegment : ∀ pc < p.size, p.segmentOf pc = 0 := fun _ => segmentOf_concat_accept hcode h
    rintro ⟨i, pc⟩ hmem
    have hi : p.code[pc]? = some i := by
      simpa using List.mk_mem_zipIdx_iff_getElem?.mp hmem
    have hpc := hsegment pc (p.lt_size hi)
    cases i with
    | accept => exact hpc
    | fork target => exact (hsegment target (p.target_lt (.inl hi))).trans hpc.symm
    | jump target => exact (hsegment target (p.target_lt (.inr hi))).trans hpc.symm
    | readLookbehind index want => exact fun hne => absurd hpc hne
    | writeLookbehind index =>
      have hmem := List.fst_mem_of_mem_zipIdx hmem
      rw [hcode, List.mem_append, List.mem_singleton] at hmem
      rcases hmem with hmem | hmem
      · exact absurd (h _ hmem) (by simp [Instruction.endsSegment])
      · simp at hmem
    | _ => trivial
  ends := by
    rw [← Array.getLast?_toList, hcode]
    simp [Instruction.endsSegment]

end Program

end Concat

namespace Block

variable (b : Block)

/-- Runs the block once, from where one begins. -/
def alone : Program where
  code := (b.code ++ [Instruction.accept]).toArray
  faultless := faultIn?_concat_accept fun i hi _ _ => by
    rw [← i.relocate_zero]
    exact (b.fits i hi).fault_relocate (Nat.lt_succ_self _)

/-- What stands before the `accept` of the program that looks for the block. -/
def beforeAccept : List Instruction :=
  [.fork 2, .jump 4, .consumeAny, .jump 0, .setRegister 0] ++ b.code.map (·.relocate 5) ++
    [.setRegister 1]

theorem length_beforeAccept : b.beforeAccept.length = b.code.length + 6 := by
  simp [beforeAccept]

variable {b} in
theorem mem_beforeAccept {i : Instruction} (h : i ∈ b.beforeAccept) :
    i ∈ [.fork 2, .jump 4, .consumeAny, .jump 0, .setRegister 0, .setRegister 1] ∨
      ∃ i' ∈ b.code, i'.relocate 5 = i := by
  simp only [beforeAccept, List.mem_append, List.mem_cons, List.not_mem_nil, or_false,
    List.mem_map] at h ⊢
  tauto

variable {b} in
theorem fault_beforeAccept {i : Instruction} (h : i ∈ b.beforeAccept) (tableSize pc : Nat) :
    i.fault? (b.beforeAccept.length + 1) tableSize pc = none := by
  rw [b.length_beforeAccept]
  rcases mem_beforeAccept h with hi | ⟨i, hmem, rfl⟩
  · fin_cases hi <;> simp [Instruction.fault?, Instruction.consumeAny]
  · exact (b.fits i hmem).fault_relocate (by omega)

/-- **Looks for the block anywhere**, and records in registers 0 and 1 where it began and ended. -/
def unanchored : Program where
  code := (b.beforeAccept ++ [Instruction.accept]).toArray
  faultless := faultIn?_concat_accept fun _ => fault_beforeAccept

/-- The query for the ways through the block in an input. -/
def query {α : Type} (input : Array α) : Query α where
  program := b.alone
  registerCount := b.alone.minRegisterCount
  enough := b.alone.registerFault?_minRegisterCount
  input
  pollInterval := defaultPollInterval

end Block

/-! ## A block does the same everywhere -/

/-- A site of code that was moved. -/
def Site.shift (offset : Nat) (x : Site) : Site := { x with pc := x.pc + offset }

theorem Site.shift_injective (offset : Nat) : Function.Injective (Site.shift offset) := by
  rintro ⟨pc, consumed, position⟩ ⟨pc', consumed', position'⟩ h
  simpa [Site.shift] using h

namespace Query

variable {α : Type} [CodeUnit α] {q q' : Query α} {V V' : Verdicts} {x : Site} {i : Instruction}
  {length offset : Nat}

/-- **Code that was moved leads where it led before.** -/
theorem branches_shift (hinput : q'.input = q.input) (hi : q.instruction? x.pc = some i)
    (hi' : q'.instruction? (x.pc + offset) = some (i.relocate offset))
    (hfits : i.FitsBlock length) :
    q'.branches V' (x.shift offset) = (q.branches V x).map (Site.shift offset) := by
  have hpc : (x.shift offset).pc = x.pc + offset := rfl
  have hnext : x.pc + offset + 1 = x.pc + 1 + offset := Nat.add_right_comm _ _ _
  simp only [branches, hi, hpc, hi']
  cases i with
  | consume min max =>
    simp only [Instruction.relocate, Site.shift, hinput]
    split
    · rfl
    · split <;> simp [Site.shift, hnext]
  | assert kind =>
    simp only [Instruction.relocate, Site.shift, hinput]
    split <;> simp [Site.shift, hnext]
  | endLoop =>
    simp only [Instruction.relocate]
    rcases hconsumed : x.consumed <;> simp [Site.shift, hnext, hconsumed]
  | fork | jump | setRegister | clearRegister | beginLoop =>
    simp [Instruction.relocate, Site.shift, hnext]
  | accept | writeLookbehind | readLookbehind => exact absurd hfits not_false

omit [CodeUnit α] in
/-- A block leaves registers 0 and 1 alone. -/
theorem getElem?_carry_of_fits {registers : Registers} {r : Nat}
    (hi : q.instruction? x.pc = some (i.relocate offset)) (hfits : i.FitsBlock length)
    (hr : r < 2) :
    (q.carry registers x)[r]? = registers[r]? := by
  rw [carry, hi]
  cases i with
  | setRegister r' | clearRegister r' =>
    have hle : 2 ≤ r' := hfits
    exact Array.getElem?_setIfInBounds_ne (by omega)
  | accept | writeLookbehind | readLookbehind => exact absurd hfits not_false
  | _ => rfl

end Query

namespace Block

variable {b : Block}

/-! ## What stands where -/

section Code

variable {α : Type} {input : Array α} {pc : Nat}

theorem instruction?_query (pc : Nat) :
    (b.query input).instruction? pc = (b.code ++ [Instruction.accept])[pc]? := by
  simp [Query.instruction?, query, alone]

theorem instruction?_query_of_lt (h : pc < b.code.length) :
    (b.query input).instruction? pc = some b.code[pc] := by
  rw [instruction?_query, List.getElem?_append_left h, List.getElem?_eq_getElem h]

theorem instruction?_query_end : (b.query input).instruction? b.code.length = some .accept := by
  rw [instruction?_query, List.getElem?_concat_length]

/-- Only the end of a block accepts. -/
theorem accepts_iff : (b.query input).instruction? pc = some .accept ↔ pc = b.code.length := by
  refine ⟨fun hi => ?_, fun h => h ▸ instruction?_query_end⟩
  rw [instruction?_query] at hi
  rcases Nat.lt_trichotomy pc b.code.length with hlt | heq | hgt
  · rw [List.getElem?_append_left hlt] at hi
    exact absurd (b.fits _ (List.mem_of_getElem? hi)) not_false
  · exact heq
  · have hlength := (List.getElem?_eq_some_iff.mp hi).1
    rw [List.length_append, List.length_singleton] at hlength
    omega

/-- Nothing but the `accept` ends a segment. -/
theorem endsSegment_beforeAccept {i : Instruction} (h : i ∈ b.beforeAccept) :
    i.endsSegment = false := by
  rcases mem_beforeAccept h with hi | ⟨i, hmem, rfl⟩
  · fin_cases hi <;> rfl
  · exact (b.fits i hmem).endsSegment_relocate

theorem wellLaidOut_unanchored : b.unanchored.WellLaidOut :=
  have hcode : b.unanchored.code.toList = b.beforeAccept ++ [Instruction.accept] := rfl
  Program.wellLaidOut_concat_accept hcode fun _ => endsSegment_beforeAccept

theorem readsNothing_unanchored : b.unanchored.ReadsNothing := by
  intro i hi
  rw [unanchored, List.mem_toArray, List.mem_append, List.mem_singleton] at hi
  rcases hi with hi | rfl
  · rcases mem_beforeAccept hi with hi | ⟨i, hmem, rfl⟩
    · fin_cases hi <;> rfl
    · exact (b.fits i hmem).reads_relocate
  · rfl

theorem skipsAt_unanchored : b.unanchored.SkipsAt 0 where
  fork := rfl
  enter := rfl
  skip := rfl
  back := rfl

variable {q : Query α} (hq : q.program = b.unanchored)

include hq

theorem instruction?_setStart : q.instruction? 4 = some (.setRegister 0) := by
  rw [Query.instruction?, hq]
  rfl

theorem instruction?_shift (h : pc < b.code.length) :
    q.instruction? (pc + 5) = some (b.code[pc].relocate 5) := by
  rw [Query.instruction?, hq]
  simp [unanchored, beforeAccept, List.getElem?_append, h]

theorem instruction?_setStop : q.instruction? (b.code.length + 5) = some (.setRegister 1) := by
  rw [Query.instruction?, hq]
  simp [unanchored, beforeAccept]

theorem instruction?_end : q.instruction? (b.code.length + 6) = some .accept := by
  rw [Query.instruction?, hq]
  simp [unanchored, beforeAccept]

end Code

/-! ## Ways through a block -/

section Ways

variable {α : Type} [CodeUnit α] {q : Query α} {V U : Verdicts} {s k : Nat} {x : Nat × Site}
  {w r : Trail}

/-- The way in the program that has skipped `k` units and follows a way into the block. -/
def inside (q : Query α) (s k : Nat) (w : Trail) : Trail :=
  w.map (fun x => (x.1, x.2.shift 5)) ++ q.entering s k

/-- The way in the program that has skipped `k` units, follows a way through the block, and
accepts. -/
def ending (b : Block) (q : Query α) (s k : Nat) (w : Trail) : Trail :=
  (w.head?.toList.map fun x => (0, ⟨b.code.length + 6, x.2.consumed, x.2.position⟩)) ++
    inside q s k w

omit [CodeUnit α] in
theorem ending_cons : b.ending q s k (x :: w) =
    (0, ⟨b.code.length + 6, x.2.consumed, x.2.position⟩) :: inside q s k (x :: w) := rfl

theorem onward_query_nil {input : Array α} :
    (b.query input).onward V s [] = [⟨0, true, s⟩] := by
  have hentries : (b.query input).program.lookbehindEntries = [] := by
    have hcode : (b.query input).program.code.toList = b.code ++ [Instruction.accept] := rfl
    refine Program.lookbehindEntries_concat_accept hcode fun i hi => ?_
    rw [← i.relocate_zero]
    exact (b.fits i hi).endsSegment_relocate
  rw [Query.onward_nil_eq, hentries]
  rfl

/-- A way through a block ends at its end. -/
theorem pc_of_route {input : Array α} (h : Route (b.query input) V s (x :: w)) :
    x.2.pc = b.code.length := by
  obtain ⟨y, hy, hi⟩ := h.accepts
  obtain rfl : x = y := by simpa using hy
  exact accepts_iff.mp hi

omit [CodeUnit α] in
theorem pc_le_of_mem_sites {input : Array α} {y : Site} (hy : y ∈ (b.query input).sites) :
    y.pc ≤ b.code.length := by
  have hlt := (Query.mem_sites.mp hy).1
  have hsize : (b.query input).program.size = b.code.length + 1 := by
    simp [query, alone, Program.size]
  omega

/-- What a way into a block goes on from is not at the end. -/
theorem pc_lt_of_mem_branches {input : Array α} {y z : Site} (hy : y ∈ (b.query input).sites)
    (h : z ∈ (b.query input).branches V y) : y.pc < b.code.length := by
  refine Nat.lt_of_le_of_ne (pc_le_of_mem_sites hy) fun heq => ?_
  rw [Query.branches, heq, instruction?_query_end] at h
  simp at h

omit [CodeUnit α] in
theorem simple_inside : Trail.Simple (inside q s k w) ↔ Trail.Simple w := by
  have hmap : (inside q s k w).map Prod.snd =
      (w.map Prod.snd).map (Site.shift 5) ++ (q.entering s k).map Prod.snd := by
    simp [inside]
  rw [Trail.Simple, hmap, List.nodup_append]
  refine ⟨fun h => h.1.of_map _, fun h => ⟨h.map (Site.shift_injective 5), Query.simple_entering,
    fun x hx y hy heq => ?_⟩⟩
  obtain ⟨x, -, rfl⟩ := List.mem_map.mp hx
  obtain ⟨z, hz, rfl⟩ := List.mem_map.mp hy
  have hlt : (x.shift 5).pc < 5 := heq ▸ Query.pc_lt_of_mem_entering hz
  exact absurd hlt (Nat.not_lt.mpr (Nat.le_add_left 5 x.pc))

omit [CodeUnit α] in
theorem suffix_inside {v : Trail} (h : v <:+ w) : inside q s k v <:+ inside q s k w := by
  obtain ⟨l, rfl⟩ := h
  exact ⟨l.map fun x => (x.1, x.2.shift 5), by simp [inside]⟩

omit [CodeUnit α] in
theorem precedes_inside {v : Trail} (h : v.Precedes w) :
    (inside q s k v).Precedes (inside q s k w) := by
  obtain ⟨c, x, y, hlt, hx, hy⟩ := h
  exact ⟨inside q s k c, (x.1, x.2.shift 5), (y.1, y.2.shift 5), hlt, suffix_inside hx,
    suffix_inside hy⟩

omit [CodeUnit α] in
theorem inside_suffix_ending : inside q s k w <:+ b.ending q s k w := List.suffix_append _ _

variable (hq : q.program = b.unanchored)

include hq

/-- The program does in the block what the block does on its own. -/
theorem branches_inside {y : Site} (hy : y.pc < b.code.length) :
    q.branches V (y.shift 5) = ((b.query q.input).branches U y).map (Site.shift 5) :=
  Query.branches_shift rfl (instruction?_query_of_lt hy) (instruction?_shift hq hy)
    (b.fits _ (List.getElem_mem hy))

theorem onward_inside (hw : ∀ x ∈ w.head?, x.2.pc < b.code.length) :
    q.onward V s (inside q s k w) =
      ((b.query q.input).onward U (s + k) w).map (Site.shift 5) := by
  cases w with
  | nil =>
    have hstart : q.branches V ⟨4, true, s + k⟩ = [⟨5, true, s + k⟩] := by
      simp [Query.branches, instruction?_setStart hq]
    rw [onward_query_nil]
    exact hstart
  | cons x w => exact branches_inside hq (hw x rfl)

theorem branches_stop {y : Site} (hy : y.pc = b.code.length) :
    q.branches V (y.shift 5) = [⟨b.code.length + 6, y.consumed, y.position⟩] := by
  simp [Query.branches, Site.shift, hy, instruction?_setStop hq]

theorem walk_inside (hk : s + k ≤ q.input.size) (h : Walk (b.query q.input) U (s + k) w) :
    Walk q V s (inside q s k w) := by
  have hskips : q.program.SkipsAt 0 := hq ▸ skipsAt_unanchored
  induction h with
  | nil => exact Query.walk_entering hskips hk
  | @cons x w h hx ih =>
    have honward : q.onward V s (inside q s k w) =
        ((b.query q.input).onward U (s + k) w).map (Site.shift 5) := by
      refine onward_inside hq fun y hy => ?_
      obtain ⟨w, rfl⟩ := List.head?_eq_some_iff.mp hy
      exact pc_lt_of_mem_branches (h.mem_sites hk List.mem_cons_self) (List.mem_of_getElem? hx)
    have hgoes : (q.onward V s (inside q s k w))[x.1]? = some (x.2.shift 5) := by
      rw [honward, List.getElem?_map, hx]
      rfl
    exact .cons ih hgoes

/-- **A way through the block is part of a route.** -/
theorem route_ending (hk : s + k ≤ q.input.size) (h : Route (b.query q.input) U (s + k) w) :
    Route q V s (b.ending q s k w) := by
  obtain ⟨x, w, rfl, -⟩ := h.accepts.exists_cons
  have hwalk : Walk q V s (inside q s k (x :: w)) := walk_inside hq hk h.walk
  rw [ending_cons]
  refine ⟨hwalk.only (branches_stop hq (pc_of_route h)), ?_, _, rfl, instruction?_end hq⟩
  -- The way through the block does not go behind its end.
  refine Trail.simple_cons.mpr ⟨fun z hz heq => ?_, simple_inside.mpr h.simple⟩
  have hpc : z.2.pc = b.code.length + 6 := congrArg Site.pc heq
  rw [inside, List.mem_append] at hz
  rcases hz with hz | hz
  · obtain ⟨y, hy, rfl⟩ := List.mem_map.mp hz
    have hle := pc_le_of_mem_sites (h.walk.mem_sites hk hy)
    simp only [Site.shift] at hpc
    omega
  · have hlt := Query.pc_lt_of_mem_entering hz
    omega

/-- **A route that enters the block goes through it.** -/
theorem exists_route_of_inside (hk : s + k ≤ q.input.size) (hr : Route q V s r)
    (hw : Walk (b.query q.input) U (s + k) w) (hwr : inside q s k w <:+ r) :
    ∃ w, Route (b.query q.input) U (s + k) w ∧ r = b.ending q s k w := by
  induction hn : r.length - (inside q s k w).length using Nat.strongRecOn generalizing w with
  | _ n ih =>
    by_cases hends : w.Accepts (b.query q.input)
    · obtain ⟨x, w, rfl, hi⟩ := hends.exists_cons
      have hroute : Route (b.query q.input) U (s + k) (x :: w) :=
        ⟨hw, simple_inside.mp (hr.simple.of_suffix hwr), x, rfl, hi⟩
      have hsuffix : b.ending q s k (x :: w) <:+ r :=
        hr.only hwr (branches_stop hq (pc_of_route hroute))
      exact ⟨_, hroute, ((route_ending hq hk hroute).eq_of_suffix hr hsuffix).symm⟩
    · have hlt : ∀ x ∈ w.head?, x.2.pc < b.code.length := by
        intro x hx
        have hmem : x ∈ w := List.mem_of_mem_head? hx
        refine Nat.lt_of_le_of_ne (pc_le_of_mem_sites (hw.mem_sites hk hmem)) fun hpc => hends ?_
        exact ⟨x, hx, accepts_iff.mpr hpc⟩
      have hgoes : ¬ (inside q s k w).Accepts q := by
        cases w with
        | nil => exact Trail.not_accepts (instruction?_setStart hq) (by simp)
        | cons x w =>
          exact Trail.not_accepts (x := (x.1, x.2.shift 5)) (instruction?_shift hq (hlt x rfl))
            (b.fits _ (List.getElem_mem _)).relocate_ne_accept
      obtain ⟨⟨number, y⟩, hy, hsuffix⟩ := hr.exists_onward hwr hgoes
      rw [onward_inside (U := U) hq hlt, List.getElem?_map] at hy
      obtain ⟨z, hz, rfl⟩ := Option.map_eq_some_iff.mp hy
      have hlength := hsuffix.length_le
      rw [List.length_cons] at hlength
      have hwalk : Walk (b.query q.input) U (s + k) ((number, z) :: w) := .cons hw hz
      refine ih _ ?_ hwalk hsuffix rfl
      have hcons : (inside q s k ((number, z) :: w)).length = (inside q s k w).length + 1 := rfl
      omega

/-- **Every route of the program goes through the block**, from one place or another. -/
theorem exists_eq_ending (hs : s ≤ q.input.size) (hr : Route q V s r) :
    ∃ k w, s + k ≤ q.input.size ∧ Route (b.query q.input) U (s + k) w ∧
      r = b.ending q s k w := by
  obtain ⟨k, hk, henters⟩ :=
    hr.exists_entering (hq ▸ skipsAt_unanchored) (hq ▸ wellLaidOut_unanchored) hs
  obtain ⟨w, hw, heq⟩ := exists_route_of_inside (w := []) hq hk hr .nil henters
  exact ⟨k, w, hk, hw, heq⟩

/-- **The first route begins as early as a way through the block can begin**, and takes the first
way from there. -/
theorem isFirst_ending (hs : s ≤ q.input.size)
    (hk : IsLeast {k | s + k ≤ q.input.size ∧ ∃ w, Route (b.query q.input) U (s + k) w} k)
    (hw : Route.IsFirst (b.query q.input) U (s + k) w) :
    Route.IsFirst q V s (b.ending q s k w) := by
  refine ⟨route_ending hq hk.1.1 hw.route, fun r hr => ?_⟩
  obtain ⟨k', w', hk', hw', rfl⟩ := exists_eq_ending (U := U) hq hs hr
  have hentering : ∀ k w, q.entering s k <:+ b.ending q s k w := fun k w =>
    (List.suffix_append _ _).trans inside_suffix_ending
  rcases Nat.lt_or_eq_of_le (hk.2 ⟨hk', w', hw'⟩) with hlt | rfl
  · exact .inr ((Query.precedes_entering hlt).mono (hentering k w) (hentering k' w'))
  · rcases hw.first w' hw' with rfl | hprecedes
    · exact .inl rfl
    · exact .inr ((precedes_inside hprecedes).mono inside_suffix_ending inside_suffix_ending)

/-! ## What is recorded -/

omit [CodeUnit α] in
theorem getElem?_registersAfter_inside {n : Nat} (hn : n < 2)
    (hw : ∀ x ∈ w, x.2.pc < b.code.length) :
    (q.registersAfter (inside q s k w))[n]? = (q.registersAfter (q.entering s k))[n]? := by
  induction w with
  | nil => rfl
  | cons x w ih =>
    have hx := hw x List.mem_cons_self
    refine (Query.getElem?_carry_of_fits (x := x.2.shift 5) (instruction?_shift hq hx)
      (b.fits _ (List.getElem_mem hx)) hn).trans ?_
    exact ih fun y hy => hw y (List.mem_cons_of_mem _ hy)

omit hq in
/-- A way into a block has gone on from all sites but the last. -/
theorem pc_lt_of_mem_tail {input : Array α} (hs : s ≤ input.size)
    (h : Walk (b.query input) V s (x :: w)) {y : Nat × Site} (hy : y ∈ w) :
    y.2.pc < b.code.length := by
  induction w generalizing x with
  | nil => simp at hy
  | cons z w ih =>
    rcases List.mem_cons.mp hy with rfl | hy
    · exact pc_lt_of_mem_branches (h.tail.mem_sites hs List.mem_cons_self) h.mem_branches
    · exact ih h.tail hy

/-- **Registers 0 and 1 hold where the block began and ended.** -/
theorem span?_registersAfter_ending (hk : s + k ≤ q.input.size)
    (h : Route (b.query q.input) U (s + k) (x :: w)) :
    Registers.span? (q.registersAfter (b.ending q s k (x :: w))) = some ⟨s + k, x.2.position⟩ := by
  have htwo := q.two_le_registerCount
  have hwritten : q.registersAfter (b.ending q s k (x :: w)) =
      (q.registersAfter (inside q s k w)).setIfInBounds 1 (some x.2.position) := by
    have hstop : q.carry (q.registersAfter (inside q s k w)) (x.2.shift 5) =
        (q.registersAfter (inside q s k w)).setIfInBounds 1 (some x.2.position) := by
      simp [Query.carry, Site.shift, pc_of_route h, instruction?_setStop hq]
    rw [← hstop]
    exact Query.carry_eq_self (instruction?_end hq) rfl
  have hstart : (q.registersAfter (inside q s k w))[0]? = some (some (s + k)) := by
    rw [getElem?_registersAfter_inside hq Nat.two_pos fun y => pc_lt_of_mem_tail hk h.walk,
      Query.registersAfter_entering (hq ▸ skipsAt_unanchored)]
    have hzero : 0 < q.registerCount := by omega
    simp [Query.carry, instruction?_setStart hq, hzero]
  have hone : 1 < (q.registersAfter (inside q s k w)).size := by
    rw [Query.size_registersAfter]
    omega
  have hle : s + k ≤ x.2.position := h.walk.start_le List.mem_cons_self
  rw [hwritten, Registers.span?, Registers.position?, Registers.position?,
    Array.getElem?_setIfInBounds_ne Nat.one_ne_zero, hstart,
    Array.getElem?_setIfInBounds_self_of_lt hone]
  simp [Span.ofRegisters?, hle]

end Ways

end Block

end RegexMachine
