import Mathlib.Tactic.Common
import RegexMachine.Query

/-!
# Proofs/Validation — what the checks on a program say about its instructions

`Program.ofCode` and `Query.ofProgram` look at a program once, before anything is run. Read back,
the checks bound every index an instruction can hand to the machine: jump targets and the next
counter (`target_lt`, `next_lt`), the counters at which lookbehinds start (`lt_of_mem_entries`),
lookbehinds (`lookbehind_lt`) and registers (`Query.register_lt`).
-/

namespace RegexMachine

namespace Program

variable (p : Program) {pc : Nat} {i : Instruction}

/-- **No instruction of a program is faulty by itself.** -/
theorem fault_eq_none (h : p.code[pc]? = some i) :
    i.fault? p.size p.lookbehindCount pc = none := by
  have hfault := p.faultless
  rw [faultIn?] at hfault
  split at hfault
  · exact absurd hfault (by simp)
  · have hall := List.findSome?_eq_none_iff.mp (Option.or_eq_none_iff.mp hfault).1
    exact hall (i, pc) (List.mk_mem_zipIdx_iff_getElem?.mpr (by simpa using h))

/-- A program has a last instruction, and it does not go on past the end. -/
theorem exists_last : ∃ last, p.code.back? = some last ∧ last.neverFallsThrough = true := by
  have hfault := p.faultless
  rw [faultIn?] at hfault
  split at hfault
  · exact absurd hfault (by simp)
  · next last hlast =>
    refine ⟨last, hlast, ?_⟩
    have hend := (Option.or_eq_none_iff.mp hfault).2
    by_contra hfalls
    simp [hfalls] at hend

theorem size_pos : 0 < p.size := by
  obtain ⟨last, hlast, -⟩ := p.exists_last
  rw [Array.back?_eq_getElem?] at hlast
  have := (Array.getElem?_eq_some_iff.mp hlast).1
  rw [size]
  omega

theorem lt_size (h : p.code[pc]? = some i) : pc < p.size :=
  (Array.getElem?_eq_some_iff.mp h).1

/-- **A thread that goes on to the next instruction finds one.** -/
theorem next_lt (h : p.code[pc]? = some i) (hi : i.neverFallsThrough = false) :
    pc + 1 < p.size := by
  obtain ⟨last, hlast, hends⟩ := p.exists_last
  have hlt := p.lt_size h
  have hne : pc ≠ p.size - 1 := by
    rintro rfl
    rw [Array.back?_eq_getElem?] at hlast
    obtain rfl : i = last := Option.some.inj (h.symm.trans hlast)
    exact absurd hends (by simp [hi])
  omega

/-- **A jump stays in the program.** -/
theorem target_lt {target : Nat}
    (h : p.code[pc]? = some (.fork target) ∨ p.code[pc]? = some (.jump target)) :
    target < p.size := by
  rcases h with h | h <;>
    · have hfault := p.fault_eq_none h
      by_contra hout
      simp [Instruction.fault?, hout] at hfault

/-- **A lookbehind that is written or read is one of the program's.** -/
theorem lookbehind_lt {index : Nat}
    (h : p.code[pc]? = some (.writeLookbehind index) ∨
      ∃ want, p.code[pc]? = some (.readLookbehind index want)) :
    index < p.lookbehindCount := by
  rcases h with h | ⟨want, h⟩ <;>
    · have hfault := p.fault_eq_none h
      by_contra hout
      simp [Instruction.fault?, hout] at hfault

/-! ## Where lookbehinds start -/

/-- A lookbehind starts right after an instruction that ends a segment. -/
theorem mem_entries {entry : Nat} :
    entry ∈ p.lookbehindEntries ↔
      entry < p.size ∧ ∃ pc i, p.code[pc]? = some i ∧ i.endsSegment = true ∧ entry = pc + 1 := by
  rw [lookbehindEntries, lookbehindEntriesIn, List.mem_filterMap, size]
  constructor
  · rintro ⟨⟨i, next⟩, hmem, hsome⟩
    obtain ⟨hle, hget⟩ := List.mk_mem_zipIdx_iff_le_and_getElem?_sub.mp hmem
    rw [Array.toList_pop, List.getElem?_dropLast] at hget
    have hlt : next - 1 < p.code.size - 1 := by
      by_contra hout
      simp [hout] at hget
    by_cases hends : i.endsSegment = true
    · obtain rfl : next = entry := by simpa [hends] using hsome
      refine ⟨by omega, next - 1, i, ?_, hends, by omega⟩
      simpa [hlt] using hget
    · simp [hends] at hsome
  · rintro ⟨hlt, pc, i, hget, hends, rfl⟩
    refine ⟨(i, pc + 1), List.mk_mem_zipIdx_iff_le_and_getElem?_sub.mpr ⟨by omega, ?_⟩, ?_⟩
    · have hpc : pc < p.code.size - 1 := by omega
      rw [Array.toList_pop, List.getElem?_dropLast]
      simpa [hpc] using hget
    · simp [hends]

theorem lt_of_mem_entries {entry : Nat} (h : entry ∈ p.lookbehindEntries) : entry < p.size :=
  (p.mem_entries.mp h).1

/-- Lookbehinds are listed in the order in which they stand in the program. -/
theorem pairwise_lt_entries : p.lookbehindEntries.Pairwise (· < ·) := by
  have hordered : (p.code.pop.toList.zipIdx 1).Pairwise fun x y => x.2 < y.2 := by
    refine List.pairwise_map.mp ?_
    rw [List.zipIdx_map_snd]
    exact List.pairwise_lt_range'
  refine hordered.filterMap _ fun x y hlt entry hentry entry' hentry' => ?_
  obtain rfl := Option.some.inj (Option.ite_none_right_eq_some.mp hentry).2
  obtain rfl := Option.some.inj (Option.ite_none_right_eq_some.mp hentry').2
  exact hlt

/-! ## Registers -/

variable {registerCount : Nat}

/-- **Registers are enough if there are two, and every one that is written.** -/
theorem registerFault?_eq_none_iff :
    p.registerFault? registerCount = none ↔
      2 ≤ registerCount ∧ ∀ i ∈ p.code, ∀ r ∈ i.register?, r < registerCount := by
  rw [registerFault?]
  split
  · next hfew => simp [Nat.not_le.mpr hfew]
  · next htwo =>
    rw [and_iff_right (Nat.not_lt.mp htwo), List.findSome?_eq_none_iff]
    constructor
    · intro hall i hi r hr
      obtain ⟨pc, hpc⟩ := Array.mem_iff_getElem?.mp hi
      have hnone := hall (i, pc) (List.mk_mem_zipIdx_iff_getElem?.mpr (by simpa using hpc))
      by_contra hout
      simp [Option.mem_def.mp hr, hout] at hnone
    · rintro hall ⟨i, pc⟩ hmem
      have hi : i ∈ p.code := Array.mem_def.mpr (List.fst_mem_of_mem_zipIdx hmem)
      rcases hr : i.register? with _ | r
      · simp [hr]
      · simp [hr, hall i hi r hr]

/-- **A register that is written is one of those that were asked for.** -/
theorem register_lt {r : Nat} (hn : p.registerFault? registerCount = none)
    (h : p.code[pc]? = some i) (hr : i.register? = some r) : r < registerCount :=
  (p.registerFault?_eq_none_iff.mp hn).2 i (Array.mem_of_getElem? h) r hr

theorem two_le_of_registerFault? (hn : p.registerFault? registerCount = none) :
    2 ≤ registerCount :=
  (p.registerFault?_eq_none_iff.mp hn).1

theorem foldl_max_succ_le_iff {registers : List Nat} {init bound : Nat} :
    registers.foldl (fun n r => max n (r + 1)) init ≤ bound ↔
      init ≤ bound ∧ ∀ r ∈ registers, r < bound := by
  induction registers generalizing init with
  | nil => simp
  | cons r registers ih =>
    rw [List.foldl_cons, ih, Nat.max_le, List.forall_mem_cons, and_assoc, Nat.succ_le_iff]

/-- **The smallest number of registers is the least that holds two, and every one that is
written.** -/
theorem minRegisterCount_le_iff :
    p.minRegisterCount ≤ registerCount ↔
      2 ≤ registerCount ∧ ∀ i ∈ p.code, ∀ r ∈ i.register?, r < registerCount := by
  simp only [minRegisterCount, foldl_max_succ_le_iff, List.mem_filterMap, Array.mem_def,
    Option.mem_def]
  exact and_congr_right fun _ =>
    ⟨fun h i hi r hr => h r ⟨i, hi, hr⟩, fun h r ⟨i, hi, hr⟩ => h i hi r hr⟩

/-- **The smallest number of registers suffices.** -/
theorem registerFault?_minRegisterCount : p.registerFault? p.minRegisterCount = none :=
  p.registerFault?_eq_none_iff.mpr (p.minRegisterCount_le_iff.mp (Nat.le_refl _))

end Program

namespace Query

variable {α : Type} (q : Query α) {pc r : Nat}

/-- **A register that is written is one of those every thread has.** -/
theorem register_lt
    (h : q.instruction? pc = some (.setRegister r) ∨ q.instruction? pc = some (.clearRegister r)) :
    r < q.registerCount := by
  rcases h with h | h <;> exact q.program.register_lt q.enough h rfl

/-- Registers 0 and 1 are always there. -/
theorem two_le_registerCount : 2 ≤ q.registerCount :=
  q.program.two_le_of_registerFault? q.enough

end Query

end RegexMachine
