import Mathlib.Tactic.Common
import RegexMachine.Proofs.Validation

/-!
# Proofs/FirstFault — well-formed code is a program, and all other code has a first fault

What a program promises is said here without its checks. `WellFormed` bounds every operand, and
`Instruction.Faulty` is what a single instruction can break. `FirstFault` puts the faults in order:
that of the smallest counter first, and that of a last instruction which goes on past the end only
if there is no other. The checks come to the same, so `Program.ofCode` accepts the well-formed code
as it stands, and reports the first fault of all other code (`ofCode_exact`).
-/

namespace RegexMachine

/-! ## What can be wrong -/

/-- The number of lookbehinds a sequence of instructions has: one behind every instruction that ends
a segment, but for the last one. -/
def tableSizeOf (code : Array Instruction) : Nat := code.pop.countP Instruction.endsSegment

/-- **What is wrong with an instruction by itself**, at a counter of a program of `size`
instructions and `tableSize` lookbehinds. -/
inductive Instruction.Faulty (size tableSize pc : Nat) : Instruction → ProgramError → Prop
  | fork {target : Nat} (h : size ≤ target) :
    Faulty size tableSize pc (.fork target) (.jumpOutOfBounds pc target)
  | jump {target : Nat} (h : size ≤ target) :
    Faulty size tableSize pc (.jump target) (.jumpOutOfBounds pc target)
  | write {index : Nat} (h : tableSize ≤ index) :
    Faulty size tableSize pc (.writeLookbehind index) (.lookbehindOutOfBounds pc index tableSize)
  | read {index : Nat} {want : Bool} (h : tableSize ≤ index) :
    Faulty size tableSize pc (.readLookbehind index want)
      (.lookbehindOutOfBounds pc index tableSize)
  | range {min max : UInt16} (h : max < min) :
    Faulty size tableSize pc (.consume min max) (.emptyRange pc min max)

/-- The instruction at a counter is faulty by itself. -/
def FaultyAt (code : Array Instruction) (pc : Nat) (error : ProgramError) : Prop :=
  ∃ i, code[pc]? = some i ∧ i.Faulty code.size (tableSizeOf code) pc error

/-- Whether an instruction may be the last one. -/
def Instruction.MayBeLast (i : Instruction) : Prop :=
  (∃ target, i = .jump target) ∨ i = .accept ∨ ∃ index, i = .writeLookbehind index

/-- **The first fault of a sequence of instructions.** -/
inductive FirstFault (code : Array Instruction) : ProgramError → Prop
  | empty (h : code = #[]) : FirstFault code .empty
  | faulty {pc : Nat} {error : ProgramError} (h : FaultyAt code pc error)
    (hfirst : ∀ before < pc, ∀ error, ¬ FaultyAt code before error) : FirstFault code error
  | fallsOff {last : Instruction} (hlast : code.back? = some last) (h : ¬ last.MayBeLast)
    (hnone : ∀ pc error, ¬ FaultyAt code pc error) : FirstFault code (.fallsOffEnd (code.size - 1))

/-- **Well-formed code** — every operand is in bounds, no range is empty, and the last instruction
does not go on past the end. -/
structure WellFormed (code : Array Instruction) : Prop where
  ne_empty : code ≠ #[]
  target_lt : ∀ target, .fork target ∈ code ∨ .jump target ∈ code → target < code.size
  index_lt : ∀ index, .writeLookbehind index ∈ code ∨ (∃ want, .readLookbehind index want ∈ code) →
    index < tableSizeOf code
  min_le_max : ∀ min max, .consume min max ∈ code → min ≤ max
  mayBeLast : ∀ last ∈ code.back?, last.MayBeLast

variable {code : Array Instruction} {error : ProgramError}

/-! ## The checks -/

namespace Instruction

variable {size tableSize pc : Nat} {i : Instruction}

theorem endsSegment_iff :
    i.endsSegment = true ↔ i = .accept ∨ ∃ index, i = .writeLookbehind index := by
  cases i <;> simp [endsSegment]

theorem neverFallsThrough_iff : i.neverFallsThrough = true ↔ i.MayBeLast := by
  cases i <;> simp [neverFallsThrough, MayBeLast]

/-- **The check of one instruction finds what is wrong with it.** -/
theorem fault?_eq_some_iff :
    i.fault? size tableSize pc = some error ↔ i.Faulty size tableSize pc error := by
  constructor
  · intro h
    cases i <;> simp only [fault?, reduceCtorEq] at h
    all_goals
      obtain ⟨hout, herror⟩ := Option.ite_none_left_eq_some.mp h
      obtain rfl := Option.some.inj herror
      constructor
      first | exact Nat.not_lt.mp hout | exact UInt16.not_le.mp hout
  · rintro (h | h | h | h | h) <;> simpa [fault?] using h

theorem fault?_eq_none_iff :
    i.fault? size tableSize pc = none ↔ ∀ error, ¬ i.Faulty size tableSize pc error := by
  simp only [Option.eq_none_iff_forall_ne_some, ne_eq, fault?_eq_some_iff]

end Instruction

/-- **The first hit in a numbered list** — no item before it is one. -/
theorem findSome?_zipIdx_eq_some {β γ : Type} {items : List β} {f : β × Nat → Option γ} {c : γ}
    (k : Nat) :
    (items.zipIdx k).findSome? f = some c ↔
      ∃ n b, items[n]? = some b ∧ f (b, k + n) = some c ∧
        ∀ before < n, ∀ b ∈ items[before]?, f (b, k + before) = none := by
  induction items generalizing k with
  | nil => simp
  | cons first items ih =>
    rw [List.zipIdx_cons, List.findSome?_cons]
    rcases hfirst : f (first, k) with _ | c'
    · rw [ih]
      simp only [Nat.add_right_comm k 1]
      constructor
      · rintro ⟨n, b, hb, hc, hnone⟩
        refine ⟨n + 1, b, hb, hc, fun before hlt b hb => ?_⟩
        cases before with
        | zero => rwa [← Option.some.inj hb]
        | succ before => exact hnone before (Nat.lt_of_succ_lt_succ hlt) b hb
      · rintro ⟨n, b, hb, hc, hnone⟩
        cases n with
        | zero => simp [← Option.some.inj hb, hfirst] at hc
        | succ n => exact ⟨n, b, hb, hc, fun before hlt => hnone _ (Nat.succ_lt_succ hlt)⟩
    · constructor
      · rintro ⟨⟩
        exact ⟨0, first, rfl, hfirst, by simp⟩
      · rintro ⟨n, b, hb, hc, hnone⟩
        cases n with
        | zero =>
          obtain rfl : first = b := Option.some.inj hb
          exact hfirst.symm.trans hc
        | succ n => exact absurd (hnone 0 n.succ_pos first rfl) (by simp [hfirst])

theorem length_lookbehindEntriesIn (code : Array Instruction) :
    (lookbehindEntriesIn code).length = tableSizeOf code := by
  have hfirst : (code.pop.toList.zipIdx 1).map Prod.fst = code.pop.toList := List.zipIdx_map_fst ..
  rw [tableSizeOf, ← Array.countP_toList, ← hfirst, List.countP_map, lookbehindEntriesIn,
    List.length_filterMap_eq_countP]
  refine List.countP_congr fun x _ => ?_
  simp

/-- The fault of the smallest counter, of all instructions that are faulty by themselves. -/
def faultAmong? (code : Array Instruction) : Option ProgramError :=
  code.toList.zipIdx.findSome? fun (instruction, pc) =>
    instruction.fault? code.size (tableSizeOf code) pc

theorem faultAmong?_eq_none_iff :
    faultAmong? code = none ↔ ∀ pc error, ¬ FaultyAt code pc error := by
  rw [faultAmong?, List.findSome?_eq_none_iff]
  constructor
  · rintro h pc error ⟨i, hi, hfault⟩
    have hmem : (i, pc) ∈ code.toList.zipIdx := List.mk_mem_zipIdx_iff_getElem?.mpr (by simpa)
    exact Instruction.fault?_eq_none_iff.mp (h _ hmem) error hfault
  · rintro h ⟨i, pc⟩ hmem
    have hi : code[pc]? = some i := by simpa using List.mk_mem_zipIdx_iff_getElem?.mp hmem
    exact Instruction.fault?_eq_none_iff.mpr fun error hfault => h pc error ⟨i, hi, hfault⟩

theorem faultAmong?_eq_some_iff :
    faultAmong? code = some error ↔
      ∃ pc, FaultyAt code pc error ∧ ∀ before < pc, ∀ error, ¬ FaultyAt code before error := by
  simp only [faultAmong?, findSome?_zipIdx_eq_some, Nat.zero_add, Array.getElem?_toList,
    Instruction.fault?_eq_some_iff, Instruction.fault?_eq_none_iff, FaultyAt, not_exists, not_and]
  constructor
  · rintro ⟨pc, i, hi, hfault, hfirst⟩
    exact ⟨pc, ⟨i, hi, hfault⟩, fun before hlt error i hi => hfirst before hlt i hi error⟩
  · rintro ⟨pc, ⟨i, hi, hfault⟩, hfirst⟩
    exact ⟨pc, i, hi, hfault, fun before hlt i hi error => hfirst before hlt error i hi⟩

/-- **The check of a sequence of instructions** — an empty one apart, the faults of instructions
come before that of the end. -/
theorem faultIn?_eq (code : Array Instruction) :
    faultIn? code =
      match code.back? with
      | none => some .empty
      | some last =>
        (faultAmong? code).or
          (if last.neverFallsThrough then none else some (.fallsOffEnd (code.size - 1))) := by
  rw [faultIn?, length_lookbehindEntriesIn]
  rfl

/-- **Code is well formed if it is not empty, no instruction is faulty, and the last may be
last.** -/
theorem wellFormed_iff :
    WellFormed code ↔
      code ≠ #[] ∧ (∀ pc error, ¬ FaultyAt code pc error) ∧
        ∀ last ∈ code.back?, last.MayBeLast := by
  constructor
  · rintro ⟨hne, htarget, hindex, hrange, hlast⟩
    refine ⟨hne, ?_, hlast⟩
    rintro pc error ⟨i, hi, hfault⟩
    have hmem := Array.mem_of_getElem? hi
    cases hfault with
    | fork h => exact Nat.not_lt.mpr h (htarget _ (.inl hmem))
    | jump h => exact Nat.not_lt.mpr h (htarget _ (.inr hmem))
    | write h => exact Nat.not_lt.mpr h (hindex _ (.inl hmem))
    | read h => exact Nat.not_lt.mpr h (hindex _ (.inr ⟨_, hmem⟩))
    | range h => exact UInt16.not_le.mpr h (hrange _ _ hmem)
  · rintro ⟨hne, hnone, hlast⟩
    have hsound : ∀ i ∈ code, ∃ pc, ∀ error, ¬ i.Faulty code.size (tableSizeOf code) pc error := by
      intro i hmem
      obtain ⟨pc, hi⟩ := Array.mem_iff_getElem?.mp hmem
      exact ⟨pc, fun error hfault => hnone pc error ⟨i, hi, hfault⟩⟩
    refine ⟨hne, fun target hmem => ?_, fun index hmem => ?_, fun min max hmem => ?_, hlast⟩
    · rcases hmem with hmem | hmem <;> obtain ⟨pc, hnot⟩ := hsound _ hmem
      · exact Nat.not_le.mp fun h => hnot _ (.fork h)
      · exact Nat.not_le.mp fun h => hnot _ (.jump h)
    · rcases hmem with hmem | ⟨want, hmem⟩ <;> obtain ⟨pc, hnot⟩ := hsound _ hmem
      · exact Nat.not_le.mp fun h => hnot _ (.write h)
      · exact Nat.not_le.mp fun h => hnot _ (.read h)
    · obtain ⟨pc, hnot⟩ := hsound _ hmem
      exact UInt16.not_lt.mp fun h => hnot _ (.range h)

/-- **The checks find no fault in well-formed code, and in no other.** -/
theorem faultIn?_eq_none_iff : faultIn? code = none ↔ WellFormed code := by
  rw [faultIn?_eq, wellFormed_iff, ← faultAmong?_eq_none_iff]
  rcases hlast : code.back? with _ | last
  · simp [Array.back?_eq_none_iff.mp hlast]
  · have hne : code ≠ #[] := fun hempty => by simp [hempty] at hlast
    simp [hne, Instruction.neverFallsThrough_iff]

/-- **The checks find the first fault.** -/
theorem faultIn?_eq_some_iff : faultIn? code = some error ↔ FirstFault code error := by
  rw [faultIn?_eq]
  constructor
  · intro h
    rcases hlast : code.back? with _ | last
    · rw [hlast] at h
      obtain rfl := Option.some.inj h
      exact .empty (Array.back?_eq_none_iff.mp hlast)
    · simp only [hlast] at h
      rcases Option.or_eq_some_iff.mp h with h | ⟨hnone, h⟩
      · obtain ⟨pc, hfault, hfirst⟩ := faultAmong?_eq_some_iff.mp h
        exact .faulty hfault hfirst
      · obtain ⟨hgoes, herror⟩ := Option.ite_none_left_eq_some.mp h
        obtain rfl := Option.some.inj herror
        exact .fallsOff hlast (mt Instruction.neverFallsThrough_iff.mpr hgoes)
          (faultAmong?_eq_none_iff.mp hnone)
  · rintro (hempty | ⟨hfault, hfirst⟩ | ⟨hlast, hgoes, hnone⟩)
    · simp [hempty]
    · have hfound := faultAmong?_eq_some_iff.mpr ⟨_, hfault, hfirst⟩
      obtain ⟨i, hi, -⟩ := hfault
      rcases hlast : code.back? with _ | last
      · simp [Array.back?_eq_none_iff.mp hlast] at hi
      · simp [hfound]
    · rw [← Instruction.neverFallsThrough_iff] at hgoes
      simp [hlast, faultAmong?_eq_none_iff.mpr hnone, hgoes]

/-! ## Programs -/

namespace Program

/-- **A program is made of code without a fault, and of all of it.** -/
theorem ofCode_eq_ok_iff {p : Program} : ofCode code = .ok p ↔ p.code = code := by
  rw [ofCode]
  split
  · next hnone =>
    rw [Except.ok.injEq]
    exact ⟨fun h => h ▸ rfl, fun h => by cases p; cases h; rfl⟩
  · next fault hfault =>
    refine ⟨nofun, fun h => ?_⟩
    rw [← h, p.faultless] at hfault
    cases hfault

theorem ofCode_eq_error_iff : ofCode code = .error error ↔ faultIn? code = some error := by
  rw [ofCode]
  split
  · next hnone => simp [hnone]
  · next fault hfault => simp [hfault]

/-- A lookbehind starts right behind an `accept` or a `writeLookbehind` that is not the last. -/
theorem mem_entries_iff (p : Program) {entry : Nat} :
    entry ∈ p.lookbehindEntries ↔ 1 ≤ entry ∧ entry < p.code.size ∧
      (p.code[entry - 1]? = some .accept ∨
        ∃ index, p.code[entry - 1]? = some (.writeLookbehind index)) := by
  rw [p.mem_entries]
  constructor
  · rintro ⟨hlt, pc, i, hi, hends, rfl⟩
    refine ⟨Nat.succ_pos pc, hlt, ?_⟩
    rw [Nat.add_sub_cancel, hi]
    exact (Instruction.endsSegment_iff.mp hends).imp (congrArg some) fun ⟨index, h⟩ =>
      ⟨index, congrArg some h⟩
  · rintro ⟨hpos, hlt, hends⟩
    refine ⟨hlt, entry - 1, ?_⟩
    rcases hends with hi | ⟨index, hi⟩
    · exact ⟨_, hi, rfl, (Nat.sub_add_cancel hpos).symm⟩
    · exact ⟨_, hi, rfl, (Nat.sub_add_cancel hpos).symm⟩

/-- **Validation is exact, and reports the first fault.**

* A sequence of instructions is accepted exactly if it is well formed.
* It is then kept as it stands. The program has as many lookbehinds as instructions, the last one
  left out, end a segment; they are listed in order, and start right behind these instructions.
* Else the error is the first fault: that of the empty sequence, or the one at the smallest counter
  of a faulty instruction, or, if no instruction is faulty, that of the last one. -/
theorem ofCode_exact (code : Array Instruction) :
    ((∃ p, ofCode code = .ok p) ↔ WellFormed code) ∧
      (∀ p, ofCode code = .ok p →
        p.code = code ∧ p.lookbehindCount = tableSizeOf code ∧
          p.lookbehindEntries.Pairwise (· < ·) ∧
          ∀ entry, entry ∈ p.lookbehindEntries ↔ 1 ≤ entry ∧ entry < code.size ∧
            (code[entry - 1]? = some .accept ∨
              ∃ index, code[entry - 1]? = some (.writeLookbehind index))) ∧
      ∀ error, ofCode code = .error error ↔ FirstFault code error := by
  refine ⟨?_, fun p hp => ?_, fun error => ofCode_eq_error_iff.trans faultIn?_eq_some_iff⟩
  · simp only [ofCode_eq_ok_iff, ← faultIn?_eq_none_iff]
    exact ⟨fun ⟨p, hp⟩ => hp ▸ p.faultless, fun h => ⟨⟨code, h⟩, rfl⟩⟩
  · obtain rfl := ofCode_eq_ok_iff.mp hp
    exact ⟨rfl, length_lookbehindEntriesIn _, p.pairwise_lt_entries, fun _ => p.mem_entries_iff⟩

/-- The program of an expression with two lookbehinds. The first of them writes the second place. -/
def twoLookbehinds : Program :=
  ⟨#[.readLookbehind 0 true, .accept, .consume 0x61 0x61, .writeLookbehind 1, .consume 0x62 0x62,
    .writeLookbehind 0], by decide⟩

/-- That program is accepted. With an empty range and a jump out of bounds, and without its end, the
jump is told, for it comes first. -/
theorem ofCode_exact_two_lookbehinds :
    let broken : Array Instruction :=
      #[.fork 4, .accept, .consume 0x62 0x61, .readLookbehind 0 true]
    ofCode twoLookbehinds.code = .ok twoLookbehinds ∧ WellFormed twoLookbehinds.code ∧
      twoLookbehinds.lookbehindCount = 2 ∧ 2 ∈ twoLookbehinds.lookbehindEntries ∧
      3 ∉ twoLookbehinds.lookbehindEntries ∧
      FirstFault broken (.jumpOutOfBounds 0 4) ∧
      ofCode broken = .error (.jumpOutOfBounds 0 4) ∧ ¬ WellFormed broken := by
  intro broken
  obtain ⟨haccepted, hkept, -⟩ := ofCode_exact twoLookbehinds.code
  obtain ⟨hrefused, -, hfault⟩ := ofCode_exact broken
  have hprogram : ofCode twoLookbehinds.code = .ok twoLookbehinds := rfl
  obtain ⟨-, hcount, -, hentries⟩ := hkept _ hprogram
  have hjump : FaultyAt broken 0 (.jumpOutOfBounds 0 4) := ⟨_, rfl, .fork (by decide)⟩
  have hfirst : FirstFault broken (.jumpOutOfBounds 0 4) :=
    .faulty hjump fun before hlt => absurd hlt (Nat.not_lt_zero before)
  have herror := (hfault _).mpr hfirst
  refine ⟨hprogram, haccepted.mp ⟨_, hprogram⟩, hcount, (hentries 2).mpr ?_, fun h => ?_, hfirst,
    herror, fun h => ?_⟩
  · exact ⟨by decide, by decide, .inl rfl⟩
  · obtain ⟨-, -, h | ⟨index, h⟩⟩ := (hentries 3).mp h <;> cases h
  · obtain ⟨p, hp⟩ := hrefused.mpr h
    rw [herror] at hp
    cases hp

end Program

end RegexMachine
