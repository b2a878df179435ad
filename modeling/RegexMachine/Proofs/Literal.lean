import RegexMachine.Proofs.Unanchored
import RegexMachine.Regex

/-!
# Proofs/Literal — the program that looks for a unit behind a literal

`Regex.behind w c` is `(?<=w)c`, for any word `w` and unit `c`. Its lookbehind may begin anywhere
(`floats_behind`), and the body of the lookbehind matches just where `w` occurs
(`bodyMatches_behind_iff`).
-/

namespace RegexMachine

/-! ## The program -/

namespace Instruction

/-- The code of `(?<=w)c` up to the units of `w`: a loop, the expression, and the loop of the
lookbehind. -/
def beforeLiteral (c : UInt16) : List Instruction :=
  [fork 2, jump 4, consumeAny, jump 0, setRegister 0, readLookbehind 0 true, consumeUnit c,
    setRegister 1, accept, fork 11, jump 13, consumeAny, jump 9]

/-- The code of `(?<=w)c`. -/
def behindLiteral (w : List UInt16) (c : UInt16) : List Instruction :=
  beforeLiteral c ++ (w.map consumeUnit ++ [writeLookbehind 0])

variable {w : List UInt16} {c : UInt16} {pc : Nat} {i : Instruction}

theorem length_behindLiteral : (behindLiteral w c).length = w.length + 14 := by
  simp [behindLiteral, beforeLiteral]

theorem length_beforeLiteral : (beforeLiteral c).length = 13 := rfl

theorem getElem?_behindLiteral_of_lt (h : pc < 13) :
    (behindLiteral w c)[pc]? = (beforeLiteral c)[pc]? :=
  List.getElem?_append_left h

theorem getElem?_behindLiteral_unit {k : Nat} (h : k < w.length) :
    (behindLiteral w c)[13 + k]? = some (consumeUnit w[k]) := by
  rw [behindLiteral, List.getElem?_append_right (Nat.le_add_right 13 k), length_beforeLiteral,
    Nat.add_sub_cancel_left, List.getElem?_append_left (by simpa using h)]
  simp [h]

theorem getElem?_behindLiteral_end :
    (behindLiteral w c)[13 + w.length]? = some (writeLookbehind 0) := by
  rw [behindLiteral, List.getElem?_append_right (Nat.le_add_right 13 _), length_beforeLiteral,
    Nat.add_sub_cancel_left, List.getElem?_append_right (by simp)]
  simp

/-- What stands at a counter. -/
theorem cases_behindLiteral (h : (behindLiteral w c)[pc]? = some i) :
    (pc < 13 ∧ (beforeLiteral c)[pc]? = some i) ∨ (∃ u, i = consumeUnit u) ∨
      pc = 13 + w.length ∧ i = writeLookbehind 0 := by
  rcases Nat.lt_or_ge pc 13 with hlt | hge
  · exact .inl ⟨hlt, by rwa [getElem?_behindLiteral_of_lt hlt] at h⟩
  · obtain ⟨k, rfl⟩ := Nat.exists_eq_add_of_le hge
    have hk : k < w.length + 1 := by
      have hlt := (List.getElem?_eq_some_iff.mp h).1
      rw [length_behindLiteral] at hlt
      omega
    rcases Nat.lt_succ_iff_lt_or_eq.mp hk with hk | rfl
    · rw [getElem?_behindLiteral_unit hk] at h
      exact .inr (.inl ⟨_, (Option.some.inj h).symm⟩)
    · rw [getElem?_behindLiteral_end] at h
      exact .inr (.inr ⟨rfl, (Option.some.inj h).symm⟩)

theorem eq_of_getElem?_behindLiteral {index : Nat}
    (h : (behindLiteral w c)[pc]? = some (writeLookbehind index)) : pc = 13 + w.length := by
  rcases cases_behindLiteral h with ⟨hlt, hi⟩ | ⟨u, hi⟩ | ⟨hpc, -⟩
  · interval_cases pc <;> exact absurd (Option.some.inj hi) (by simp [consumeAny, consumeUnit])
  · exact absurd hi (by simp [consumeUnit])
  · exact hpc

theorem lookbehindEntriesIn_behindLiteral :
    lookbehindEntriesIn (behindLiteral w c).toArray = [9] := by
  have hunits : ∀ (w : List UInt16) (n : Nat), ((w.map consumeUnit).zipIdx n).filterMap
      (fun x => if x.1.endsSegment then some x.2 else none) = [] := by
    intro w n
    rw [List.filterMap_eq_nil_iff]
    rintro ⟨i, pc⟩ hmem
    obtain ⟨u, -, rfl⟩ := List.mem_map.mp (List.fst_mem_of_mem_zipIdx hmem)
    rfl
  have hpop : (behindLiteral w c).dropLast = beforeLiteral c ++ w.map consumeUnit := by
    rw [behindLiteral, ← List.append_assoc, List.dropLast_concat]
  rw [lookbehindEntriesIn, Array.toList_pop, List.toList_toArray, hpop, List.zipIdx_append,
    List.filterMap_append, hunits]
  rfl

theorem faultIn?_behindLiteral : faultIn? (behindLiteral w c).toArray = none := by
  have hlast : (behindLiteral w c).toArray.back? = some (writeLookbehind 0) := by
    simp [behindLiteral]
  have hfault : ∀ x ∈ (behindLiteral w c).zipIdx,
      x.1.fault? (w.length + 14) 1 x.2 = none := by
    rintro ⟨i, pc⟩ hmem
    rw [List.mk_mem_zipIdx_iff_getElem?] at hmem
    rcases cases_behindLiteral hmem with ⟨hlt, hi⟩ | ⟨u, rfl⟩ | ⟨-, rfl⟩
    · interval_cases pc <;> obtain rfl := Option.some.inj hi <;>
        simp [fault?, consumeAny, consumeUnit]
    · simp [fault?, consumeUnit]
    · simp [fault?]
  rw [faultIn?, hlast, lookbehindEntriesIn_behindLiteral]
  simp only [List.size_toArray, length_behindLiteral, Option.or_eq_none_iff]
  exact ⟨List.findSome?_eq_none_iff.mpr hfault, rfl⟩

/-- The lookbehind is behind the main expression, and both are of one segment each. -/
theorem countP_take_behindLiteral (h : pc ≤ 13 + w.length) :
    ((behindLiteral w c).take pc).countP endsSegment = if pc ≤ 8 then 0 else 1 := by
  have hmono : ∀ {m n : Nat}, m ≤ n → ((behindLiteral w c).take m).countP endsSegment ≤
      ((behindLiteral w c).take n).countP endsSegment :=
    fun h => (List.take_sublist_take_left h).countP_le
  have hunits : (w.map consumeUnit).countP endsSegment = 0 := by
    rw [List.countP_map]
    exact List.countP_eq_zero.mpr fun _ _ => Bool.false_ne_true
  have hall : ((behindLiteral w c).take (13 + w.length)).countP endsSegment = 1 := by
    have htake : (behindLiteral w c).take (13 + w.length) =
        beforeLiteral c ++ w.map consumeUnit := by
      rw [behindLiteral, ← List.append_assoc]
      exact List.take_left' (by simp [length_beforeLiteral])
    rw [htake, List.countP_append, hunits]
    rfl
  split
  · next hle => exact Nat.le_zero.mp (hmono hle)
  · next hgt => exact Nat.le_antisymm (hall ▸ hmono h) (hmono (Nat.lt_of_not_le hgt))

end Instruction

/-- The regex `(?<=w)c`. -/
def Regex.behind (w : List UInt16) (c : UInt16) : Regex where
  program := ⟨(Instruction.behindLiteral w c).toArray, Instruction.faultIn?_behindLiteral⟩
  registerCount := 2
  enough := by
    rw [Program.registerFault?, if_neg (Nat.lt_irrefl 2)]
    refine List.findSome?_eq_none_iff.mpr ?_
    rintro ⟨i, pc⟩ hmem
    rw [List.mk_mem_zipIdx_iff_getElem?] at hmem
    rcases Instruction.cases_behindLiteral hmem with ⟨hlt, hi⟩ | ⟨u, rfl⟩ | ⟨-, rfl⟩
    · interval_cases pc <;> obtain rfl := Option.some.inj hi <;> rfl
    · rfl
    · rfl
  pollInterval := defaultPollInterval

namespace Regex

variable {w : List UInt16} {c : UInt16} {pc : Nat}

theorem segmentOf_behind (h : pc ≤ 13 + w.length) :
    (behind w c).program.segmentOf pc = if pc ≤ 8 then 0 else 1 :=
  Instruction.countP_take_behindLiteral h

theorem wellLaidOut_behind : (behind w c).program.WellLaidOut where
  laidOut := by
    rintro ⟨i, pc⟩ hmem
    rw [List.mk_mem_zipIdx_iff_getElem?] at hmem
    rcases Instruction.cases_behindLiteral hmem with ⟨hlt, hi⟩ | ⟨u, rfl⟩ | ⟨rfl, rfl⟩
    · have hsegment : ∀ {pc}, pc ≤ 13 →
          (behind w c).program.segmentOf pc = if pc ≤ 8 then 0 else 1 :=
        fun h => segmentOf_behind (Nat.le_add_right_of_le h)
      interval_cases pc <;> obtain rfl := Option.some.inj hi <;>
        simp [Instruction.LaidOut, Instruction.consumeAny, Instruction.consumeUnit, hsegment]
    · trivial
    · refine ⟨?_, fun pc _ hwrite => Instruction.eq_of_getElem?_behindLiteral (by
        simpa [behind] using hwrite)⟩
      rw [segmentOf_behind (Nat.le_refl _), if_neg (by omega)]
      exact Nat.one_ne_zero
  ends := by simp [behind, Instruction.behindLiteral, Instruction.endsSegment]

theorem lookbehindEntries_behind : (behind w c).program.lookbehindEntries = [9] :=
  Instruction.lookbehindEntriesIn_behindLiteral

/-- The expression may match anywhere. -/
theorem skipsAt_behind : (behind w c).program.SkipsAt 0 where
  fork := rfl
  enter := rfl
  skip := rfl
  back := rfl

/-- **So may its lookbehind.** -/
theorem floats_behind : (behind w c).program.Floats where
  layout := wellLaidOut_behind
  skips entry hentry := by
    rw [lookbehindEntries_behind, List.mem_singleton] at hentry
    subst hentry
    exact ⟨rfl, rfl, rfl, rfl⟩
  plain := by
    rintro ⟨i, pc⟩ hmem hsegment
    rw [List.mk_mem_zipIdx_iff_getElem?] at hmem
    rcases Instruction.cases_behindLiteral hmem with ⟨hlt, hi⟩ | ⟨u, rfl⟩ | ⟨-, rfl⟩
    · interval_cases pc <;> obtain rfl := Option.some.inj hi <;>
        first | rfl | exact absurd rfl hsegment
    · rfl
    · rfl

end Regex

/-! ## Occurrences -/

section Occurrences

variable {α : Type} [CodeUnit α]

/-- **A word occurs in an input** at the units from `start` on. -/
def OccursAt (w : List UInt16) (input : Array α) (start : Nat) : Prop :=
  w <+: (input.toList.map CodeUnit.word).drop start

instance (w : List UInt16) (input : Array α) (start : Nat) : Decidable (OccursAt w input start) :=
  inferInstanceAs (Decidable (_ <+: _))

variable {w : List UInt16} {c : UInt16} {input : Array α} {start : Nat}

theorem occursAt_nil : OccursAt [] input start := List.nil_prefix

theorem occursAt_concat : OccursAt (w ++ [c]) input start ↔
    OccursAt w input start ∧ input[start + w.length]?.map CodeUnit.word = some c := by
  have hget : ∀ k, ((input.toList.map CodeUnit.word).drop start)[k]? =
      input[start + k]?.map CodeUnit.word := by simp
  rw [← hget]
  constructor
  · intro h
    refine ⟨(List.prefix_append w [c]).trans h, ?_⟩
    simpa using List.prefix_iff_getElem?.mp h w.length (by simp)
  · rintro ⟨⟨rest, hrest⟩, hc⟩
    rw [OccursAt, ← hrest, List.prefix_append_right_inj]
    rw [← hrest, List.getElem?_append_right (Nat.le_refl _), Nat.sub_self] at hc
    cases rest with
    | nil => simp at hc
    | cons u rest =>
      obtain rfl : u = c := by simpa using hc
      exact ⟨rest, rfl⟩

/-- What occurs lies within the input. -/
theorem OccursAt.le_size (h : OccursAt (w ++ [c]) input start) :
    start + w.length < input.size := by
  by_contra hle
  have hc := (occursAt_concat.mp h).2
  rw [Array.getElem?_eq_none (by omega)] at hc
  simp at hc

end Occurrences

/-! ## The body of the lookbehind -/

namespace Query

variable {α : Type} [CodeUnit α] {q : Query α} {V : Verdicts} {x y : Site}

/-- A thread that waits for a given unit goes on if that is the next one. -/
theorem branches_consumeUnit {u : UInt16} (hi : q.instruction? x.pc = some (.consumeUnit u)) :
    q.branches V x = if q.input[x.position]?.map CodeUnit.word = some u then
      [⟨x.pc + 1, true, x.position + 1⟩] else [] := by
  rw [branches, hi, Instruction.consumeUnit]
  rcases q.input[x.position]? with _ | unit
  · rfl
  · simp only [Option.map_some, Option.some.injEq, ← UInt16.le_antisymm_iff, eq_comm]

/-- The query for `(?<=w)c` in an input. -/
abbrev behind (w : List UInt16) (c : UInt16) (input : Array α) : Query α :=
  (Regex.behind w c).query input

variable {w : List UInt16} {c : UInt16} {input : Array α} {start stop : Nat}

omit [CodeUnit α] in
theorem instruction?_behind (pc : Nat) :
    (behind w c input).instruction? pc = (Instruction.behindLiteral w c)[pc]? := by
  simp [instruction?, Regex.query, Regex.behind]

/-- Behind the loop the lookbehind follows the units of the literal. -/
theorem reaches_behind_iff :
    (behind w c input).Reaches V ⟨13, true, start⟩ x ↔
      ∃ k ≤ w.length, x = ⟨13 + k, true, start + k⟩ ∧ OccursAt (w.take k) input start := by
  have hbranches : ∀ k (h : k < w.length),
      (behind w c input).branches V ⟨13 + k, true, start + k⟩ =
        if input[start + k]?.map CodeUnit.word = some w[k] then
          [⟨13 + (k + 1), true, start + (k + 1)⟩] else [] := fun k h =>
    branches_consumeUnit ((instruction?_behind _).trans (Instruction.getElem?_behindLiteral_unit h))
  have htake : ∀ k (h : k < w.length), OccursAt (w.take (k + 1)) input start ↔
      OccursAt (w.take k) input start ∧ input[start + k]?.map CodeUnit.word = some w[k] := by
    intro k h
    rw [← List.take_append_getElem h, occursAt_concat, List.length_take_of_le (Nat.le_of_lt h)]
  constructor
  · intro hreaches
    induction hreaches with
    | refl => exact ⟨0, Nat.zero_le _, rfl, occursAt_nil⟩
    | tail _ hbranch ih =>
      obtain ⟨k, hk, rfl, hoccurs⟩ := ih
      rcases Nat.lt_or_eq_of_le hk with hlt | rfl
      · rw [hbranches k hlt] at hbranch
        split at hbranch
        · next hunit =>
          obtain rfl := List.mem_singleton.mp hbranch
          exact ⟨k + 1, hlt, rfl, (htake k hlt).mpr ⟨hoccurs, hunit⟩⟩
        · simp at hbranch
      · simp [branches, instruction?_behind, Instruction.getElem?_behindLiteral_end] at hbranch
  · rintro ⟨k, hk, rfl, hoccurs⟩
    induction k with
    | zero => exact .refl
    | succ k ih =>
      obtain ⟨hoccurs, hunit⟩ := (htake k hk).mp hoccurs
      refine (ih (Nat.le_of_lt hk) hoccurs).tail ?_
      rw [hbranches k hk, if_pos hunit]
      exact List.mem_singleton_self _

/-- **The body of the lookbehind matches where the literal occurs.** -/
theorem bodyMatches_behind_iff :
    (behind w c input).BodyMatches 0 start stop ↔
      start + w.length = stop ∧ OccursAt w input start := by
  constructor
  · rintro ⟨entry, hentry, x, hi, rfl, -, hreaches⟩
    obtain rfl : entry = 9 := by
      have hentries : entry ∈ (Regex.behind w c).program.lookbehindEntries := hentry
      rwa [Regex.lookbehindEntries_behind, List.mem_singleton] at hentries
    obtain ⟨k, hk, rfl, hoccurs⟩ := reaches_behind_iff.mp hreaches
    rw [instruction?_behind] at hi
    obtain rfl : k = w.length :=
      Nat.add_left_cancel (Instruction.eq_of_getElem?_behindLiteral hi)
    exact ⟨rfl, by rwa [List.take_length] at hoccurs⟩
  · rintro ⟨rfl, hoccurs⟩
    have hsegment : (Regex.behind w c).program.segmentOf 9 =
        (Regex.behind w c).program.segmentOf (13 + w.length) := by
      rw [Regex.segmentOf_behind (by omega), Regex.segmentOf_behind (Nat.le_refl _),
        if_neg (by omega), if_neg (by omega)]
    refine ⟨9, ?_, ⟨13 + w.length, true, start + w.length⟩, ?_, rfl, hsegment, ?_⟩
    · exact Regex.lookbehindEntries_behind ▸ List.mem_singleton_self 9
    · exact (instruction?_behind _).trans Instruction.getElem?_behindLiteral_end
    · exact reaches_behind_iff.mpr ⟨w.length, Nat.le_refl _, rfl, by rwa [List.take_length]⟩

end Query

end RegexMachine
