import Mathlib.Logic.Relation
import RegexMachine.Proofs.Branches

/-!
# Proofs/Layout — programs laid out in segments, and what their lookbehinds are to match

A program is **well laid out** if its main expression ends with its only `accept`, each lookbehind
after it with its only `writeLookbehind`, no jump leaves its segment, and a lookbehind reads only
those of later segments. So no branch leaves a segment (`segmentOf_branch`), and the lookbehinds can
be resolved from the last segment to the first.

A lookbehind matches at a position if some way from its entry, where it stands at the beginning of
the scan, leads to its `writeLookbehind` at that position (`Query.LookbehindMatches`). Which ways
there are depends on the lookbehinds read on them; a table of `Verdicts` that is right about all of
them exists, and there is only one (`exists_isVerdict`, `IsVerdict.unique`).
-/

namespace RegexMachine

/-! ## Segments -/

namespace Program

variable (p : Program)

/-- The number of the segment a counter lies in; that of the main expression is 0. -/
def segmentOf (pc : Nat) : Nat := (p.code.toList.take pc).countP Instruction.endsSegment

end Program

/-- Whether an instruction may stand at a counter of a program that is laid out well. -/
def Instruction.LaidOut (p : Program) (pc : Nat) : Instruction → Prop
  | accept => p.segmentOf pc = 0
  | writeLookbehind index =>
    p.segmentOf pc ≠ 0 ∧ ∀ pc' < p.size, p.code[pc']? = some (writeLookbehind index) → pc' = pc
  | fork target | jump target => p.segmentOf target = p.segmentOf pc
  | readLookbehind index _ =>
    p.segmentOf pc ≠ 0 →
      ∃ pc' < p.size, p.code[pc']? = some (writeLookbehind index) ∧
        p.segmentOf pc < p.segmentOf pc'
  | _ => True

instance (p : Program) (pc : Nat) : (i : Instruction) → Decidable (i.LaidOut p pc)
  | .accept => inferInstanceAs (Decidable (_ = _))
  | .writeLookbehind _ => inferInstanceAs (Decidable (_ ∧ _))
  | .fork _ | .jump _ => inferInstanceAs (Decidable (_ = _))
  | .readLookbehind _ _ => inferInstanceAs (Decidable (_ → _))
  | .consume _ _ | .assert _ | .setRegister _ | .clearRegister _ | .beginLoop | .endLoop =>
    .isTrue trivial

namespace Program

/-- A thread that runs the instruction at one counter can come to the other. -/
def Follows (p : Program) (pc pc' : Nat) : Prop :=
  ∃ i, p.code[pc]? = some i ∧
    (pc' = pc + 1 ∧ i.neverFallsThrough = false ∨ i = .fork pc' ∨ i = .jump pc')

/-- **A main expression and its lookbehinds, one segment after the other.** -/
structure WellLaidOut (p : Program) : Prop where
  laidOut : ∀ x ∈ p.code.toList.zipIdx, x.1.LaidOut p x.2
  /-- The last segment has an end, too. -/
  ends : p.code.back?.any Instruction.endsSegment = true

instance (p : Program) : Decidable p.WellLaidOut :=
  decidable_of_iff
    ((∀ x ∈ p.code.toList.zipIdx, x.1.LaidOut p x.2) ∧
      p.code.back?.any Instruction.endsSegment = true)
    ⟨fun h => ⟨h.1, h.2⟩, fun h => ⟨h.1, h.2⟩⟩

section Segments

variable (p : Program) {pc pc' : Nat} {i : Instruction}

theorem segmentOf_mono (h : pc ≤ pc') : p.segmentOf pc ≤ p.segmentOf pc' :=
  (List.take_sublist_take_left h).countP_le

theorem segmentOf_le (pc : Nat) : p.segmentOf pc ≤ p.size :=
  Nat.le_trans List.countP_le_length (List.length_take_le' pc p.code.toList)

theorem segmentOf_succ (h : p.code[pc]? = some i) :
    p.segmentOf (pc + 1) = p.segmentOf pc + if i.endsSegment then 1 else 0 := by
  have htake : p.code.toList.take (pc + 1) = p.code.toList.take pc ++ [i] := by
    rw [List.take_add_one]
    simp [h]
  rw [segmentOf, htake, List.countP_append, List.countP_singleton]
  rfl

/-- No lookbehind starts in the main expression. -/
theorem segmentOf_entry {entry : Nat} (h : entry ∈ p.lookbehindEntries) :
    p.segmentOf entry ≠ 0 := by
  obtain ⟨-, pc, i, hi, hends, rfl⟩ := p.mem_entries.mp h
  rw [p.segmentOf_succ hi, if_pos hends]
  exact Nat.succ_ne_zero _

/-- The entries of the lookbehinds stand in the order of their segments. -/
theorem pairwise_entries :
    p.lookbehindEntries.Pairwise fun entry entry' => p.segmentOf entry ≤ p.segmentOf entry' :=
  p.pairwise_lt_entries.imp fun hlt => p.segmentOf_mono (Nat.le_of_lt hlt)

end Segments

namespace WellLaidOut

variable {p : Program} {pc pc' target index : Nat} {i : Instruction}

theorem laidOut_at (h : p.WellLaidOut) (hi : p.code[pc]? = some i) : i.LaidOut p pc :=
  h.laidOut (i, pc) (List.mk_mem_zipIdx_iff_getElem?.mpr (by simpa using hi))

/-- Only the main expression accepts. -/
theorem segmentOf_accept (h : p.WellLaidOut) (hi : p.code[pc]? = some .accept) :
    p.segmentOf pc = 0 := h.laidOut_at hi

/-- The main expression is no lookbehind. -/
theorem segmentOf_write (h : p.WellLaidOut) (hi : p.code[pc]? = some (.writeLookbehind index)) :
    p.segmentOf pc ≠ 0 := (h.laidOut_at hi).1

/-- A lookbehind is written at one place only. -/
theorem write_unique (h : p.WellLaidOut) (hi : p.code[pc]? = some (.writeLookbehind index))
    (hi' : p.code[pc']? = some (.writeLookbehind index)) : pc' = pc :=
  (h.laidOut_at hi).2 pc' (p.lt_size hi') hi'

theorem segmentOf_target (h : p.WellLaidOut)
    (hi : p.code[pc]? = some (.fork target) ∨ p.code[pc]? = some (.jump target)) :
    p.segmentOf target = p.segmentOf pc := by
  rcases hi with hi | hi
  · exact h.laidOut_at hi
  · exact h.laidOut_at hi

/-- **No thread leaves its segment.** -/
theorem segmentOf_follows (h : p.WellLaidOut) (hfollows : p.Follows pc pc') :
    p.segmentOf pc' = p.segmentOf pc := by
  obtain ⟨i, hi, ⟨rfl, hgoes⟩ | rfl | rfl⟩ := hfollows
  · have hends : i.endsSegment = false := by
      cases i <;> first | rfl | simp [Instruction.neverFallsThrough] at hgoes
    rw [p.segmentOf_succ hi, hends]
    rfl
  · exact h.segmentOf_target (.inl hi)
  · exact h.segmentOf_target (.inr hi)

/-- **A lookbehind is read by earlier segments only.** -/
theorem segmentOf_read {want : Bool} (h : p.WellLaidOut)
    (hi : p.code[pc]? = some (.readLookbehind index want))
    (hwrite : p.code[pc']? = some (.writeLookbehind index)) :
    p.segmentOf pc < p.segmentOf pc' := by
  by_cases hmain : p.segmentOf pc = 0
  · rw [hmain]
    exact Nat.pos_of_ne_zero (h.segmentOf_write hwrite)
  · obtain ⟨pc'', -, hwrite', hlt⟩ := h.laidOut_at hi hmain
    rwa [h.write_unique hwrite hwrite'] at hlt

end WellLaidOut

end Program

/-! ## What a lookbehind is to match -/

namespace Query

variable {α : Type} [CodeUnit α] (q : Query α) (V : Verdicts)

/-- There is a way from one site to another, of any length and as often through the same sites as
it likes. -/
def Reaches : Site → Site → Prop := Relation.ReflTransGen fun x y => y ∈ q.branches V x

/-- A site that a lookbehind can reach when the scan begins at the position `s`. -/
def Enters (s : Nat) (x : Site) : Prop :=
  ∃ entry ∈ q.program.lookbehindEntries, q.program.segmentOf entry = q.program.segmentOf x.pc ∧
    q.Reaches V ⟨entry, true, s⟩ x

/-- **A lookbehind matches at a position** if it can reach its end there. -/
def LookbehindMatches (s index position : Nat) : Prop :=
  ∃ x : Site, q.instruction? x.pc = some (.writeLookbehind index) ∧ x.position = position ∧
    q.Enters V s x

/-- **Verdicts that are right** — about every lookbehind, given what they say of those it reads. -/
def IsVerdict (s : Nat) (V : Verdicts) : Prop :=
  ∀ index position, V index position = true ↔ q.LookbehindMatches V s index position

end Query

section Verdicts

variable {α : Type} [CodeUnit α] {q : Query α} {V V' : Verdicts} {s index position : Nat}
  {x y z : Site}

namespace Query

/-- **No branch leaves its segment.** -/
theorem segmentOf_branch (hlayout : q.program.WellLaidOut) (h : y ∈ q.branches V x) :
    q.program.segmentOf y.pc = q.program.segmentOf x.pc := by
  obtain ⟨i, hi, hcases, -⟩ := branch_cases h
  exact hlayout.segmentOf_follows ⟨i, hi, hcases⟩

theorem Reaches.segmentOf_eq (hlayout : q.program.WellLaidOut) (h : q.Reaches V x y) :
    q.program.segmentOf y.pc = q.program.segmentOf x.pc := by
  induction h with
  | refl => rfl
  | tail _ hbranch ih => rw [segmentOf_branch hlayout hbranch, ih]

theorem Reaches.position_le (h : q.Reaches V x y) : x.position ≤ y.position := by
  induction h with
  | refl => exact Nat.le_refl _
  | tail _ hbranch ih => exact Nat.le_trans ih (position_branch_le hbranch)

theorem Enters.segmentOf_ne (h : q.Enters V s x) : q.program.segmentOf x.pc ≠ 0 := by
  obtain ⟨entry, hentry, hsegment, -⟩ := h
  rw [← hsegment]
  exact q.program.segmentOf_entry hentry

theorem Enters.branch (hlayout : q.program.WellLaidOut) (h : q.Enters V s x)
    (hbranch : y ∈ q.branches V x) : q.Enters V s y := by
  obtain ⟨entry, hentry, hsegment, hreaches⟩ := h
  exact ⟨entry, hentry, by rw [hsegment, segmentOf_branch hlayout hbranch],
    hreaches.tail hbranch⟩

/-! ## From the last segment to the first -/

theorem branches_congr
    (h : ∀ index want, q.instruction? x.pc = some (.readLookbehind index want) →
      V index x.position = V' index x.position) : q.branches V x = q.branches V' x := by
  rw [branches, branches]
  rcases hi : q.instruction? x.pc with _ | i
  · rfl
  · cases i with
    | readLookbehind index want => simp only [h index want hi]
    | _ => rfl

/-- **Where a site leads depends on the lookbehinds read in its segment only.** -/
theorem Reaches.congr (hlayout : q.program.WellLaidOut)
    (h : ∀ pc index want, q.program.segmentOf pc = q.program.segmentOf x.pc →
      q.instruction? pc = some (.readLookbehind index want) → ∀ position,
      V index position = V' index position)
    (hreaches : q.Reaches V x y) : q.Reaches V' x y := by
  induction hreaches with
  | refl => exact .refl
  | @tail y z hreaches hbranch ih =>
    have heq := Reaches.segmentOf_eq hlayout hreaches
    rw [branches_congr fun index want hi => h y.pc index want heq hi y.position] at hbranch
    exact ih.tail hbranch

/-- Two tables say the same of the lookbehinds behind a segment. -/
def AgreeBehind (q : Query α) (V V' : Verdicts) (segment : Nat) : Prop :=
  ∀ pc index, q.instruction? pc = some (.writeLookbehind index) →
    segment < q.program.segmentOf pc → ∀ position, V index position = V' index position

/-- **Whether a lookbehind matches depends on the lookbehinds behind it only.** -/
theorem lookbehindMatches_congr (hlayout : q.program.WellLaidOut) {pc : Nat}
    (hwrite : q.instruction? pc = some (.writeLookbehind index))
    (h : q.AgreeBehind V V' (q.program.segmentOf pc)) :
    q.LookbehindMatches V s index position ↔ q.LookbehindMatches V' s index position := by
  have hcongr : ∀ {V V'}, q.AgreeBehind V V' (q.program.segmentOf pc) →
      q.LookbehindMatches V s index position → q.LookbehindMatches V' s index position := by
    rintro V V' h ⟨x, hx, hposition, entry, hentry, hsegment, hreaches⟩
    have hpc : x.pc = pc := hlayout.write_unique hwrite hx
    refine ⟨x, hx, hposition, entry, hentry, hsegment, hreaches.congr hlayout ?_⟩
    intro pc' index' want' hsame hread position'
    have hne : q.program.segmentOf pc' ≠ 0 := hsame ▸ q.program.segmentOf_entry hentry
    obtain ⟨pc'', -, hwrite', hlt⟩ := hlayout.laidOut_at hread hne
    rw [hsame, hsegment, hpc] at hlt
    exact h pc'' index' hwrite' hlt position'
  exact ⟨hcongr h, hcongr fun pc index hpc hlt position => (h pc index hpc hlt position).symm⟩

/-- Verdicts that are right about the lookbehinds of the last segments, as many as there are
rounds. -/
noncomputable def verdictsAfter (q : Query α) (s : Nat) : Nat → Verdicts
  | 0 => fun _ _ => false
  | rounds + 1 => fun index position =>
    open Classical in decide (q.LookbehindMatches (q.verdictsAfter s rounds) s index position)

/-- One more round changes nothing in the segments that are done. -/
theorem agreeBehind_verdictsAfter (hlayout : q.program.WellLaidOut) (rounds : Nat) :
    ∀ pc index, q.instruction? pc = some (.writeLookbehind index) →
      q.program.size < q.program.segmentOf pc + rounds → ∀ position,
      q.verdictsAfter s (rounds + 1) index position = q.verdictsAfter s rounds index position := by
  induction rounds with
  | zero =>
    intro pc index _ hlt
    exact absurd (q.program.segmentOf_le pc) (Nat.not_le.mpr hlt)
  | succ rounds ih =>
    intro pc index hwrite hlt position
    rw [verdictsAfter, verdictsAfter]
    refine decide_eq_decide.mpr (lookbehindMatches_congr hlayout hwrite ?_)
    intro pc' index' hwrite' hlt' position'
    exact ih pc' index' hwrite' (by omega) position'

/-- A lookbehind that is not written never matches. -/
theorem exists_write_of_matches (h : q.LookbehindMatches V s index position) :
    ∃ pc, q.instruction? pc = some (.writeLookbehind index) := by
  obtain ⟨x, hx, -⟩ := h
  exact ⟨x.pc, hx⟩

/-- **There are verdicts that are right.** -/
theorem exists_isVerdict (hlayout : q.program.WellLaidOut) (s : Nat) : ∃ V, q.IsVerdict s V := by
  classical
  refine ⟨q.verdictsAfter s (q.program.size + 1), fun index position => ?_⟩
  have hround : q.verdictsAfter s (q.program.size + 2) index position = true ↔
      q.LookbehindMatches (q.verdictsAfter s (q.program.size + 1)) s index position := by
    rw [verdictsAfter, decide_eq_true_iff]
  rw [← hround]
  by_cases hwritten : ∃ pc, q.instruction? pc = some (.writeLookbehind index)
  · obtain ⟨pc, hwrite⟩ := hwritten
    rw [agreeBehind_verdictsAfter hlayout (q.program.size + 1) pc index hwrite (by omega)]
  · have hnever : ∀ rounds, q.verdictsAfter s (rounds + 1) index position = false := by
      intro rounds
      rw [verdictsAfter, decide_eq_false_iff_not]
      exact fun h => hwritten (exists_write_of_matches h)
    rw [hnever, hnever]

/-- **Verdicts that are right are right alike.** -/
theorem IsVerdict.unique (hlayout : q.program.WellLaidOut) (h : q.IsVerdict s V)
    (h' : q.IsVerdict s V') : V = V' := by
  have hagree : ∀ n pc index, q.instruction? pc = some (.writeLookbehind index) →
      q.program.size < q.program.segmentOf pc + n →
      ∀ position, V index position = V' index position := by
    intro n
    induction n with
    | zero =>
      intro pc index _ hlt
      exact absurd (q.program.segmentOf_le pc) (Nat.not_le.mpr hlt)
    | succ n ih =>
      intro pc index hwrite hlt position
      rw [Bool.eq_iff_iff, h, h']
      exact lookbehindMatches_congr hlayout hwrite fun pc' index' hwrite' hlt' position' =>
        ih pc' index' hwrite' (by omega) position'
  funext index position
  by_cases hwritten : ∃ pc, q.instruction? pc = some (.writeLookbehind index)
  · obtain ⟨pc, hwrite⟩ := hwritten
    exact hagree (q.program.size + 1) pc index hwrite (by omega) position
  · rw [Bool.eq_iff_iff, h, h']
    exact ⟨fun hmatches => absurd (exists_write_of_matches hmatches) hwritten,
      fun hmatches => absurd (exists_write_of_matches hmatches) hwritten⟩

end Query

end Verdicts

end RegexMachine
