import Mathlib
import RegexMachine.Proofs.Layout

/-!
# Proofs/Lookbehind — what a thread reads of a lookbehind is right

In a program that is laid out well, threads stand in the order of their segments, those of the last
lookbehind first and those of the main expression last. So when a thread reads a lookbehind, all
threads of that lookbehind have finished with the position.

`Machine.Ordered` is what the order of the threads comes to, with every lookbehind that is recorded
recorded rightly (`right`). `Machine.Watches` is the invariant of a scan. No way of a lookbehind is
lost: every site it can reach from here on has been marked, or a thread is on the way to it
(`covered`, `closed`). What its marked sites say of a lookbehind is recorded (`written`).
-/

namespace RegexMachine

namespace Machine

variable {α : Type} [CodeUnit α] (q : Query α) (V : Verdicts) (s : Nat)

/-- The threads in the order of their priority. -/
def ranking (m : Machine) : List Thread := m.blocked.reverse ++ m.pending

/-- The segment a thread is in. -/
def segment (t : Thread) : Nat := q.program.segmentOf t.pc

/-- **The threads of a scan are in order** — when it began at the position `s`. -/
structure Ordered (m : Machine) : Prop where
  /-- Threads of later segments come first. -/
  sorted : m.ranking.Pairwise fun t u => segment q u ≤ segment q t
  /-- Threads of lookbehinds have come from the entries. -/
  entered : ∀ t ∈ m.ranking, segment q t ≠ 0 → q.Enters V s (m.siteOf t)
  /-- What is recorded of a lookbehind is right. -/
  right : ∀ index, m.matched[index]? = some true → V index m.position = true

/-- **What a scan knows of its lookbehinds** — when it began at the position `s`. -/
structure Watches (m : Machine) : Prop extends m.Ordered q V s where
  /-- No way of a lookbehind is lost. -/
  covered : ∀ x, q.Enters V s x → m.position ≤ x.position →
    m.visits.Marks x ∨ ∃ t ∈ m.ranking, q.Reaches V (m.siteOf t) x
  /-- A thread that has run at a site waits there, or its branches have been or will be run. -/
  closed : ∀ x, q.program.segmentOf x.pc ≠ 0 → x.position = m.position → m.visits.Marks x →
    (∃ t ∈ m.blocked, m.siteOf t = x) ∨
      ∀ y ∈ q.branches V x, m.visits.Marks y ∨ ∃ t ∈ m.pending, m.siteOf t = y
  /-- A lookbehind that has come to its end here is recorded. -/
  written : ∀ x index, x.position = m.position → m.visits.Marks x →
    q.instruction? x.pc = some (.writeLookbehind index) → m.matched[index]? = some true

variable {q} {V} {s} {m m' : Machine} {t u : Thread}

theorem mem_ranking : t ∈ m.ranking ↔ t ∈ m.blocked ∨ t ∈ m.pending := by
  rw [ranking, List.mem_append, List.mem_reverse]

/-! ## Ways of the threads -/

/-- The successors of a thread are in its segment. -/
theorem segment_of_mem_successors (hlayout : q.program.WellLaidOut)
    (hu : u ∈ m.successors q V t) : segment q u = segment q t := by
  obtain ⟨y, hy, rfl⟩ := List.mem_map.mp hu
  exact Query.segmentOf_branch hlayout hy

/-- A blocked thread goes nowhere at this position. -/
theorem eq_of_blocked (hsound : m.Sound q) (ht : t ∈ m.blocked) {x : Site}
    (hreaches : q.Reaches V (m.siteOf t) x) (hx : x.position ≤ m.position) : x = m.siteOf t := by
  rcases Relation.ReflTransGen.cases_head hreaches with heq | ⟨y, hbranch, hreaches⟩
  · exact heq.symm
  · have hle := Query.Reaches.position_le hreaches
    rw [((hsound.awaits t ht).branch hbranch).2] at hle
    exact absurd (Nat.le_trans hle hx) (Nat.not_succ_le_self _)

/-- Reading a unit leaves the successors of all blocked threads. -/
theorem Sound.ranking_read (h : m.Sound q) (hidle : m.isIdle = true)
    (hlt : m.position < q.input.size) :
    (m.read q hlt).ranking = m.blocked.reverse.flatMap (m.successors q V) := by
  have hblocked : (m.read q hlt).blocked = [] := blocked_feed _ _ _
  rw [ranking, hblocked, h.pending_read (V := V) hidle hlt]
  rfl

theorem Sound.exists_successor_read (h : m.Sound q) (hlt : m.position < q.input.size)
    (ht : t ∈ m.blocked) {y : Site} :
    (∃ u ∈ m.successors q V t, (m.read q hlt).siteOf u = y) ↔ y ∈ q.branches V (m.siteOf t) := by
  refine exists_successor_iff fun y hy => ?_
  rw [Machine.read, position_feed]
  exact ((h.awaits t ht).branch hy).2

/-- **No way is lost between two positions.** -/
theorem Sound.exists_reaches_read (h : m.Sound q) (hidle : m.isIdle = true)
    (hlt : m.position < q.input.size) (ht : t ∈ m.ranking) {x : Site}
    (hreaches : q.Reaches V (m.siteOf t) x) (hx : m.position < x.position) :
    ∃ u ∈ (m.read q hlt).ranking, q.Reaches V ((m.read q hlt).siteOf u) x := by
  have ht : t ∈ m.blocked := by
    rw [mem_ranking, isIdle_iff.mp hidle] at ht
    simpa using ht
  rcases Relation.ReflTransGen.cases_head hreaches with rfl | ⟨y, hbranch, hreaches⟩
  · exact absurd hx (Nat.lt_irrefl _)
  · obtain ⟨u, hu, rfl⟩ := (h.exists_successor_read hlt ht).mpr hbranch
    refine ⟨u, ?_, hreaches⟩
    rw [h.ranking_read (V := V) hidle hlt]
    exact List.mem_flatMap.mpr ⟨t, List.mem_reverse.mpr ht, hu⟩

/-! ## The order of the threads -/

namespace Ordered

/-- No thread behind the first that can run is in a later segment. -/
theorem segment_le_head (h : m.Ordered q V s) {rest : List Thread}
    (hpending : m.pending = t :: rest) (hu : u ∈ m.pending) : segment q u ≤ segment q t := by
  have hsorted := (List.pairwise_append.mp h.sorted).2.1
  rw [hpending] at hsorted hu
  rcases List.mem_cons.mp hu with rfl | hu
  · exact Nat.le_refl _
  · exact List.rel_of_pairwise_cons hsorted hu

/-- When the main expression accepts, no lookbehind is running. -/
theorem segment_pending_of_accept (h : m.Ordered q V s) (ht : m.running = some t)
    (hlayout : q.program.WellLaidOut) (hi : q.instruction? t.pc = some .accept)
    (hu : u ∈ m.pending) : segment q u = 0 := by
  have hle := h.segment_le_head (pending_of_some ht) hu
  rw [segment, segment, hlayout.segmentOf_accept hi] at hle
  exact Nat.le_zero.mp hle

/-- **What the machine knows of a lookbehind when it is read is right** — as long as what has
matched here is recorded, unless some thread is still on the way to it. -/
theorem agrees (h : m.Ordered q V s) (hlayout : q.program.WellLaidOut) (hV : q.IsVerdict s V)
    (hsound : m.Sound q)
    (hcovered : ∀ x index, q.instruction? x.pc = some (.writeLookbehind index) → q.Enters V s x →
      x.position = m.position →
      m.matched[index]? = some true ∨ ∃ t ∈ m.ranking, q.Reaches V (m.siteOf t) x) :
    m.Agrees q V := by
  intro t index want hrunning _ hi
  have hlt : index < m.matched.size := by
    rw [hsound.size_matched]
    exact q.program.lookbehind_lt (.inr ⟨want, hi⟩)
  rw [Array.getElem?_eq_getElem hlt, Option.some.injEq]
  rcases hmatched : m.matched[index] with _ | _
  · by_contra hne
    have hverdict : V index m.position = true := by simpa using hne
    obtain ⟨x, hx, hposition, henters⟩ := (hV index m.position).mp hverdict
    rcases hcovered x index hx henters hposition with htrue | ⟨u, hu, hreaches⟩
    · rw [Array.getElem?_eq_getElem hlt, hmatched] at htrue
      simp at htrue
    · rcases mem_ranking.mp hu with hu | hu
      · obtain rfl := eq_of_blocked hsound hu hreaches (Nat.le_of_eq hposition)
        have hwaits := (hsound.awaits u hu).waits hx
        simp [Instruction.waits] at hwaits
      · have hle := h.segment_le_head (pending_of_some hrunning) hu
        have hsegment : q.program.segmentOf x.pc = segment q u :=
          Query.Reaches.segmentOf_eq hlayout hreaches
        have hlater := hlayout.segmentOf_read hi hx
        rw [hsegment] at hlater
        exact absurd hlater (Nat.not_lt.mpr hle)
  · exact (h.right index (by rw [Array.getElem?_eq_getElem hlt, hmatched])).symm

section Turn

variable (h : m.Ordered q V s) (hlayout : q.program.WellLaidOut) (ht : m.running = some t)
  (hturn : Turn q V m t m') (hposition : m'.position = m.position)

include h hlayout ht hturn

theorem sorted_of_turn :
    m'.ranking.Pairwise fun t u => segment q u ≤ segment q t := by
  have hsorted := h.sorted
  rw [ranking, pending_of_some ht] at hsorted
  rcases hturn with ⟨-, hpending, hblocked, -⟩ | ⟨-, -, hpending, hblocked, -⟩ |
    ⟨-, -, hpending, hblocked, -⟩ | ⟨-, -, -, -, hpending, hblocked, -⟩
  all_goals rw [ranking, hpending, hblocked]
  · exact hsorted.sublist (List.Sublist.append_left (List.sublist_cons_self t _) _)
  · simpa using hsorted
  · exact hsorted.sublist (List.Sublist.append_left (List.nil_sublist _) _)
  · have hsegment : ∀ u ∈ m.successors q V t, segment q u = segment q t :=
      fun _ => segment_of_mem_successors hlayout
    obtain ⟨hbefore, hpending', hacross⟩ := List.pairwise_append.mp hsorted
    obtain ⟨hhead, hactive⟩ := List.pairwise_cons.mp hpending'
    refine List.pairwise_append.mpr ⟨hbefore, List.pairwise_append.mpr ⟨?_, hactive, ?_⟩, ?_⟩
    · refine List.pairwise_of_forall_mem_list fun u hu v hv => ?_
      exact Nat.le_of_eq ((hsegment v hv).trans (hsegment u hu).symm)
    · intro u hu v hv
      rw [hsegment u hu]
      exact hhead v hv
    · intro u hu v hv
      rcases List.mem_append.mp hv with hv | hv
      · rw [hsegment v hv]
        exact hacross u hu t List.mem_cons_self
      · exact hacross u hu v (List.mem_cons_of_mem _ hv)

/-- No turn ends a thread of a lookbehind but its own. -/
theorem mem_pending_of_turn (hu : u ∈ m.active) (hsegment : segment q u ≠ 0) : u ∈ m'.pending := by
  refine (hturn.mem_pending hu).resolve_right fun hi => hsegment ?_
  exact h.segment_pending_of_accept ht hlayout hi (by
    rw [pending_of_some ht]
    exact List.mem_cons_of_mem _ hu)

include hposition

theorem entered_of_turn (hu : u ∈ m'.ranking) (hsegment : segment q u ≠ 0) :
    q.Enters V s (m'.siteOf u) := by
  rw [siteOf_congr hposition]
  have hcases : u ∈ m.ranking ∨ m.siteOf u ∈ q.branches V (m.siteOf t) := by
    have hrank : ∀ u, u ∈ m.ranking ↔ u ∈ m.blocked ∨ u = t ∨ u ∈ m.active := fun u => by
      rw [mem_ranking, pending_of_some ht, List.mem_cons]
    rw [mem_ranking] at hu
    rw [hrank]
    rcases hturn with ⟨-, hpending, hblocked, -⟩ | ⟨-, -, hpending, hblocked, -⟩ |
      ⟨-, -, hpending, hblocked, -⟩ | ⟨-, hi, hwaits, -, hpending, hblocked, -⟩
    all_goals rw [hpending, hblocked] at hu
    · exact .inl (hu.imp_right .inr)
    · exact .inl (by simp only [List.mem_cons] at hu; tauto)
    · exact .inl (by simp only [List.not_mem_nil, or_false] at hu; exact .inl hu)
    · rcases hu with hu | hu
      · exact .inl (.inl hu)
      · rcases List.mem_append.mp hu with hu | hu
        · have hstays : ∀ y ∈ q.branches V (m.siteOf t), y.position = m.position :=
            fun _ => Query.position_branch hi hwaits
          exact .inr ((exists_successor_iff hstays).mp ⟨u, hu, rfl⟩)
        · exact .inl (.inr (.inr hu))
  rcases hcases with hu | hbranch
  · exact h.entered u hu hsegment
  · have hsame : segment q u = segment q t := Query.segmentOf_branch hlayout hbranch
    rw [hsame] at hsegment
    have ht' : t ∈ m.ranking :=
      mem_ranking.mpr (.inr (by rw [pending_of_some ht]; exact List.mem_cons_self))
    exact (h.entered t ht' hsegment).branch hlayout hbranch

theorem right_of_turn (hsound : m.Sound q) (hV : q.IsVerdict s V) {index : Nat}
    (hmatched : m'.matched[index]? = some true) : V index m'.position = true := by
  rw [hposition]
  rcases (hturn.matched_iff hsound).mp hmatched with hold | ⟨-, hi⟩
  · exact h.right index hold
  · have ht' : t ∈ m.ranking :=
      mem_ranking.mpr (.inr (by rw [pending_of_some ht]; exact List.mem_cons_self))
    exact (hV index m.position).mpr
      ⟨m.siteOf t, hi, rfl, h.entered t ht' (hlayout.segmentOf_write hi)⟩

end Turn

/-- **A turn keeps the order.** -/
theorem of_turn (h : m.Ordered q V s) (hlayout : q.program.WellLaidOut) (hV : q.IsVerdict s V)
    (hsound : m.Sound q) (ht : m.running = some t) (hturn : Turn q V m t m')
    (hposition : m'.position = m.position) : m'.Ordered q V s where
  sorted := h.sorted_of_turn hlayout ht hturn
  entered := fun _ => h.entered_of_turn hlayout ht hturn hposition
  right := fun _ => h.right_of_turn hlayout ht hturn hposition hsound hV

theorem congr (h : m.Ordered q V s) (hblocked : m'.blocked = m.blocked)
    (hpending : m'.pending = m.pending) (hposition : m'.position = m.position)
    (hmatched : m'.matched = m.matched) : m'.Ordered q V s := by
  have hranking : m'.ranking = m.ranking := by rw [ranking, ranking, hblocked, hpending]
  obtain ⟨hsorted, hentered, hright⟩ := h
  refine ⟨?_, ?_, ?_⟩
  · rwa [hranking]
  · rwa [hranking, siteOf_congr hposition]
  · rwa [hposition, hmatched]

/-- **At the next position the order is the same.** -/
theorem read (h : m.Ordered q V s) (hlayout : q.program.WellLaidOut) (hsound : m.Sound q)
    (hidle : m.isIdle = true) (hlt : m.position < q.input.size) :
    (m.read q hlt).Ordered q V s := by
  have hranking := hsound.ranking_read (V := V) hidle hlt
  refine ⟨?_, fun u hu hne => ?_, fun index hmatched => ?_⟩
  · rw [hranking]
    refine List.pairwise_flatMap.mpr ⟨fun t _ => ?_, ?_⟩
    · refine List.pairwise_of_forall_mem_list fun u hu v hv => ?_
      rw [segment_of_mem_successors hlayout hu, segment_of_mem_successors hlayout hv]
    · refine (List.pairwise_append.mp h.sorted).1.imp fun hle u hu v hv => ?_
      rwa [segment_of_mem_successors hlayout hu, segment_of_mem_successors hlayout hv]
  · rw [hranking] at hu
    obtain ⟨t, ht, hu⟩ := List.mem_flatMap.mp hu
    have ht := List.mem_reverse.mp ht
    have hbranch := (hsound.exists_successor_read hlt ht).mp ⟨u, hu, rfl⟩
    have hsame : segment q u = segment q t := Query.segmentOf_branch hlayout hbranch
    rw [hsame] at hne
    exact (h.entered t (mem_ranking.mpr (.inl ht)) hne).branch hlayout hbranch
  · simp [Machine.read, Machine.advance] at hmatched

end Ordered

/-- A scan begins with the threads in the order of the segments. -/
theorem Sound.ordered_beginScan (h : m.Sound q) : (m.beginScan q).Ordered q V m.position := by
  obtain ⟨pool, -, heq⟩ := h.beginScan_eq
  rw [heq]
  refine ⟨?_, fun t ht hne => ?_, fun index hmatched => ?_⟩
  · have hseeds : (seeds q).Pairwise fun pc pc' =>
        q.program.segmentOf pc ≤ q.program.segmentOf pc' :=
      List.pairwise_cons.mpr ⟨fun pc _ => Nat.zero_le _, q.program.pairwise_entries⟩
    exact List.pairwise_reverse.mpr (List.pairwise_map.mpr hseeds)
  · obtain ⟨pc, hpc, rfl⟩ := List.mem_map.mp (List.mem_reverse.mp ht)
    rcases List.mem_cons.mp hpc with rfl | hentry
    · exact absurd rfl hne
    · exact ⟨pc, hentry, rfl, .refl⟩
  · simp [noneMatched, Array.getElem?_replicate] at hmatched

/-- Every way of a lookbehind begins at a thread the scan begins with. -/
theorem Sound.exists_reaches_beginScan (h : m.Sound q) {x : Site}
    (henters : q.Enters V m.position x) :
    ∃ t ∈ (m.beginScan q).ranking, q.Reaches V ((m.beginScan q).siteOf t) x := by
  obtain ⟨pool, -, heq⟩ := h.beginScan_eq
  rw [heq]
  obtain ⟨entry, hentry, -, hreaches⟩ := henters
  exact ⟨q.seed entry, List.mem_reverse.mpr
    (List.mem_map_of_mem (List.mem_cons_of_mem _ hentry)), hreaches⟩

/-! ## What a scan knows of its lookbehinds -/

namespace Watches

/-- **What the machine knows of a lookbehind when it is read is right.** -/
theorem agrees (hlayout : q.program.WellLaidOut) (hV : q.IsVerdict s V) (hsound : m.Sound q)
    (h : m.Watches q V s) : m.Agrees q V :=
  h.toOrdered.agrees hlayout hV hsound fun x index hx henters hposition =>
    (h.covered x henters (Nat.le_of_eq hposition.symm)).imp_left fun hmarks =>
      h.written x index hposition hmarks hx

/-- **From a marked site on, no way is lost** — following it, one comes to a thread or ends at a
marked site. -/
theorem covered_of_marks (hlayout : q.program.WellLaidOut) (hmarks : m.visits.UpTo m.position)
    (hclosed : ∀ x, q.program.segmentOf x.pc ≠ 0 → x.position = m.position → m.visits.Marks x →
      (∃ t ∈ m.blocked, m.siteOf t = x) ∨
        ∀ y ∈ q.branches V x, m.visits.Marks y ∨ ∃ t ∈ m.pending, m.siteOf t = y)
    {x y : Site} (hreaches : q.Reaches V x y) (hsegment : q.program.segmentOf x.pc ≠ 0)
    (hposition : x.position = m.position) (hx : m.visits.Marks x) :
    m.visits.Marks y ∨ ∃ t ∈ m.ranking, q.Reaches V (m.siteOf t) y := by
  induction hreaches using Relation.ReflTransGen.head_induction_on with
  | refl => exact .inl hx
  | @head x z hbranch hreaches ih =>
    rcases hclosed x hsegment hposition hx with ⟨t, ht, rfl⟩ | hnext
    · exact .inr ⟨t, mem_ranking.mpr (.inl ht), hreaches.head hbranch⟩
    · rcases hnext z hbranch with hz | ⟨t, ht, rfl⟩
      · have hle := hmarks _ _ _ hz
        have hge := Query.position_branch_le hbranch
        refine ih ?_ (by omega) hz
        rwa [Query.segmentOf_branch hlayout hbranch]
      · exact .inr ⟨t, mem_ranking.mpr (.inr ht), hreaches⟩

section Turn

variable (hlayout : q.program.WellLaidOut) (h : m.Watches q V s) (hsound : m.Sound q)
  (hmarks : m.visits.UpTo m.position) (ht : m.running = some t) (hturn : Turn q V m t m')
  (hposition : m'.position = m.position) (hmarks' : m'.visits.UpTo m'.position)

include h ht hturn hlayout hsound hmarks hposition

theorem closed_of_turn {x : Site} (hsegment : q.program.segmentOf x.pc ≠ 0)
    (hx : x.position = m'.position) (hmarks' : m'.visits.Marks x) :
    (∃ u ∈ m'.blocked, m'.siteOf u = x) ∨
      ∀ y ∈ q.branches V x, m'.visits.Marks y ∨ ∃ u ∈ m'.pending, m'.siteOf u = y := by
  rw [siteOf_congr hposition]
  rw [hposition] at hx
  have hpending : ∀ u ∈ m.pending, segment q u ≠ 0 →
      m'.visits.Marks (m.siteOf u) ∨ u ∈ m'.pending := by
    intro u hu hne
    rw [pending_of_some ht] at hu
    rcases List.mem_cons.mp hu with rfl | hactive
    · exact .inl ((hturn.marks_iff hsound ht rfl).mpr (.inl rfl))
    · exact .inr (h.toOrdered.mem_pending_of_turn hlayout ht hturn hactive hne)
  by_cases hold : m.visits.Marks x
  · rcases h.closed x hsegment hx hold with ⟨u, hu, hsite⟩ | hnext
    · exact .inl ⟨u, hturn.mem_blocked hu, hsite⟩
    · refine .inr fun y hy => ?_
      rcases hnext y hy with hy' | ⟨u, hu, rfl⟩
      · have hle := hmarks _ _ _ hy'
        have hge := Query.position_branch_le hy
        exact .inl ((hturn.marks_iff hsound ht (by omega)).mpr (.inr hy'))
      · have hne : segment q u ≠ 0 := by
          rwa [← Query.segmentOf_branch hlayout hy] at hsegment
        exact (hpending u hu hne).imp_right fun hu => ⟨u, hu, rfl⟩
  · -- Only the site of the thread is marked anew.
    obtain rfl := ((hturn.marks_iff hsound ht hx).mp hmarks').resolve_right hold
    rcases hturn.goes_on hold with hblocked | haccept | hgoes
    · exact .inl ⟨t, hblocked, rfl⟩
    · exact absurd (hlayout.segmentOf_accept haccept) hsegment
    · exact .inr fun y hy => .inr (hgoes y hy)

include hmarks' in
theorem covered_of_turn {x : Site} (henters : q.Enters V s x) (hx : m'.position ≤ x.position) :
    m'.visits.Marks x ∨ ∃ u ∈ m'.ranking, q.Reaches V (m'.siteOf u) x := by
  have hx' : m.position ≤ x.position := hposition ▸ hx
  rcases h.covered x henters hx' with hmarks'' | ⟨u, hu, hreaches⟩
  · have hle := hmarks _ _ _ hmarks''
    exact .inl ((hturn.marks_iff hsound ht (by omega)).mpr (.inr hmarks''))
  · have hsegment : segment q u ≠ 0 := by
      have hne := henters.segmentOf_ne
      rwa [Query.Reaches.segmentOf_eq hlayout hreaches] at hne
    rw [← siteOf_congr hposition] at hreaches
    rcases mem_ranking.mp hu with hu | hu
    · exact .inr ⟨u, mem_ranking.mpr (.inl (hturn.mem_blocked hu)), hreaches⟩
    · rw [pending_of_some ht] at hu
      rcases List.mem_cons.mp hu with rfl | hactive
      · refine covered_of_marks hlayout hmarks' (fun x => ?_) hreaches hsegment rfl ?_
        · exact h.closed_of_turn hlayout hsound hmarks ht hturn hposition
        · rw [siteOf_congr hposition]
          exact (hturn.marks_iff hsound ht rfl).mpr (.inl rfl)
      · exact .inr ⟨u, mem_ranking.mpr
          (.inr (h.toOrdered.mem_pending_of_turn hlayout ht hturn hactive hsegment)), hreaches⟩

omit h hlayout hmarks hposition in
theorem written_of_turn (h : m.Watches q V s) (hposition : m'.position = m.position) {x : Site}
    {index : Nat} (hx : x.position = m'.position) (hmarks' : m'.visits.Marks x)
    (hi : q.instruction? x.pc = some (.writeLookbehind index)) :
    m'.matched[index]? = some true := by
  rw [hposition] at hx
  rw [hturn.matched_iff hsound]
  by_cases hold : m.visits.Marks x
  · exact .inl (h.written x index hx hold hi)
  · obtain rfl := ((hturn.marks_iff hsound ht hx).mp hmarks').resolve_right hold
    exact .inr ⟨hold, hi⟩

end Turn

theorem congr (h : m.Watches q V s) (hblocked : m'.blocked = m.blocked)
    (hpending : m'.pending = m.pending) (hposition : m'.position = m.position)
    (hvisits : m'.visits = m.visits) (hmatched : m'.matched = m.matched) : m'.Watches q V s := by
  have hranking : m'.ranking = m.ranking := by rw [ranking, ranking, hblocked, hpending]
  have hsite := siteOf_congr hposition
  obtain ⟨hordered, hcovered, hclosed, hwritten⟩ := h
  refine ⟨hordered.congr hblocked hpending hposition hmatched, ?_, ?_, ?_⟩
  · rwa [hranking, hsite, hposition, hvisits]
  · rwa [hblocked, hpending, hsite, hposition, hvisits]
  · rwa [hposition, hvisits, hmatched]

/-- **A step goes on watching.** -/
theorem step (h : m.Watches q V s) (hlayout : q.program.WellLaidOut) (hV : q.IsVerdict s V)
    (hsound : m.Sound q) (hmarks : m.visits.UpTo m.position)
    (hmarks' : (m.step q).visits.UpTo (m.step q).position) : (m.step q).Watches q V s := by
  have hposition : (m.step q).position = m.position := position_step q m
  rcases ht : m.running with _ | t
  · rcases hactive : m.active with _ | ⟨t, active⟩
    · rwa [step_of_isIdle q (by simp [isIdle, ht, hactive])]
    · rw [step_of_none q ht hactive]
      exact h.congr rfl (by rw [pending_of_some rfl, pending_of_none ht, hactive]) rfl rfl rfl
  · have hturn := hsound.turn (h.agrees hlayout hV hsound) ht
    exact
      { h.toOrdered.of_turn hlayout hV hsound ht hturn hposition with
        covered := fun _ => h.covered_of_turn hlayout hsound hmarks ht hturn hposition hmarks'
        closed := fun _ => h.closed_of_turn hlayout hsound hmarks ht hturn hposition
        written := fun _ _ => written_of_turn hsound ht hturn h hposition }

/-- **At the next position everything begins anew**, but for the ways that lead there. -/
theorem read (h : m.Watches q V s) (hlayout : q.program.WellLaidOut) (hsound : m.Sound q)
    (hmarks : m.visits.UpTo m.position) (hidle : m.isIdle = true)
    (hlt : m.position < q.input.size) : (m.read q hlt).Watches q V s := by
  have hposition : (m.read q hlt).position = m.position + 1 := position_feed _ _ _
  have hvisits : (m.read q hlt).visits = m.visits := visits_feed _ _ _
  have hfresh : ∀ x : Site, x.position = m.position + 1 → ¬ m.visits.Marks x :=
    fun x hx => hmarks.not_has (by omega) _ _
  refine ⟨h.toOrdered.read hlayout hsound hidle hlt, fun x henters hx => ?_,
    fun x _ hx hmarks' => ?_, fun x index hx hmarks' _ => ?_⟩
  · rw [hposition] at hx
    rcases h.covered x henters (Nat.le_of_succ_le hx) with hmarks' | ⟨t, ht, hreaches⟩
    · exact absurd hmarks' (hmarks.not_has hx _ _)
    · exact .inr (hsound.exists_reaches_read hidle hlt ht hreaches hx)
  · rw [hposition] at hx
    rw [hvisits] at hmarks'
    exact absurd hmarks' (hfresh x hx)
  · rw [hposition] at hx
    rw [hvisits] at hmarks'
    exact absurd hmarks' (hfresh x hx)

end Watches

/-- **A scan begins with all lookbehinds at their entries.** -/
theorem Sound.watches_beginScan (h : m.Sound q) : (m.beginScan q).Watches q V m.position := by
  have hvisits : (m.beginScan q).visits = .fresh q.program.size := by
    obtain ⟨pool, -, heq⟩ := h.beginScan_eq
    rw [heq]
  have hfresh : ∀ x : Site, ¬ (m.beginScan q).visits.Marks x := by
    rw [hvisits]
    exact fun x => VisitLog.not_has_fresh _ _ _ _
  exact
    { h.ordered_beginScan with
      covered := fun x henters _ => .inr (h.exists_reaches_beginScan henters)
      closed := fun x _ _ hmarks => absurd hmarks (hfresh x)
      written := fun x _ _ hmarks => absurd hmarks (hfresh x) }

/-- **All through a scan the lookbehinds are watched.** -/
theorem Scanning.watches {m₀ : Machine} (h : Scanning q m₀ m) (h₀ : m₀.Sound q)
    (hlayout : q.program.WellLaidOut) (hV : q.IsVerdict m₀.position V) :
    m.Watches q V m₀.position := by
  induction h with
  | begin => exact h₀.watches_beginScan
  | step h ih => exact ih.step hlayout hV (h.sound h₀) (h.upTo h₀) (h.step.upTo h₀)
  | read h hidle hunsettled hlt ih =>
    exact ih.read hlayout (h.sound h₀) (h.upTo h₀) hidle hlt

/-- Reading a lookbehind goes on or not as the verdict on it says. -/
theorem Sound.running_of_read (hsound : m.Sound q) (hagrees : m.Agrees q V)
    (ht : m.running = some t) (hadmits : m.visits.admits t.pc t.consumed m.position = true)
    {index : Nat} {want : Bool} (hi : q.instruction? t.pc = some (.readLookbehind index want)) :
    (m.step q).running = if V index m.position = want then some t.advance else none := by
  have hmarks : ¬ m.visits.Marks (m.siteOf t) :=
    ((VisitLog.admits_iff hsound.size_visits).mp hadmits).2
  have hmatched : (m.note t).matched[index]? = some (V index m.position) :=
    hagrees t index want ht hmarks hi
  rw [step_of_admitted q ht hadmits hi, Machine.execute, hmatched]
  by_cases hwant : V index m.position = want
  · rw [if_pos (congrArg some hwant), if_pos hwant]
    rfl
  · rw [if_neg fun heq => hwant (Option.some.inj heq), if_neg hwant]
    rfl

end Machine

namespace Search

variable {α : Type} [CodeUnit α]

/-- **Lookbehinds are read right** — in a program that is laid out well, whatever scan of whatever
search, there is exactly one table of verdicts that are right about all lookbehinds, and every
thread that reads a lookbehind goes on just if the verdict on it is the one it wants. -/
theorem read_iff_lookbehindMatches (q : Query α) (hlayout : q.program.WellLaidOut) (position : Nat)
    (calls : List Call) :
    let m₀ := ((start q position).after q calls).machine
    ∃ V, q.IsVerdict m₀.position V ∧ (∀ V', q.IsVerdict m₀.position V' → V' = V) ∧
      ∀ m t index want, Machine.Scanning q m₀ m → m.running = some t →
        m.visits.admits t.pc t.consumed m.position = true →
        q.instruction? t.pc = some (.readLookbehind index want) →
        (m.step q).running = if V index m.position = want then some t.advance else none := by
  intro m₀
  have h₀ : m₀.Sound q := sound_after (sound_start q position) calls
  obtain ⟨V, hV⟩ := Query.exists_isVerdict hlayout m₀.position
  refine ⟨V, hV, fun V' hV' => hV'.unique hlayout hV, fun m t index want hm ht hadmits hi => ?_⟩
  have hsound := hm.sound h₀
  have hagrees := (hm.watches h₀ hlayout hV).agrees hlayout hV hsound
  exact hsound.running_of_read hagrees ht hadmits hi

/-- The expression `(?<=ab)c`, on the input `abc`. -/
def behindAb : Query UInt8 where
  program :=
    ⟨#[.fork 2, .jump 4, .consumeAny, .jump 0, .setRegister 0, .readLookbehind 0 true,
      .consume 0x63 0x63, .setRegister 1, .accept, .fork 11, .jump 13, .consumeAny, .jump 9,
      .consume 0x61 0x61, .consume 0x62 0x62, .writeLookbehind 0], by decide⟩
  registerCount := 2
  enough := by decide
  input := #[0x61, 0x62, 0x63]
  pollInterval := defaultPollInterval

/-- In `abc` the lookbehind of `(?<=ab)c` matches before the `c`, and is read as not matching at the
start. -/
theorem read_behind_ab :
    behindAb.program.WellLaidOut ∧
      ∃ V, behindAb.IsVerdict 0 V ∧ V 0 0 = false ∧ V 0 2 = true := by
  have hlayout : behindAb.program.WellLaidOut := by decide
  obtain ⟨V, hV, -, hread⟩ := read_iff_lookbehindMatches behindAb hlayout 0 []
  refine ⟨hlayout, V, hV, ?_, (hV 0 2).mpr ⟨⟨15, true, 2⟩, rfl, rfl, 9, by decide, by decide, ?_⟩⟩
  · -- Ten steps into the scan the main thread is about to read the lookbehind.
    obtain ⟨m, hscanning, hrunning, hadmits, hstep, hposition⟩ : ∃ m : Machine,
        Machine.Scanning behindAb ((start behindAb 0).after behindAb []).machine m ∧
          m.running = some ⟨5, #[some 0, none], true⟩ ∧
          m.visits.admits 5 true m.position = true ∧ (m.step behindAb).running = none ∧
          m.position = 0 :=
      ⟨(Machine.step behindAb)^[10]
          (((start behindAb 0).after behindAb []).machine.beginScan behindAb),
        Machine.Scanning.begin.iterate 10, by cbv, by cbv, by cbv, by cbv⟩
    have hgoes := hread m _ 0 true hscanning hrunning hadmits rfl
    rw [hstep, hposition] at hgoes
    simpa using hgoes
  · have h₁ : behindAb.Reaches V ⟨9, true, 0⟩ ⟨10, true, 0⟩ := .single (.head _)
    have h₂ : behindAb.Reaches V ⟨9, true, 0⟩ ⟨13, true, 0⟩ := h₁.tail (.head _)
    have h₃ : behindAb.Reaches V ⟨9, true, 0⟩ ⟨14, true, 1⟩ := h₂.tail (.head _)
    exact h₃.tail (.head _)

end Search

end RegexMachine
