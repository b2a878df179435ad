import RegexMachine.Proofs.Literal

/-!
# Proofs/Behind — which units behind a literal a search finds

All routes of `(?<=w)c` are alike: they skip some units, look behind and take the unit
(`Query.eq_finding_of_route`). So a scan ends with the first occurrence of `w` and `c` that begins
in it (`best_scan_behind`). The next scan begins behind the match, and does not see an occurrence
that has begun before.

`lookbehinds_see_back_to_scan` says so for all lookbehinds that may begin anywhere, one read at a
time, and for `(?<=w)c` match by match.
-/

namespace RegexMachine

section Routes

variable {α : Type} [CodeUnit α] {w : List UInt16} {c : UInt16} {input : Array α} {V : Verdicts}
  {s j k : Nat} {r : Trail}

namespace Query

/-! ## Routes -/

/-- The trail that finds the unit after it has skipped `k` units. -/
def finding (w : List UInt16) (c : UInt16) (input : Array α) (s k : Nat) : Trail :=
  (0, ⟨8, true, s + k + 1⟩) :: (0, ⟨7, true, s + k + 1⟩) :: (0, ⟨6, true, s + k⟩) ::
    (0, ⟨5, true, s + k⟩) :: (behind w c input).entering s k

theorem branches_setStart : (behind w c input).branches V ⟨4, true, j⟩ = [⟨5, true, j⟩] := rfl

theorem branches_lookBehind : (behind w c input).branches V ⟨5, true, j⟩ =
    if V 0 j = true then [⟨6, true, j⟩] else [] := rfl

theorem branches_unit : (behind w c input).branches V ⟨6, true, j⟩ =
    if input[j]?.map CodeUnit.word = some c then [⟨7, true, j + 1⟩] else [] :=
  branches_consumeUnit (x := ⟨6, true, j⟩) rfl

theorem branches_setStop : (behind w c input).branches V ⟨7, true, j⟩ = [⟨8, true, j⟩] := rfl

/-- What has to hold where the unit is found. -/
def FoundAt (c : UInt16) (input : Array α) (V : Verdicts) (position : Nat) : Prop :=
  V 0 position = true ∧ input[position]?.map CodeUnit.word = some c

theorem FoundAt.lt_size {position : Nat} (h : FoundAt c input V position) :
    position < input.size := by
  by_contra hge
  have hc := h.2
  rw [Array.getElem?_eq_none (Nat.le_of_not_lt hge)] at hc
  simp at hc

omit [CodeUnit α] in
theorem precedes_finding {k' : Nat} (h : k < k') :
    (finding w c input s k).Precedes (finding w c input s k') :=
  (precedes_entering h).mono ⟨[_, _, _, _], rfl⟩ ⟨[_, _, _, _], rfl⟩

omit [CodeUnit α] in
theorem simple_finding : Trail.Simple (finding w c input s k) := by
  -- The counters grow along the trail.
  have hnext : ∀ {x : Nat × Site} {w : Trail}, w.Simple → (∀ z ∈ w, z.2.pc < x.2.pc) →
      Trail.Simple (x :: w) := by
    intro x w hw hlt
    refine Trail.simple_cons.mpr ⟨fun z hz heq => ?_, hw⟩
    exact absurd (congrArg Site.pc heq) (Nat.ne_of_lt (hlt z hz))
  have hlt : ∀ pc, 5 ≤ pc → ∀ z ∈ (behind w c input).entering s k, z.2.pc < pc :=
    fun pc hpc z hz => Nat.lt_of_lt_of_le (pc_lt_of_mem_entering hz) hpc
  refine hnext (hnext (hnext (hnext simple_entering ?_) ?_) ?_) ?_
  · exact fun _ => pc_lt_of_mem_entering
  · simpa using hlt 6 (by omega)
  · simpa using hlt 7 (by omega)
  · simpa using hlt 8 (by omega)

omit [CodeUnit α] in
theorem registersAfter_finding :
    (behind w c input).registersAfter (finding w c input s k) =
      #[some (s + k), some (s + k + 1)] := by
  have hentering := registersAfter_entering (s := s) (k := k)
    (q := behind w c input) Regex.skipsAt_behind
  simp only [finding, registersAfter, List.foldr_cons] at hentering ⊢
  rw [hentering]
  rfl

theorem route_finding (hk : s + k ≤ input.size) (h : FoundAt c input V (s + k)) :
    Route (behind w c input) V s (finding w c input s k) := by
  have hstart : (behind w c input).branches V ⟨4, true, s + k⟩ = [⟨5, true, s + k⟩] :=
    branches_setStart
  have hlook : (behind w c input).branches V ⟨5, true, s + k⟩ = [⟨6, true, s + k⟩] :=
    branches_lookBehind.trans (if_pos h.1)
  have hunit : (behind w c input).branches V ⟨6, true, s + k⟩ = [⟨7, true, s + k + 1⟩] :=
    branches_unit.trans (if_pos h.2)
  have hstop : (behind w c input).branches V ⟨7, true, s + k + 1⟩ = [⟨8, true, s + k + 1⟩] :=
    branches_setStop
  have hwalk : Walk (behind w c input) V s ((behind w c input).entering s k) :=
    walk_entering Regex.skipsAt_behind hk
  exact ⟨(((hwalk.only hstart).only hlook).only hunit).only hstop, simple_finding, _, rfl, rfl⟩

/-- **A route finds the unit somewhere.** -/
theorem eq_finding_of_route (hs : s ≤ input.size) (hr : Route (behind w c input) V s r) :
    ∃ k, r = finding w c input s k ∧ FoundAt c input V (s + k) := by
  obtain ⟨k, hk, henters⟩ := hr.exists_entering Regex.skipsAt_behind Regex.wellLaidOut_behind hs
  have hlook := hr.only henters branches_setStart
  obtain ⟨hV, hunit⟩ :=
    hr.only_if (i := .readLookbehind 0 true) hlook rfl (by simp) branches_lookBehind
  obtain ⟨hc, hstop⟩ := hr.only_if (i := .consume c c) hunit rfl (by simp) branches_unit
  have hfound := hr.only hstop branches_setStop
  exact ⟨k, ((route_finding hk ⟨hV, hc⟩).eq_of_suffix hr hfound).symm, hV, hc⟩

/-- **The first route finds the unit where it is found first.** -/
theorem isFirst_iff (hs : s ≤ input.size) : Route.IsFirst (behind w c input) V s r ↔
    ∃ k, r = finding w c input s k ∧ IsLeast {k | FoundAt c input V (s + k)} k := by
  constructor
  · intro hr
    obtain ⟨k, rfl, hfound⟩ := eq_finding_of_route hs hr.route
    refine ⟨k, rfl, hfound, fun k' hk' => ?_⟩
    by_contra hlt
    have hprecedes : (finding w c input s k').Precedes (finding w c input s k) :=
      precedes_finding (Nat.lt_of_not_le hlt)
    rcases hr.first _ (route_finding (Nat.le_of_lt (FoundAt.lt_size hk')) hk') with heq | hback
    · exact (heq ▸ hprecedes).irrefl
    · exact (hprecedes.trans hback).irrefl
  · rintro ⟨k, rfl, hfound, hleast⟩
    refine ⟨route_finding (Nat.le_of_lt hfound.lt_size) hfound, fun r hr => ?_⟩
    obtain ⟨k', rfl, hfound'⟩ := eq_finding_of_route hs hr
    rcases Nat.lt_or_eq_of_le (hleast hfound') with hlt | rfl
    · exact .inr (precedes_finding hlt)
    · exact .inl rfl

/-- **The unit is found behind the occurrences that begin in the scan.** -/
theorem foundAt_iff (hV : (behind w c input).IsVerdict s V) {position : Nat} :
    FoundAt c input V position ↔
      ∃ j, s ≤ j ∧ j + w.length = position ∧ OccursAt (w ++ [c]) input j := by
  have hverdict : position ≤ input.size → (V 0 position = true ↔
      ∃ j, s ≤ j ∧ j + w.length = position ∧ OccursAt w input j) := by
    intro hposition
    rw [hV, lookbehindMatches_iff Regex.floats_behind hposition]
    refine exists_congr fun j => and_congr_right fun _ => ?_
    rw [bodyMatches_behind_iff]
    exact and_iff_right_of_imp fun h => Nat.le.intro h.1
  constructor
  · intro h
    obtain ⟨j, hsj, rfl, hoccurs⟩ := (hverdict (Nat.le_of_lt h.lt_size)).mp h.1
    exact ⟨j, hsj, rfl, occursAt_concat.mpr ⟨hoccurs, h.2⟩⟩
  · rintro ⟨j, hsj, rfl, hoccurs⟩
    obtain ⟨hliteral, hc⟩ := occursAt_concat.mp hoccurs
    exact ⟨(hverdict (Nat.le_of_lt hoccurs.le_size)).mpr ⟨j, hsj, rfl, hliteral⟩, hc⟩

end Query

end Routes

namespace Search

variable {α : Type} [CodeUnit α] {w : List UInt16} {c : UInt16} {input : Array α} {s : Search}
  {j : Nat}

open Query (behind)

/-! ## One match -/

/-- **A scan finds the first occurrence that begins in it.** -/
theorem best_scan_behind {m : Machine} (h : m.Sound (behind w c input)) :
    ((∀ j, m.position ≤ j → ¬ OccursAt (w ++ [c]) input j) →
      (m.scan (behind w c input) .quiet).2.1.best = none) ∧
    (IsLeast {j | m.position ≤ j ∧ OccursAt (w ++ [c]) input j} j →
      (m.scan (behind w c input) .quiet).2.1.best =
        some #[some (j + w.length), some (j + w.length + 1)]) := by
  have hlayout : (behind w c input).program.WellLaidOut := Regex.wellLaidOut_behind
  obtain ⟨V, hV⟩ := Query.exists_isVerdict hlayout m.position
  have hquiet : ∀ n, Host.quiet.answer n = .proceed := fun _ => rfl
  obtain ⟨hnone, hsome⟩ := h.best_scan_iff
    (fun _ hm => (hm.watches h hlayout hV).agrees hlayout hV (hm.sound h)) hquiet
  have hfound : ∀ position, Query.FoundAt c input V position ↔
      ∃ j, m.position ≤ j ∧ j + w.length = position ∧ OccursAt (w ++ [c]) input j :=
    fun _ => Query.foundAt_iff hV
  constructor
  · intro hno
    refine hnone.mpr fun r hr => ?_
    obtain ⟨k, -, hk⟩ := Query.eq_finding_of_route h.position_le hr
    obtain ⟨j, hj, -, hoccurs⟩ := (hfound _).mp hk
    exact hno j hj hoccurs
  · rintro ⟨⟨hj, hoccurs⟩, hleast⟩
    obtain ⟨k, hk⟩ : ∃ k, j + w.length = m.position + k :=
      Nat.exists_eq_add_of_le (Nat.le_add_right_of_le hj)
    rw [hk]
    refine (hsome _).mpr ⟨_, (Query.isFirst_iff h.position_le).mpr ⟨k, rfl, ?_, ?_⟩,
      Query.registersAfter_finding⟩
    · exact (hfound _).mpr ⟨j, hj, hk, hoccurs⟩
    · intro k' hk'
      obtain ⟨j', hj', heq, hoccurs'⟩ := (hfound _).mp hk'
      have hle : j ≤ j' := hleast ⟨hj', hoccurs'⟩
      omega

omit [CodeUnit α] in
/-- A match that is not empty is returned, and the search goes on behind it. -/
theorem conclude_of_best {q : Query α} {m : Machine} {start stop : Nat}
    (hbest : m.best = some #[some start, some stop]) (hlt : start < stop)
    (hstop : stop ≤ q.input.size) :
    (conclude q m).1 = .ok (some #[some start, some stop]) ∧
      (conclude q m).2.position = stop ∧ (conclude q m).2.finished = false := by
  have hspan : (Registers.span? #[some start, some stop]).filter (·.stop ≤ q.input.size) =
      some ⟨start, stop⟩ := by
    simp [Registers.span?, Registers.position?, Span.ofRegisters?, Nat.le_of_lt hlt,
      Option.filter, hstop]
  rw [conclude, hbest]
  simp [hspan, passMatch, Span.isEmpty, Nat.ne_of_lt hlt, position]

/-- **The next match is the first occurrence that begins in the rest of the input.** -/
theorem next_behind (h : s.machine.Sound (behind w c input)) (hgoes : s.finished = false) :
    ((∀ j, s.position ≤ j → ¬ OccursAt (w ++ [c]) input j) →
      (s.next (behind w c input) .quiet).1 = .ok none) ∧
    (IsLeast {j | s.position ≤ j ∧ OccursAt (w ++ [c]) input j} j →
      (s.next (behind w c input) .quiet).1 =
          .ok (some #[some (j + w.length), some (j + w.length + 1)]) ∧
        (s.next (behind w c input) .quiet).2.1.position = j + w.length + 1 ∧
        (s.next (behind w c input) .quiet).2.1.finished = false) := by
  obtain ⟨hnone, hsome⟩ := best_scan_behind (j := j) h
  rw [next_of_quiet hgoes fun _ => rfl]
  constructor
  · intro hno
    rw [conclude_of_none (hnone hno)]
  · intro hleast
    exact conclude_of_best (hsome hleast) (Nat.lt_succ_self _) hleast.1.2.le_size

/-! ## All matches -/

/-- What a search finds when it is asked again and again. -/
inductive Finds (q : Query α) : Search → Registers → Prop
  | here {s : Search} {registers : Registers} (h : (s.next q .quiet).1 = .ok (some registers)) :
    Finds q s registers
  | later {s : Search} {first registers : Registers}
    (h : (s.next q .quiet).1 = .ok (some first))
    (hlater : Finds q (s.next q .quiet).2.1 registers) : Finds q s registers

/-- The registers of a match of one unit. -/
def unitMatch (position : Nat) : Registers := #[some position, some (position + 1)]

theorem unitMatch_inj {p p' : Nat} : unitMatch p = unitMatch p' ↔ p = p' := by
  simp [unitMatch]

/-- What a search finds is the next match, or is found behind it. -/
theorem finds_iff_of_next {q : Query α} {first : Registers}
    (h : (s.next q .quiet).1 = .ok (some first)) (registers : Registers) :
    Finds q s registers ↔ registers = first ∨ Finds q (s.next q .quiet).2.1 registers := by
  constructor
  · rintro (⟨h'⟩ | ⟨-, hlater⟩)
    · exact .inl (by simpa [h] using h'.symm)
    · exact .inr hlater
  · rintro (rfl | hlater)
    · exact .here h
    · exact .later h hlater

theorem not_finds_of_next {q : Query α} {registers : Registers}
    (h : (s.next q .quiet).1 = .ok none) : ¬ Finds q s registers := by
  rintro (⟨h'⟩ | ⟨h', -⟩) <;> simp [h] at h'

/-- **A search finds an occurrence just if it begins in the rest of the input**, and behind all
matches found before. -/
theorem finds_behind_iff (h : s.machine.Sound (behind w c input)) (hgoes : s.finished = false) :
    ∀ registers, Finds (behind w c input) s registers ↔
      ∃ j, registers = unitMatch (j + w.length) ∧ s.position ≤ j ∧ OccursAt (w ++ [c]) input j ∧
        ∀ p < j + w.length, Finds (behind w c input) s (unitMatch p) → p < j := by
  induction hn : input.size - s.position using Nat.strongRecOn generalizing s with
  | _ n ih =>
    intro registers
    by_cases hex : ∃ j, s.position ≤ j ∧ OccursAt (w ++ [c]) input j
    · obtain ⟨j₀, hj₀⟩ : ∃ j, IsLeast {j | s.position ≤ j ∧ OccursAt (w ++ [c]) input j} j := by
        classical
        exact ⟨Nat.find hex, Nat.find_spec hex, fun _ => Nat.find_min' hex⟩
      obtain ⟨hfirst, hposition, hgoes'⟩ := (next_behind h hgoes).2 hj₀
      obtain ⟨⟨hj, hoccurs⟩, hleast⟩ := hj₀
      have hsize := hoccurs.le_size
      have hstep := finds_iff_of_next hfirst
      have hrest := ih _ (by omega) (sound_next h .quiet) hgoes' rfl
      rw [hposition] at hrest
      rw [hstep]
      constructor
      · rintro (rfl | hlater)
        · refine ⟨j₀, rfl, hj, hoccurs, fun p hp hfinds => ?_⟩
          rcases (hstep _).mp hfinds with heq | hlater
          · exact absurd (unitMatch_inj.mp heq) (Nat.ne_of_lt hp)
          · obtain ⟨j, heq, hle, -⟩ := (hrest _).mp hlater
            have hpj := unitMatch_inj.mp heq
            omega
        · obtain ⟨j, rfl, hle, hoccurs', hfree⟩ := (hrest _).mp hlater
          refine ⟨j, rfl, by omega, hoccurs', fun p hp hfinds => ?_⟩
          rcases (hstep _).mp hfinds with heq | hlater
          · obtain rfl : p = j₀ + w.length := unitMatch_inj.mp heq
            exact hle
          · exact hfree p hp hlater
      · rintro ⟨j, rfl, hle, hoccurs', hfree⟩
        rcases Nat.lt_or_eq_of_le (hleast ⟨hle, hoccurs'⟩) with hlt | rfl
        · -- The first match was found before, so this one begins behind it.
          have hbehind := hfree (j₀ + w.length) (by omega) ((hstep _).mpr (.inl rfl))
          exact .inr ((hrest _).mpr ⟨j, rfl, hbehind, hoccurs',
            fun p hp hlater => hfree p hp ((hstep _).mpr (.inr hlater))⟩)
        · exact .inl rfl
    · have hno : ∀ j, s.position ≤ j → ¬ OccursAt (w ++ [c]) input j :=
        fun j hj hoccurs => hex ⟨j, hj, hoccurs⟩
      have hnone := (next_behind (j := 0) h hgoes).1 hno
      refine iff_of_false (not_finds_of_next hnone) ?_
      rintro ⟨j, -, hj, hoccurs, -⟩
      exact hno j hj hoccurs

/-- From past the end of the input nothing is found, and nothing occurs there. -/
theorem finds_start_behind_iff (position : Nat) (registers : Registers) :
    (start (behind w c input) position).Finds (behind w c input) registers ↔
      ∃ j, registers = unitMatch (j + w.length) ∧ position ≤ j ∧ OccursAt (w ++ [c]) input j ∧
        ∀ p < j + w.length, (start (behind w c input) position).Finds (behind w c input)
          (unitMatch p) → p < j := by
  rcases Nat.lt_or_ge input.size position with hout | hin
  · have hnone : ((start (behind w c input) position).next (behind w c input) .quiet).1 =
        .ok none := by
      simp [next, start, Regex.query, hout]
    refine iff_of_false (not_finds_of_next hnone) ?_
    rintro ⟨j, -, hj, hoccurs, -⟩
    have hlt := hoccurs.le_size
    omega
  · have hgoes : (start (behind w c input) position).finished = false := by
      simpa [start, Regex.query] using hin
    have hposition : (start (behind w c input) position).position = position :=
      Nat.min_eq_left hin
    have hfinds := finds_behind_iff (sound_start _ position) hgoes registers
    rwa [hposition] at hfinds

/-! ## How far back a search sees -/

/-- What is decided by the nearer of two conditions is decided by the farther one as well just if
they say the same. -/
theorem goes_by_both_iff {goes wants near far : Prop} (hgoes : goes ↔ (wants ↔ near))
    (hfar : near → far) : (goes ↔ (wants ↔ far)) ↔ (far → near) := by
  tauto

/-- **A search sees back to where its scans begin, and no further** —

* a lookbehind that may begin anywhere is read as matching just if its body matches a stretch of the
  input that ends here and begins in the scan; this is what it is to be unless all the stretches
  that match begin before the scan, and then it is not;
* a search for a unit behind a literal finds an occurrence of the two just if the literal begins
  at or behind the start of the search, and behind all units found before. -/
theorem lookbehinds_see_back_to_scan :
    (∀ (q : Query α), q.program.Floats → ∀ (position : Nat) (calls : List Call),
      let m₀ := ((start q position).after q calls).machine
      ∀ m t index want, Machine.Scanning q m₀ m → m.running = some t →
        m.visits.admits t.pc t.consumed m.position = true →
        q.instruction? t.pc = some (.readLookbehind index want) →
        let goesOn := (m.step q).running = some t.advance
        let seen := ∃ j, m₀.position ≤ j ∧ j ≤ m.position ∧ q.BodyMatches index j m.position
        let there := ∃ j ≤ m.position, q.BodyMatches index j m.position
        (goesOn ↔ (want = true ↔ seen)) ∧
          ((goesOn ↔ (want = true ↔ there)) ↔ (there → seen))) ∧
    ∀ (w : List UInt16) (c : UInt16) (input : Array α) (position : Nat) (registers : Registers),
      let q := (Regex.behind w c).query input
      (start q position).Finds q registers ↔
        ∃ j, registers = unitMatch (j + w.length) ∧ position ≤ j ∧ OccursAt (w ++ [c]) input j ∧
          ∀ p < j + w.length, (start q position).Finds q (unitMatch p) → p < j := by
  refine ⟨fun q hfloats position calls => ?_, fun _ _ _ => finds_start_behind_iff⟩
  intro m₀ m t index want hm ht hadmits hi goesOn seen there
  have h₀ : m₀.Sound q := sound_after (sound_start q position) calls
  have hgoes : goesOn ↔ (want = true ↔ seen) :=
    hm.running_iff_bodyMatches h₀ hfloats ht hadmits hi
  have hthere : seen → there := fun ⟨j, _, hj, hbody⟩ => ⟨j, hj, hbody⟩
  exact ⟨hgoes, goes_by_both_iff hgoes hthere⟩

/-- In a scan of `aa` that begins at the second `a`, the lookbehind of `(?<=a)a` is read there as
not matching, although its body matches the first `a`. So a search from the second `a` does not
find it, and a search from the first one does. -/
theorem misses_literal_before_scan :
    let q := (Regex.behind [0x61] 0x61).query (#[0x61, 0x61] : Array UInt8)
    q.program.Floats ∧ (∃ j ≤ 1, q.BodyMatches 0 j 1) ∧
      (¬ ∃ j, 1 ≤ j ∧ j ≤ 1 ∧ q.BodyMatches 0 j 1) ∧
      (start q 0).Finds q (unitMatch 1) ∧ ¬ (start q 1).Finds q (unitMatch 1) := by
  intro q
  have hfloats : q.program.Floats := Regex.floats_behind
  obtain ⟨hread, hfinds⟩ := lookbehinds_see_back_to_scan (α := UInt8)
  refine ⟨hfloats, ⟨0, by decide, Query.bodyMatches_behind_iff.mpr ⟨rfl, by decide⟩⟩,
    fun hseen => ?_, ?_, fun hfound => ?_⟩
  · -- Ten steps into the scan the main thread is about to read the lookbehind.
    obtain ⟨m, hscanning, hrunning, hadmits, hstep, hposition⟩ : ∃ m : Machine,
        Machine.Scanning q ((start q 1).after q []).machine m ∧
          m.running = some ⟨5, #[some 1, none], true⟩ ∧
          m.visits.admits 5 true m.position = true ∧ (m.step q).running = none ∧
          m.position = 1 :=
      ⟨(Machine.step q)^[10] (((start q 1).after q []).machine.beginScan q),
        Machine.Scanning.begin.iterate 10, by cbv, by cbv, by cbv, by cbv⟩
    have hstart : ((start q 1).after q []).machine.position = 1 := rfl
    obtain ⟨hgoes, -⟩ := hread q hfloats 1 [] m _ 0 true hscanning hrunning hadmits rfl
    rw [hstep, hstart, hposition] at hgoes
    simpa using hgoes.mpr ⟨fun _ => hseen, fun _ => rfl⟩
  · refine (hfinds _ _ _ 0 _).mpr ⟨0, rfl, Nat.le_refl _, by decide, fun p hp hfound => ?_⟩
    obtain ⟨j, heq, -⟩ := (hfinds _ _ _ 0 _).mp hfound
    have hpj := unitMatch_inj.mp heq
    simp at hp hpj
    omega
  · obtain ⟨j, heq, hj, -⟩ := (hfinds _ _ _ 1 _).mp hfound
    have hone := unitMatch_inj.mp heq
    simp at hone
    omega

/-- **Where the search begins decides what is found** — in `aa`, `(?<=a)a` matches the second `a` if
one searches from the first, and not if one searches from the second. -/
theorem find_depends_on_start :
    (Regex.behind [0x61] 0x61).find ⟨.oneByte #[0x61, 0x61], 0⟩ = .ok (some ⟨1, 2⟩) ∧
      (Regex.behind [0x61] 0x61).find ⟨.oneByte #[0x61, 0x61], 1⟩ = .ok none := by
  constructor <;> cbv

end Search

end RegexMachine
