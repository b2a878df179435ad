import RegexMachine.Proofs.Cost
import RegexMachine.Proofs.Interruption
import RegexMachine.Proofs.Segmentation

/-!
# Proofs/EntryPoints — all entry points of a regex tell the same story

The story of a search is the matches it finds when it is asked again and again without interrupts,
and the error it ends with, if it ends with one (`Search.Tells`). Every search has one
(`Search.exists_tells`), and it answers all questions: what is found when the search is asked for
the `i`-th time (`Tells.outcomeAfter_eq`), and what a call finds that asks for at most `k` matches
(`Tells.collect_eq`).

The entry points differ in what they make of the registers of a match. Those of every match that is
found bound a span (`Search.exists_span_of_next`), so none is lost on the way, and the entry points
agree (`entryPoints_agree`).
-/

namespace RegexMachine

/-! ## Groups and the overall match -/

namespace Captures

theorem length_pairUp (registers : List (Option Nat)) :
    (pairUp registers).length = registers.length / 2 := by
  fun_induction pairUp registers with
  | case1 start stop rest ih =>
    rw [List.length_cons, ih, List.length_cons, List.length_cons]
    omega
  | case2 registers hshort =>
    rcases registers with _ | ⟨a, _ | ⟨b, rest⟩⟩
    · rfl
    · simp
    · exact absurd rfl (hshort a b rest)

theorem groupCount_ofRegisters (registers : Registers) :
    (ofRegisters registers).groupCount = registers.size / 2 :=
  length_pairUp registers.toList

/-- **Group 0 is the overall match.** -/
theorem group0?_ofRegisters {registers : Registers} (h : 2 ≤ registers.size) :
    (ofRegisters registers).group0? = registers.span? := by
  obtain ⟨registers⟩ := registers
  rcases registers with _ | ⟨a, _ | ⟨b, rest⟩⟩
  · simp at h
  · simp at h
  · rfl

end Captures

/-! ## The story of a search -/

namespace Search

variable {α : Type} [CodeUnit α] {q : Query α} {s : Search} {b : Batch} {registers : Registers}

/-- **Every match that is found has a span**, and as many registers as were asked for. -/
theorem exists_span_of_next (h : s.machine.Sound q) {host : Host}
    (hfound : (s.next q host).1 = .ok (some registers)) :
    registers.size = q.registerCount ∧ ∃ m, registers.span? = some m := by
  refine ⟨size_of_next h hfound, ?_⟩
  cases hfinished : s.finished with
  | true => simp [next_of_finished hfinished] at hfound
  | false =>
    rcases hscan : s.machine.scan q host with ⟨_ | error, m, later⟩
    · rw [next_of_scan hfinished hscan] at hfound
      have hbest := best_of_conclude hfound
      rcases hspan : registers.span?.filter (·.stop ≤ q.input.size) with _ | span
      · simp [conclude_of_malformed hbest hspan] at hfound
      · exact ⟨span, (Option.filter_eq_some_iff.mp hspan).1⟩
    · simp [next_of_error hfinished hscan] at hfound

/-- **The story of a search** — the matches it finds one after the other, and the error it ends
with, if it does not end because there are no more. -/
inductive Tells (q : Query α) : Search → Batch → Prop
  | ends {s : Search} (h : (s.next q .quiet).1 = .ok none)
    (hends : (s.next q .quiet).2.1.finished = true) : Tells q s {}
  | fails {s : Search} {error : SearchError} (h : (s.next q .quiet).1 = .error error)
    (hends : (s.next q .quiet).2.1.finished = true) : Tells q s { error? := some error }
  | finds {s : Search} {registers : Registers} {rest : Batch}
    (h : (s.next q .quiet).1 = .ok (some registers)) (hrest : Tells q (s.next q .quiet).2.1 rest) :
    Tells q s { rest with found := registers :: rest.found }

/-- **Every search has a story.** -/
theorem exists_tells (h : s.machine.Sound q) : ∃ b, Tells q s b := by
  -- By induction on the positions at which a scan can still begin.
  induction hn : s.startsLeft q using Nat.strongRecOn generalizing s with
  | _ n ih =>
    rcases hnext : (s.next q .quiet).1 with error | _ | registers
    · exact ⟨_, .fails hnext (finished_of_next (by simp [hnext]))⟩
    · exact ⟨_, .ends hnext (finished_of_next (by simp [hnext]))⟩
    · have hgoing : s.finished = false := by
        by_contra hfinished
        simp [next_of_finished (Bool.eq_true_of_not_eq_false hfinished)] at hnext
      have hfewer := startsLeft_next h hgoing .quiet
      obtain ⟨rest, hrest⟩ := ih _ (by omega) (sound_next h .quiet) rfl
      exact ⟨_, .finds hnext hrest⟩

/-- What is found at the `i`-th time, as a story has it. -/
def Batch.outcomeAt (b : Batch) (i : Nat) : Outcome :=
  match b.found[i]? with
  | some registers => .ok (some registers)
  | none =>
    match b.error? with
    | some error => if i = b.found.length then .error error else .ok none
    | none => .ok none

/-- The beginning of a story, as far as `k` items. -/
def Batch.upTo (b : Batch) (k : Nat) : Batch where
  found := b.found.take k
  error? := if b.found.length < k then b.error? else none

theorem Batch.outcomeAt_eq_found {i : Nat} :
    b.outcomeAt i = .ok (some registers) ↔ b.found[i]? = some registers := by
  rw [outcomeAt]
  split
  · next found hfound => simp [hfound]
  · next hnone =>
    rw [hnone]
    repeat' split
    all_goals simp

theorem Batch.outcomeAt_eq_error {i : Nat} {error : SearchError} :
    b.outcomeAt i = .error error ↔ i = b.found.length ∧ b.error? = some error := by
  rw [outcomeAt]
  split
  · next found hfound =>
    have hlt := (List.getElem?_eq_some_iff.mp hfound).1
    simp [Nat.ne_of_lt hlt]
  · split
    · next error' herror =>
      rw [herror]
      split <;> simp_all
    · next herror => simp [herror]

/-- A batch fails with an error exactly if the error is among the items it has asked for. -/
theorem Batch.result_upTo_eq_error {k : Nat} {error : SearchError} :
    (b.upTo k).result = .error error ↔ ∃ i < k, b.outcomeAt i = .error error := by
  simp only [outcomeAt_eq_error, result, upTo]
  constructor
  · intro h
    split at h
    · next error' herror =>
      obtain ⟨hlt, herror⟩ := Option.ite_none_right_eq_some.mp herror
      obtain rfl : error' = error := Except.error.inj h
      exact ⟨_, hlt, rfl, herror⟩
    · cases h
  · rintro ⟨i, hlt, rfl, herror⟩
    simp [hlt, herror]

/-- Else it returns the number of its matches. -/
theorem Batch.result_upTo_eq_ok {k : Nat} (h : ∀ error, (b.upTo k).result ≠ .error error) :
    (b.upTo k).result = .ok (min k b.found.length) := by
  rcases hresult : (b.upTo k).result with error | total
  · exact absurd hresult (h error)
  · rw [← length_of_result hresult, upTo, List.length_take]

theorem Batch.exists_outcomeAt_iff {i : Nat} :
    (∃ registers, b.outcomeAt i = .ok (some registers)) ↔ i < b.found.length := by
  simp only [outcomeAt_eq_found, List.getElem?_eq_some_iff]
  exact ⟨fun ⟨_, hlt, _⟩ => hlt, fun hlt => ⟨_, hlt, rfl⟩⟩

theorem outcomeAfter_of_finished (h : s.finished = true) (times : Nat) :
    s.outcomeAfter q times = .ok none := by
  rw [outcomeAfter, askedTimes_of_finished h, next_of_finished h]

/-- **A story tells what is found each time.** -/
theorem Tells.outcomeAfter_eq (h : Tells q s b) (i : Nat) : s.outcomeAfter q i = b.outcomeAt i := by
  induction h generalizing i with
  | ends h hends =>
    cases i with
    | zero => exact h
    | succ i => exact outcomeAfter_of_finished hends i
  | fails h hends =>
    cases i with
    | zero => exact h
    | succ i => exact outcomeAfter_of_finished hends i
  | finds h hrest ih =>
    cases i with
    | zero => exact h
    | succ i =>
      have := ih i
      simpa [Batch.outcomeAt, outcomeAfter, askedTimes_succ] using this

/-- **A story tells what a call finds** that asks for at most `k` matches. -/
theorem Tells.collect_eq (h : Tells q s b) {host : Host} (hquiet : host.IsQuiet) (k : Nat) :
    (collect q k s host).1 = b.upTo k := by
  have hwhole : Host.IsQuiet .quiet := fun _ => rfl
  refine (collect_eq_of_quiet hwhole hquiet k).trans ?_
  induction h generalizing k with
  | @ends s h hends =>
    cases k with
    | zero => rfl
    | succ k =>
      rw [collect_of_none (Prod.ext h rfl)]
      simp [Batch.upTo]
  | @fails s error h hends =>
    cases k with
    | zero => rfl
    | succ k =>
      rw [collect_of_error (Prod.ext h rfl)]
      simp [Batch.upTo]
  | @finds s registers rest h hrest ih =>
    cases k with
    | zero => rfl
    | succ k =>
      have hsame : (collect q k (s.next q .quiet).2.1 (s.next q .quiet).2.2).1 = rest.upTo k :=
        (collect_eq_of_quiet hwhole (quiet_next hwhole q s) k).trans (ih k)
      rw [collect_of_found (Prod.ext h rfl) rfl, hsame]
      simp [Batch.upTo]

/-! ## What a batch leaves in its slots -/

namespace Batch

variable {output : Array (Option Nat)} {n : Nat}

theorem take_drop_flatten {found : List Registers} (hsize : ∀ registers ∈ found, registers.size = n)
    {j : Nat} (hj : j < found.length) :
    ((found.map Array.toList).flatten.drop (j * n)).take n = found[j].toList := by
  induction found generalizing j with
  | nil => simp at hj
  | cons first rest ih =>
    obtain ⟨hfirst, hrest⟩ := List.forall_mem_cons.mp hsize
    rw [← Array.length_toList] at hfirst
    rw [List.map_cons, List.flatten_cons]
    cases j with
    | zero => simp [← hfirst]
    | succ j =>
      rw [Nat.succ_mul, Nat.add_comm, ← List.drop_drop, ← hfirst, List.drop_left, hfirst]
      exact ih hrest (Nat.lt_of_succ_lt_succ hj)

/-- **Every slot holds the registers of its match.** -/
theorem extract_writeOver (hsize : ∀ registers ∈ b.found, registers.size = n)
    {j : Nat} (hj : j < b.found.length) (output : Array (Option Nat)) :
    (b.writeOver output).extract (j * n) ((j + 1) * n) = b.found[j] := by
  have hslot : j * n + n ≤ b.written.length := by
    rw [length_written hsize, ← Nat.succ_mul]
    exact Nat.mul_le_mul_right n hj
  apply Array.ext'
  rw [Array.toList_extract, toList_writeOver, List.extract_eq_take_drop, Nat.succ_mul,
    Nat.add_sub_cancel_left, List.drop_append_of_le_length (by omega),
    List.take_append_of_le_length (by simp; omega)]
  exact take_drop_flatten hsize hj

end Batch

section Fill

variable {host : Host} {k : Nat} {output : Array (Option Nat)}

/-- **A story tells what a call does** to an output with room for `k` matches. -/
theorem Tells.fill_eq (h : Tells q s b) (hquiet : host.IsQuiet)
    (hsize : output.size = k * q.registerCount) :
    (s.fill q host output).1 = (b.upTo k).result ∧
      (s.fill q host output).2.1 = (b.upTo k).writeOver output := by
  have htwo := q.two_le_registerCount
  have hlimit : output.size / q.registerCount = k := by
    rw [hsize, Nat.mul_div_cancel k (by omega)]
  rw [result_fill, output_fill, hlimit, h.collect_eq hquiet]
  exact ⟨rfl, rfl⟩

theorem Tells.extract_fill (h : Tells q s b) (hsound : s.machine.Sound q) (hquiet : host.IsQuiet)
    (hsize : output.size = k * q.registerCount) {j : Nat} (hj : j < min k b.found.length) :
    b.found[j]? = some ((s.fill q host output).2.1.extract (j * q.registerCount)
      ((j + 1) * q.registerCount)) := by
  have hj' : j < (b.upTo k).found.length := by rwa [Batch.upTo, List.length_take]
  have hsizes : ∀ registers ∈ (b.upTo k).found, registers.size = q.registerCount := by
    rw [← h.collect_eq hquiet k]
    exact size_of_mem_collect hsound k host
  rw [(h.fill_eq hquiet hsize).2, Batch.extract_writeOver hsizes hj',
    ← List.getElem?_eq_getElem hj', Batch.upTo, List.getElem?_take_of_lt (by omega)]

end Fill

end Search

/-! ## Cursors -/

namespace Cursor

/-- What a cursor gives when it is asked for the groups once more, after it was asked so many
times. -/
def capturesAfter (c : Cursor) (times : Nat) : Option (Except SearchError Captures) :=
  ((fun c => c.nextCaptures?.2)^[times] c).nextCaptures?.1

/-- What a cursor finds when it is asked once more, after it was asked so many times. -/
def outcomeAfter (c : Cursor) (times : Nat) : Search.Outcome :=
  (((fun c => (c.next .quiet).2.1)^[times] c).next .quiet).1

variable {α : Type} [CodeUnit α] {q : Query α} {c : Cursor}

theorem Runs.outcomeAfter_eq (h : c.Runs q) (times : Nat) :
    c.outcomeAfter times = c.search.outcomeAfter q times := by
  rw [outcomeAfter, h.iterate_next, h.next_eq]
  rfl

theorem spanAfter_eq_item (c : Cursor) (times : Nat) :
    c.spanAfter times = item? ((c.outcomeAfter times).map (·.bind Registers.span?)) :=
  rfl

theorem capturesAfter_eq_item (c : Cursor) (times : Nat) :
    c.capturesAfter times = item? ((c.outcomeAfter times).map (·.map Captures.ofRegisters)) :=
  rfl

/-- **Every match that is found becomes a span and groups**, and nothing else does. -/
theorem Runs.items (h : c.Runs q) (hsound : c.search.machine.Sound q) (times : Nat) :
    (∃ registers m, c.outcomeAfter times = .ok (some registers) ∧
        c.spanAfter times = some (.ok m) ∧
        c.capturesAfter times = some (.ok (.ofRegisters registers)) ∧
        (Captures.ofRegisters registers).group0? = some m ∧
        (Captures.ofRegisters registers).groupCount = c.regex.captureCount) ∨
      (∃ error, c.outcomeAfter times = .error error ∧ c.spanAfter times = some (.error error) ∧
        c.capturesAfter times = some (.error error)) ∨
      c.outcomeAfter times = .ok none ∧ c.spanAfter times = none ∧
        c.capturesAfter times = none := by
  rw [spanAfter_eq_item, capturesAfter_eq_item]
  rcases houtcome : c.outcomeAfter times with error | _ | registers
  · exact .inr (.inl ⟨error, rfl, rfl, rfl⟩)
  · exact .inr (.inr ⟨rfl, rfl, rfl⟩)
  · have hfound := h.outcomeAfter_eq times ▸ houtcome
    obtain ⟨hsize, m, hspan⟩ :=
      Search.exists_span_of_next (Search.sound_askedTimes hsound times) hfound
    have htwo := q.two_le_registerCount
    refine .inl ⟨registers, m, rfl, ?_, rfl, ?_, ?_⟩
    · simp [Except.map, item?, hspan]
    · rw [Captures.group0?_ofRegisters (by omega), hspan]
    · rw [Captures.groupCount_ofRegisters, hsize, h.registerCount_eq]
      rfl

theorem Runs.exists_span_iff (h : c.Runs q) (hsound : c.search.machine.Sound q) (times : Nat) :
    (∃ m, c.spanAfter times = some (.ok m)) ↔
      ∃ registers, c.outcomeAfter times = .ok (some registers) := by
  rcases h.items hsound times with
    ⟨registers, m, houtcome, hspan, -⟩ | ⟨error, houtcome, hspan, -⟩ | ⟨houtcome, hspan, -⟩ <;>
  simp [houtcome, hspan]

theorem Runs.span_error_iff (h : c.Runs q) (hsound : c.search.machine.Sound q) (times : Nat)
    (error : SearchError) :
    c.spanAfter times = some (.error error) ↔ c.outcomeAfter times = .error error := by
  rcases h.items hsound times with
    ⟨registers, m, houtcome, hspan, -⟩ | ⟨error, houtcome, hspan, -⟩ | ⟨houtcome, hspan, -⟩ <;>
  simp [houtcome, hspan]

theorem captures_of_outcome {registers : Registers} {times : Nat}
    (h : c.outcomeAfter times = .ok (some registers)) :
    c.capturesAfter times = some (.ok (.ofRegisters registers)) := by
  rw [capturesAfter_eq_item, h]
  rfl

end Cursor

/-! ## Regexes -/

namespace Regex

/-- **All entry points tell the same story**, whatever the program, the subject and the start.

* There is a match if one is found, and what is found is the first item of the iteration.
* The two iterations go together: a span is group 0 of the groups, errors are the same, and both end
  at the same time.
* A match that is found is an item of both: none is lost when its registers are turned into a span
  or groups.
* A call that fills an output with room for `k` matches fails with an error exactly if this is one
  of the first `k` items, and else returns the number of the matches or `k`. The slots hold the
  registers that the groups are made of. -/
theorem entryPoints_agree (re : Regex) (input : Input) :
    let c := re.findAll input
    re.isMatch input = (re.find input).map Option.isSome ∧
      Cursor.item? (re.find input) = c.spanAfter 0 ∧
      Cursor.item? (re.findCaptures input) = c.capturesAfter 0 ∧
      (∀ i,
        (∀ m, c.spanAfter i = some (.ok m) ↔
          ∃ groups, c.capturesAfter i = some (.ok groups) ∧ groups.group0? = some m ∧
            groups.groupCount = re.captureCount) ∧
        (∀ error, c.spanAfter i = some (.error error) ↔
          c.capturesAfter i = some (.error error)) ∧
        (c.spanAfter i = none ↔ c.capturesAfter i = none) ∧
        ∀ registers, c.outcomeAfter i = .ok (some registers) →
          (∃ m, c.spanAfter i = some (.ok m)) ∧
            c.capturesAfter i = some (.ok (.ofRegisters registers))) ∧
      ∃ count, (∀ i, (∃ m, c.spanAfter i = some (.ok m)) ↔ i < count) ∧
        ∀ (host : Host), host.IsQuiet → ∀ (k : Nat) (output : Array (Option Nat)),
          output.size = k * re.registerCount →
          let call := re.fill input host output
          (∀ error, call.1 = .error error ↔ ∃ i < k, c.spanAfter i = some (.error error)) ∧
            ((∀ i < k, ∀ error, c.spanAfter i ≠ some (.error error)) →
              call.1 = .ok (min k count)) ∧
            ∀ j < min k count, c.capturesAfter j = some (.ok (.ofRegisters
              (call.2.1.extract (j * re.registerCount) ((j + 1) * re.registerCount)))) := by
  obtain ⟨α, _, q, hruns, hsearch⟩ := re.exists_runs input
  intro c
  change c.Runs q at hruns
  change c.search = _ at hsearch
  have hsound : c.search.machine.Sound q := hsearch ▸ Search.sound_start q input.start
  obtain ⟨b, hb⟩ := Search.exists_tells hsound
  have houtcome : ∀ i, c.outcomeAfter i = b.outcomeAt i := fun i =>
    (hruns.outcomeAfter_eq i).trans (hb.outcomeAfter_eq i)
  refine ⟨rfl, rfl, rfl, fun i => ?_, b.found.length, fun i => ?_, ?_⟩
  · rcases hruns.items hsound i with
      ⟨registers, m, hfound, hspan, hcaptures, hgroup, hcount⟩ |
      ⟨error, herror, hspan, hcaptures⟩ | ⟨hnone, hspan, hcaptures⟩
    · refine ⟨fun m' => ⟨fun h => ?_, ?_⟩, by simp [hspan, hcaptures],
        by simp [hspan, hcaptures], fun registers' hfound' => ?_⟩
      · obtain rfl : m = m' := by simpa [hspan] using h
        exact ⟨_, hcaptures, hgroup, hcount⟩
      · rintro ⟨groups, hgroups, hgroup', -⟩
        obtain rfl : Captures.ofRegisters registers = groups := by
          simpa [hcaptures] using hgroups
        rw [hspan, ← hgroup.symm.trans hgroup' |> Option.some.inj]
      · obtain rfl : registers = registers' := by simpa [hfound] using hfound'
        exact ⟨⟨m, hspan⟩, hcaptures⟩
    · simp [herror, hspan, hcaptures]
    · simp [hnone, hspan, hcaptures]
  · rw [hruns.exists_span_iff hsound]
    simp only [houtcome, Search.Batch.exists_outcomeAt_iff]
  · intro host hquiet k output hsize call
    have hcount : q.registerCount = re.registerCount := hruns.registerCount_eq
    rw [← hcount] at hsize ⊢
    obtain ⟨hresult, -⟩ := hb.fill_eq hquiet hsize
    have hcall : call = _ := Regex.fill_eq hruns hsearch host output
    rw [hsearch] at hresult
    have herror : ∀ error, call.1 = .error error ↔
        ∃ i < k, c.spanAfter i = some (.error error) := by
      intro error
      rw [hcall, hresult, Search.Batch.result_upTo_eq_error]
      exact exists_congr fun i => and_congr_right fun _ => by
        rw [← houtcome, hruns.span_error_iff hsound]
    refine ⟨herror, fun hnone => ?_, fun j hj => ?_⟩
    · rw [hcall, hresult]
      refine Search.Batch.result_upTo_eq_ok fun error h => ?_
      obtain ⟨i, hi, hitem⟩ := (herror error).mp (by rw [hcall, hresult, h])
      exact hnone i hi error hitem
    · have hslot := hb.extract_fill hsound hquiet hsize hj
      rw [← Search.Batch.outcomeAt_eq_found, ← houtcome, hsearch] at hslot
      rw [hcall]
      exact Cursor.captures_of_outcome hslot

/-- The expression `(a)|.` with the group in place of the match: the second branch sets no
bounds. -/
def boundedOrNot : Regex where
  program :=
    ⟨#[.fork 5, .setRegister 0, .consume 0x61 0x61, .setRegister 1, .jump 6, .consume 0 0xffff,
      .accept], by decide⟩
  registerCount := 2
  enough := by decide
  pollInterval := defaultPollInterval

/-- In `ab` there is a match, and then an error. A call with room for two matches fails, and has
written the first one. -/
theorem entryPoints_agree_ab :
    let input : Input := { subject := .oneByte #[0x61, 0x62] }
    let c := boundedOrNot.findAll input
    let output : Array (Option Nat) := .replicate 4 (some 9)
    let call := boundedOrNot.fill input .quiet output
    let error : SearchError := .malformedMatch none none
    output.size = 2 * boundedOrNot.registerCount ∧ Host.IsQuiet .quiet ∧
      c.spanAfter 0 = some (.ok ⟨0, 1⟩) ∧
      (∃ groups, c.capturesAfter 0 = some (.ok groups) ∧ groups.group0? = some ⟨0, 1⟩ ∧
        groups.groupCount = 1) ∧
      c.spanAfter 1 = some (.error error) ∧ c.capturesAfter 1 = some (.error error) ∧
      call.1 = .error error ∧ call.2.1 = #[some 0, some 1, some 9, some 9] ∧
      c.capturesAfter 0 = some (.ok (.ofRegisters (call.2.1.extract 0 2))) := by
  intro input c output call error
  obtain ⟨-, -, -, hitems, count, hcount, hfill⟩ := entryPoints_agree boundedOrNot input
  have hsize : output.size = 2 * boundedOrNot.registerCount := rfl
  have hquiet : Host.IsQuiet .quiet := fun _ => rfl
  have hfirst : c.spanAfter 0 = some (.ok ⟨0, 1⟩) := by cbv
  have hsecond : c.spanAfter 1 = some (.error error) := by cbv
  obtain ⟨herror, -, hslots⟩ := hfill .quiet hquiet 2 output hsize
  have hpos : 0 < min 2 count := Nat.lt_min.mpr ⟨by decide, (hcount 0).mp ⟨_, hfirst⟩⟩
  exact ⟨hsize, hquiet, hfirst, ((hitems 0).1 _).mp hfirst, hsecond,
    ((hitems 1).2.1 error).mp hsecond, (herror error).mpr ⟨1, by decide, hsecond⟩, by cbv,
    hslots 0 hpos⟩

end Regex

end RegexMachine
