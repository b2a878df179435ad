import Mathlib
import RegexMachine.Proofs.Conservation
import RegexMachine.Proofs.Interruption
import RegexMachine.Proofs.Resume

/-!
# Proofs/Finality — the end of a search is its end

A search goes on only after a match. A call that finds none, or fewer than it was asked for, has
come to the end of the search, and so has one that fails, for whatever reason. From then on every
call answers that there is nothing more (`Search.idleReply`) and leaves the search, the output and
the host alone.

An error may strike in the middle of a scan, with threads waiting and a match at hand. Nothing of
this stays behind: all register arrays are back in the pool (`ends_are_final`).
-/

namespace RegexMachine

namespace Search

variable {α : Type} [CodeUnit α] {q : Query α} {s : Search} {host : Host} {error : SearchError}

/-! ## After the end -/

theorem collect_of_finished (h : s.finished = true) (limit : Nat) (host : Host) :
    collect q limit s host = ({}, s, host) := by
  cases limit with
  | zero => rfl
  | succ limit => exact collect_of_none (next_of_finished h host)

theorem fill_of_finished (h : s.finished = true) (host : Host) (output : Array (Option Nat)) :
    s.fill q host output = (.ok 0, output, s, host) := by
  rw [fill, collect_of_finished h]
  simp [Batch.result, Batch.writeOver]

/-- What a search at its end answers: that there is nothing more. The output is left as it was, and
the host is not polled. -/
def idleReply (position : Nat) : Call → Reply × Nat × Host
  | .next host => (.next (.ok none), position, host)
  | .fill host output => (.fill (.ok 0) output, position, host)

/-- **A search at its end stays there.** -/
theorem replies_of_finished (h : s.finished = true) (later : List Call) :
    s.replies q later = later.map (idleReply s.position) ∧ s.after q later = s := by
  induction later with
  | nil => exact ⟨rfl, rfl⟩
  | cons call later ih =>
    obtain ⟨hreplies, hafter⟩ := ih
    cases call with
    | next host =>
      have hnext := next_of_finished (q := q) h host
      rw [replies, hnext, after, List.foldl_cons, perform, hnext]
      exact ⟨congrArg _ hreplies, hafter⟩
    | fill host output =>
      have hfill := fill_of_finished (q := q) h host output
      rw [replies, hfill, after, List.foldl_cons, perform, hfill]
      exact ⟨congrArg _ hreplies, hafter⟩

/-! ## Coming to the end -/

/-- What a call has found that ends at once, with this outcome. -/
def Batch.ending (outcome : Outcome) : Batch where
  error? :=
    match outcome with
    | .error error => some error
    | .ok _ => none

theorem Batch.error?_ending {outcome : Outcome} :
    (ending outcome).error? = some error ↔ outcome = .error error := by
  cases outcome <;> simp [ending]

/-- **Where no match is found, a call for several ends.** -/
theorem collect_of_ended (hnone : ∀ registers, (s.next q host).1 ≠ .ok (some registers))
    (limit : Nat) :
    collect q (limit + 1) s host = (.ending (s.next q host).1, (s.next q host).2) := by
  rcases hnext : s.next q host with ⟨error | _ | registers, s', later⟩
  · exact collect_of_error hnext
  · exact collect_of_none hnext
  · exact absurd (congrArg Prod.fst hnext) (hnone registers)

/-- A call that fails, or finds fewer matches than it was asked for, comes to the end. -/
theorem finished_of_collect {limit : Nat}
    (hfew : (collect q limit s host).1.error? = none →
      (collect q limit s host).1.found.length < limit) :
    (collect q limit s host).2.1.finished = true := by
  induction limit generalizing s host with
  | zero => exact absurd (hfew rfl) (Nat.lt_irrefl 0)
  | succ limit ih =>
    by_cases hfound : ∃ registers, (s.next q host).1 = .ok (some registers)
    · obtain ⟨registers, hnext⟩ := hfound
      rw [collect_of_found (Prod.ext hnext rfl) rfl] at hfew ⊢
      exact ih fun hnone => Nat.lt_of_succ_lt_succ (hfew hnone)
    · rw [collect_of_ended (not_exists.mp hfound)]
      exact finished_of_next (not_exists.mp hfound)

/-- **An error clears the machine away.** -/
theorem exists_fail_of_next (h : (s.next q host).1 = .error error) :
    ∃ m, (s.next q host).2.1 = fail m := by
  cases hfinished : s.finished with
  | true => simp [next_of_finished hfinished] at h
  | false =>
    rcases hscan : s.machine.scan q host with ⟨_ | error', m, later⟩
    · rw [next_of_scan hfinished hscan] at h ⊢
      rcases hbest : m.best with _ | registers
      · simp [conclude_of_none hbest] at h
      · rcases hspan : registers.span?.filter (·.stop ≤ q.input.size) with _ | span
        · exact ⟨m, by rw [conclude_of_malformed hbest hspan]⟩
        · simp [conclude_of_span hbest hspan] at h
    · exact ⟨m, by rw [next_of_error hfinished hscan]⟩

theorem exists_fail_of_collect {limit : Nat}
    (h : (collect q limit s host).1.error? = some error) :
    ∃ m, (collect q limit s host).2.1 = fail m := by
  induction limit generalizing s host with
  | zero => simp [collect] at h
  | succ limit ih =>
    by_cases hfound : ∃ registers, (s.next q host).1 = .ok (some registers)
    · obtain ⟨registers, hnext⟩ := hfound
      rw [collect_of_found (Prod.ext hnext rfl) rfl] at h ⊢
      exact ih h
    · rw [collect_of_ended (not_exists.mp hfound)] at h ⊢
      exact exists_fail_of_next (Batch.error?_ending.mp h)

/-! ## Calls -/

/-- A call has come to the end of the search: it has failed, or found fewer matches than it was
asked for. -/
def Ends (q : Query α) (s : Search) : Call → Prop
  | .next host => ∀ registers, (s.next q host).1 ≠ .ok (some registers)
  | .fill host output =>
    ∀ count, (s.fill q host output).1 = .ok count → count < output.size / q.registerCount

/-- A call returns an error. -/
def Fails (q : Query α) (s : Search) (error : SearchError) : Call → Prop
  | .next host => (s.next q host).1 = .error error
  | .fill host output => (s.fill q host output).1 = .error error

variable {call : Call}

theorem Ends.finished (h : s.Ends q call) : (s.perform q call).finished = true := by
  cases call with
  | next host => exact finished_of_next h
  | fill host output =>
    refine finished_of_collect fun hnone => h _ ?_
    rw [result_fill, Batch.result, hnone]

theorem Fails.exists_fail (h : s.Fails q error call) : ∃ m, s.perform q call = fail m := by
  cases call with
  | next host => exact exists_fail_of_next h
  | fill host output =>
    change (collect q _ s host).1.result = .error error at h
    rw [Batch.result] at h
    split at h
    · next herror => exact exists_fail_of_collect herror
    · cases h

/-- **The end of a search is final, and an error leaves nothing behind** — after a call that has
come to the end, every later call says that there is nothing more, and changes nothing: neither the
search, nor an output, nor the host. Right after an error no thread is left and no match, and all
register arrays are in the pool. -/
theorem ends_are_final (q : Query α) (position : Nat) (calls : List Call) (call : Call) :
    let s := (start q position).after q calls
    let s' := s.perform q call
    (s.Ends q call → ∀ later,
        s'.replies q later = later.map (idleReply s'.position) ∧ s'.after q later = s') ∧
      ∀ error, s.Fails q error call →
        s'.machine.running = none ∧ s'.machine.active = [] ∧ s'.machine.blocked = [] ∧
          s'.machine.best = none ∧
          s'.machine.pool.available = s'.machine.pool.allocations := by
  intro s s'
  refine ⟨fun hends later => replies_of_finished hends.finished later, fun error hfails => ?_⟩
  obtain ⟨m, hfail⟩ := hfails.exists_fail
  have hbalanced : s'.machine.Balanced (2 * q.program.size) := by
    have hafter := (balanced_asks q position (calls ++ [call])).2.2
    rwa [after, List.foldl_append] at hafter
  have hall := hbalanced.allocations_eq
  change s' = fail m at hfail
  rw [hfail] at hall ⊢
  exact ⟨rfl, rfl, rfl, rfl, by simpa [fail, Machine.clear, Machine.inUse, Machine.threads] using
    hall.symm⟩

/-- The expression `abc|a` on `aab`, under a host that is polled at every position. -/
def polledAtEach : Query UInt8 := { longOrShort with pollInterval := 1 }

/-- A host that lets the first unit pass, and then wants its turn. -/
def yieldingNext : Host := .ofAnswers #[.proceed, .yield]

/-- On `aab`, `a` has matched when that host stops the scan, but `abc` still waits for a unit. -/
theorem ends_are_final_abc_or_a :
    let s := start polledAtEach 0
    let last := (s.machine.scan polledAtEach yieldingNext).2.1
    let s' := s.perform polledAtEach (.next yieldingNext)
    last.best = some #[some 0, some 1] ∧ last.blocked.length = 1 ∧
      s.Ends polledAtEach (.next yieldingNext) ∧
      s.Fails polledAtEach .retry (.next yieldingNext) ∧
      s'.replies polledAtEach [.next .quiet, .fill .quiet #[some 42, some 42]] =
        [(.next (.ok none), 2, .quiet), (.fill (.ok 0) #[some 42, some 42], 2, .quiet)] ∧
      s'.machine.blocked = [] ∧ s'.machine.best = none ∧
      s'.machine.pool.available = s'.machine.pool.allocations := by
  have hmatch : ((start polledAtEach 0).machine.scan polledAtEach yieldingNext).2.1.best =
      some #[some 0, some 1] := by cbv
  have hwaiting :
      ((start polledAtEach 0).machine.scan polledAtEach yieldingNext).2.1.blocked.length = 1 := by
    cbv
  have hposition :
      ((start polledAtEach 0).perform polledAtEach (.next yieldingNext)).position = 2 := by cbv
  have hfails : (start polledAtEach 0).Fails polledAtEach .retry (.next yieldingNext) := by
    rw [Fails]
    cbv
  have hends : (start polledAtEach 0).Ends polledAtEach (.next yieldingNext) := fun registers => by
    rw [Fails] at hfails
    rw [hfails]
    simp
  obtain ⟨hfinal, hcleared⟩ := ends_are_final polledAtEach 0 [] (.next yieldingNext)
  obtain ⟨-, -, hblocked, hbest, harrays⟩ := hcleared .retry hfails
  have hreplies := (hfinal hends [.next .quiet, .fill .quiet #[some 42, some 42]]).1
  rw [show (start polledAtEach 0).after polledAtEach [] = start polledAtEach 0 from rfl,
    hposition] at hreplies
  exact ⟨hmatch, hwaiting, hends, hfails, hreplies, hblocked, hbest, harrays⟩

end Search

end RegexMachine
