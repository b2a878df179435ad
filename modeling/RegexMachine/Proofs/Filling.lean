import Mathlib
import RegexMachine.Proofs.EntryPoints
import RegexMachine.Proofs.Finality

/-!
# Proofs/Filling — an output can be filled in parts

A call that fills an output asks the search once for every slot, until a match is missing. So what
it writes are the matches the search finds when it is asked again and again by one host
(`Search.outcomeUnder`), and it leaves the search and the host as that does (`collect_eq_asked`).

Asking for `k + l` matches is asking for `k` and then for `l` (`collect_add`): either the first `k`
are all found, and the second call goes on where the first one stopped, or the search has come to
its end and stays there. Hence an output that is cut between two slots can be filled in two calls
(`fill_composes`).
-/

namespace RegexMachine

namespace Search

/-! ## Batches one after the other -/

namespace Batch

variable {b b' : Batch} {output : Array (Option Nat)} {k : Nat}

/-- The matches of two batches, and the error of the first that has one. -/
def append (b b' : Batch) : Batch where
  found := b.found ++ b'.found
  error? := b.error?.or b'.error?

theorem append_empty (b : Batch) : b.append {} = b := by simp [append]

theorem written_append (b b' : Batch) : (b.append b').written = b.written ++ b'.written := by
  simp [append, written]

theorem outcomeAt_ending_zero {outcome : Outcome}
    (hnone : ∀ registers, outcome ≠ .ok (some registers)) :
    (ending outcome).outcomeAt 0 = outcome := by
  rcases outcome with error | _ | registers
  · rfl
  · rfl
  · exact absurd rfl (hnone registers)

theorem outcomeAt_ending_succ (outcome : Outcome) (i : Nat) :
    (ending outcome).outcomeAt (i + 1) = .ok none := by
  cases outcome <;> simp [ending, outcomeAt]

/-- **The numbers of matches add up**, unless there is an error. -/
theorem result_append (b b' : Batch) :
    (b.append b').result = do return (← b.result) + (← b'.result) := by
  rcases b with ⟨found, _ | error⟩
  · rcases b' with ⟨found', _ | error⟩
    · exact congrArg Except.ok List.length_append
    · rfl
  · rfl

/-- **Two batches are written one behind the other** if the first one fills the part of the output
that it has, or there is nothing in the second one. -/
theorem writeOver_append (hle : b.written.length ≤ k) (hsize : b.written.length ≤ output.size)
    (hrest : b.written.length = k ∨ b'.written = []) :
    (b.append b').writeOver output =
      b.writeOver (output.extract 0 k) ++ b'.writeOver (output.extract k output.size) := by
  apply Array.ext'
  have htail : (output.toList.drop k).take (output.size - k) = output.toList.drop k :=
    List.take_of_length_le (by simp)
  simp only [toList_writeOver, written_append, Array.toList_append, Array.toList_extract,
    List.extract_eq_take_drop, List.drop_zero, Nat.sub_zero, htail, List.length_append]
  rcases hrest with rfl | hnone
  · rw [List.drop_take, Nat.sub_self, List.take_zero, List.append_nil, List.append_assoc,
      List.drop_drop]
  · have hbehind : b.written.length ≤ (output.toList.take k).length := by
      rw [List.length_take, Array.length_toList]
      exact Nat.le_min.mpr ⟨hle, hsize⟩
    rw [hnone, List.append_nil, List.length_nil, Nat.add_zero, List.nil_append, List.drop_zero,
      List.append_assoc, ← List.drop_append_of_le_length hbehind, List.take_append_drop]

end Batch

/-! ## Asking again and again -/

variable {α : Type} [CodeUnit α] {q : Query α} {s : Search} {host : Host}

/-- A search that was asked for a match so many times by one host, and the host. -/
def askedUnder (q : Query α) (s : Search) (host : Host) (times : Nat) : Search × Host :=
  (fun x => (x.1.next q x.2).2)^[times] (s, host)

/-- What is found when a search is asked once more, after it was asked so many times by one host. -/
def outcomeUnder (q : Query α) (s : Search) (host : Host) (times : Nat) : Outcome :=
  let (s, host) := s.askedUnder q host times
  (s.next q host).1

theorem askedUnder_of_finished (h : s.finished = true) (host : Host) (times : Nat) :
    s.askedUnder q host times = (s, host) :=
  Function.iterate_fixed (by rw [next_of_finished h]) times

theorem askedUnder_succ (q : Query α) (s : Search) (host : Host) (times : Nat) :
    s.askedUnder q host (times + 1) =
      (s.next q host).2.1.askedUnder q (s.next q host).2.2 times :=
  rfl

theorem outcomeUnder_succ (q : Query α) (s : Search) (host : Host) (times : Nat) :
    s.outcomeUnder q host (times + 1) =
      (s.next q host).2.1.outcomeUnder q (s.next q host).2.2 times :=
  rfl

/-- Where no match is found, asking once more changes nothing. -/
theorem asked_of_none (hnone : ∀ registers, (s.next q host).1 ≠ .ok (some registers))
    (times : Nat) :
    s.askedUnder q host (times + 1) = (s.next q host).2 ∧
      s.outcomeUnder q host (times + 1) = .ok none := by
  have hfinished := finished_of_next hnone
  rw [askedUnder_succ, outcomeUnder_succ, outcomeUnder, askedUnder_of_finished hfinished]
  exact ⟨rfl, congrArg Prod.fst (next_of_finished hfinished _)⟩

/-- **Asking for several matches is asking again and again** — what is found each time, and what
becomes of the search and the host. -/
theorem collect_eq_asked (q : Query α) (limit : Nat) (s : Search) (host : Host) :
    (collect q limit s host).2 = s.askedUnder q host limit ∧
      ∀ i < limit, s.outcomeUnder q host i = (collect q limit s host).1.outcomeAt i := by
  induction limit generalizing s host with
  | zero => exact ⟨rfl, fun i hi => absurd hi (Nat.not_lt_zero i)⟩
  | succ limit ih =>
    have hfirst : s.outcomeUnder q host 0 = (s.next q host).1 := rfl
    by_cases hfound : ∃ registers, (s.next q host).1 = .ok (some registers)
    · obtain ⟨registers, hnext⟩ := hfound
      obtain ⟨hrest, hlater⟩ := ih (s.next q host).2.1 (s.next q host).2.2
      rw [collect_of_found (Prod.ext hnext rfl) rfl, askedUnder_succ]
      refine ⟨hrest, fun i hi => ?_⟩
      cases i with
      | zero => exact hfirst.trans hnext
      | succ i =>
        rw [outcomeUnder_succ, hlater i (Nat.lt_of_succ_lt_succ hi)]
        simp [Batch.outcomeAt]
    · have hended := asked_of_none (not_exists.mp hfound)
      rw [collect_of_ended (not_exists.mp hfound)]
      refine ⟨(hended limit).1.symm, fun i hi => ?_⟩
      cases i with
      | zero => exact (Batch.outcomeAt_ending_zero (not_exists.mp hfound)).symm
      | succ i => exact (hended i).2.trans (Batch.outcomeAt_ending_succ _ i).symm

/-- **Asking for `k + l` matches is asking for `k`, and then for `l`.** -/
theorem collect_add (q : Query α) (k l : Nat) (s : Search) (host : Host) :
    let first := collect q k s host
    let second := collect q l first.2.1 first.2.2
    collect q (k + l) s host = (first.1.append second.1, second.2) := by
  induction k generalizing s host with
  | zero => simp [collect, Batch.append]
  | succ k ih =>
    rw [Nat.add_right_comm]
    by_cases hfound : ∃ registers, (s.next q host).1 = .ok (some registers)
    · obtain ⟨registers, hnext⟩ := hfound
      have hrest := ih (s.next q host).2.1 (s.next q host).2.2
      simp only [collect_of_found (Prod.ext hnext rfl) hrest,
        collect_of_found (Prod.ext hnext rfl) rfl, Batch.append, List.cons_append]
    · have hends := finished_of_next (not_exists.mp hfound)
      simp only [collect_of_ended (not_exists.mp hfound), collect_of_finished hends,
        Batch.append_empty]

/-! ## Calls -/

/-- **A call that finds fewer matches than there is room for leaves nothing to the next one.** -/
theorem length_collect_eq_or (q : Query α) (k l : Nat) (s : Search) (host : Host) :
    let first := collect q k s host
    first.1.found.length = k ∨ (collect q l first.2.1 first.2.2).1 = {} := by
  intro first
  rcases Nat.lt_or_eq_of_le (length_collect_le q k s host) with hlt | heq
  · exact .inr (by rw [collect_of_finished (finished_of_collect fun _ => hlt)])
  · exact .inl heq

/-- The two parts of an output that is cut between two slots have all its slots. -/
theorem slots_eq_add {n : Nat} (hn : 0 < n) (slots : Nat) (output : Array (Option Nat)) :
    output.size / n = (output.extract 0 (slots * n)).size / n +
      (output.extract (slots * n) output.size).size / n := by
  rw [Array.size_extract, Array.size_extract, Nat.min_self, Nat.sub_zero]
  rcases Nat.le_total (slots * n) output.size with hin | hout
  · rw [Nat.min_eq_left hin, Nat.mul_div_cancel _ hn, Nat.add_comm,
      ← Nat.add_mul_div_right _ _ hn, Nat.sub_add_cancel hin]
  · rw [Nat.min_eq_right hout, Nat.sub_eq_zero_of_le hout, Nat.zero_div, Nat.add_zero]

/-- **An output that is cut between two slots can be filled in two calls.** -/
theorem fill_append (h : s.machine.Sound q) (host : Host) (output : Array (Option Nat))
    (slots : Nat) :
    let part := output.extract 0 (slots * q.registerCount)
    let rest := output.extract (slots * q.registerCount) output.size
    let first := s.fill q host part
    let second := first.2.2.1.fill q first.2.2.2 rest
    s.fill q host output =
      (do return (← first.1) + (← second.1), first.2.1 ++ second.2.1, second.2.2) := by
  intro part rest first second
  have hpositive : 0 < q.registerCount := Nat.lt_of_lt_of_le Nat.two_pos q.two_le_registerCount
  have hpart : part.size = min (slots * q.registerCount) output.size := by simp [part]
  have hrest : rest.size = output.size - slots * q.registerCount := by simp [rest]
  have hslots : output.size / q.registerCount =
      part.size / q.registerCount + rest.size / q.registerCount :=
    slots_eq_add hpositive slots output
  obtain ⟨hlength, hle⟩ := length_written_collect h host part
  have hwhole := collect_add q (part.size / q.registerCount) (rest.size / q.registerCount) s host
  have hor := length_collect_eq_or q (part.size / q.registerCount)
    (rest.size / q.registerCount) s host
  rw [← hslots] at hwhole
  rw [fill, hwhole]
  refine Prod.ext (Batch.result_append _ _) (Prod.ext (Batch.writeOver_append ?_ ?_ ?_) rfl)
  · exact Nat.le_trans hle (hpart ▸ Nat.min_le_left _ _)
  · exact Nat.le_trans hle (hpart ▸ Nat.min_le_right _ _)
  · rcases Nat.le_total (slots * q.registerCount) output.size with hin | hout
    · refine hor.imp (fun hfull => ?_) fun hnone => by rw [hnone]; rfl
      rw [hlength, hfull, hpart, Nat.min_eq_left hin, Nat.mul_div_cancel _ hpositive]
    · refine .inr ?_
      rw [hrest, Nat.sub_eq_zero_of_le hout, Nat.zero_div]
      rfl

/-- An error takes the place of a match. -/
theorem length_collect_lt {limit : Nat} {error : SearchError}
    (h : (collect q limit s host).1.error? = some error) :
    (collect q limit s host).1.found.length < limit := by
  induction limit generalizing s host with
  | zero => simp [collect] at h
  | succ limit ih =>
    by_cases hfound : ∃ registers, (s.next q host).1 = .ok (some registers)
    · obtain ⟨registers, hnext⟩ := hfound
      rw [collect_of_found (Prod.ext hnext rfl) rfl] at h ⊢
      exact Nat.succ_lt_succ (ih h)
    · rw [collect_of_ended (not_exists.mp hfound)]
      exact Nat.succ_pos limit

/-- **What a call writes** — into the slots from the beginning on, the matches that are found when
the search is asked again and again. It stops when no slot is left, or when there is no match; it
fails with the error that is found in the place of one. -/
theorem fill_writes (h : s.machine.Sound q) (host : Host) (output : Array (Option Nat)) :
    let n := q.registerCount
    let call := s.fill q host output
    call.2.2 = s.askedUnder q host (output.size / n) ∧ call.2.1.size = output.size ∧
      ∃ count ≤ output.size / n,
        (∀ i < count,
          s.outcomeUnder q host i = .ok (some (call.2.1.extract (i * n) ((i + 1) * n)))) ∧
        (∀ cell, count * n ≤ cell → call.2.1[cell]? = output[cell]?) ∧
        (call.1 = .ok count ∧ (count = output.size / n ∨ s.outcomeUnder q host count = .ok none) ∨
          ∃ error, call.1 = .error error ∧ s.outcomeUnder q host count = .error error) := by
  intro n call
  obtain ⟨hasked, hfound⟩ := collect_eq_asked q (output.size / q.registerCount) s host
  obtain ⟨hlength, hle⟩ := length_written_collect h host output
  have hsizes := size_of_mem_collect h (output.size / q.registerCount) host
  have hcount := length_collect_le q (output.size / q.registerCount) s host
  have hfails : ∀ error,
      (collect q (output.size / q.registerCount) s host).1.error? = some error → _ :=
    fun _ => length_collect_lt
  have hcall : call = ((collect q (output.size / q.registerCount) s host).1.result,
      (collect q (output.size / q.registerCount) s host).1.writeOver output,
      (collect q (output.size / q.registerCount) s host).2) := rfl
  rw [hcall]
  generalize (collect q (output.size / q.registerCount) s host).1 = batch at *
  refine ⟨hasked, Batch.size_writeOver hle, batch.found.length, hcount, fun i hi => ?_,
    fun cell hcell => ?_, ?_⟩
  · rw [hfound i (Nat.lt_of_lt_of_le hi hcount), Batch.outcomeAt_eq_found,
      Batch.extract_writeOver hsizes hi, List.getElem?_eq_getElem hi]
  · rw [Batch.getElem?_writeOver hle, if_neg (by rw [hlength]; exact Nat.not_lt.mpr hcell)]
  · rcases herror : batch.error? with _ | error
    · refine .inl ⟨by rw [Batch.result, herror], ?_⟩
      refine (Nat.lt_or_eq_of_le hcount).symm.imp_right fun hlt => ?_
      rw [hfound _ hlt]
      simp [Batch.outcomeAt, herror]
    · refine .inr ⟨error, by rw [Batch.result, herror], ?_⟩
      rw [hfound _ (hfails error herror), Batch.outcomeAt_eq_error]
      exact ⟨rfl, herror⟩

/-- **Filling an output in two parts is filling it at once** — wherever it is cut between two slots,
whatever the host answers. The second call goes on with the search and the host that the first one
leaves, and the two write the parts of what one call writes. One call returns the sum of their
numbers, or the error of the one that fails.

The matches written are those found by asking again and again, one behind the other, and nothing
behind them is changed, be it that there are no more, that no slot is left, or that an error ended
the call. -/
theorem fill_composes (q : Query α) (position : Nat) (calls : List Call) (host : Host)
    (output : Array (Option Nat)) (slots : Nat) :
    let s := (start q position).after q calls
    let n := q.registerCount
    let first := s.fill q host (output.extract 0 (slots * n))
    let second := first.2.2.1.fill q first.2.2.2 (output.extract (slots * n) output.size)
    let whole := s.fill q host output
    whole.1 = (do return (← first.1) + (← second.1)) ∧ whole.2.1 = first.2.1 ++ second.2.1 ∧
      whole.2.2 = second.2.2 ∧
      whole.2.2 = s.askedUnder q host (output.size / n) ∧ whole.2.1.size = output.size ∧
      ∃ count ≤ output.size / n,
        (∀ i < count,
          s.outcomeUnder q host i = .ok (some (whole.2.1.extract (i * n) ((i + 1) * n)))) ∧
        (∀ cell, count * n ≤ cell → whole.2.1[cell]? = output[cell]?) ∧
        (whole.1 = .ok count ∧
            (count = output.size / n ∨ s.outcomeUnder q host count = .ok none) ∨
          ∃ error, whole.1 = .error error ∧ s.outcomeUnder q host count = .error error) := by
  intro s n first second whole
  have hsound : s.machine.Sound q := sound_after (sound_start q position) calls
  have happend : whole = _ := fill_append hsound host output slots
  exact ⟨congrArg (·.1) happend, congrArg (·.2.1) happend, congrArg (·.2.2) happend,
    fill_writes hsound host output⟩

/-- The two matches of `abc|a` in `aab`, written at once and one by one into an output of two and a
half slots. -/
example :
    let output : Array (Option Nat) := .replicate 5 (some 42)
    let whole := (start longOrShort 0).fill longOrShort .quiet output
    let first := (start longOrShort 0).fill longOrShort .quiet (output.extract 0 2)
    let second := first.2.2.1.fill longOrShort first.2.2.2 (output.extract 2 5)
    whole.1.toOption = some 2 ∧ whole.2.1 = #[some 0, some 1, some 1, some 2, some 42] ∧
      first.1.toOption = some 1 ∧ first.2.1 = #[some 0, some 1] ∧
      second.1.toOption = some 1 ∧ second.2.1 = #[some 1, some 2, some 42] := by
  decide +kernel

end Search

end RegexMachine
