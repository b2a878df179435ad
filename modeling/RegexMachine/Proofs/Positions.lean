import RegexMachine.Proofs.Invariant

/-!
# Proofs/Positions — which positions a register can hold

A thread writes the position it stands at, and begins with no position in any register. So all that
the registers of a scan hold are positions between the one the scan began at and the one it has
reached (`Scanning.recorded`): nothing of an earlier scan is left, although the arrays are recycled.
-/

namespace RegexMachine

/-- Every position in a register lies between two bounds. -/
def Registers.Within (low high : Nat) (registers : Registers) : Prop :=
  ∀ position, some position ∈ registers → low ≤ position ∧ position ≤ high

namespace Registers.Within

variable {low high high' : Nat} {registers : Registers}

theorem mono (h : registers.Within low high) (hle : high ≤ high') : registers.Within low high' :=
  fun position hmem => ⟨(h position hmem).1, Nat.le_trans (h position hmem).2 hle⟩

theorem replicate_none (n : Nat) : Registers.Within low high (Array.replicate n none) := by
  intro position hmem
  simp at hmem

/-- Storing a position between the bounds keeps to them, and so does clearing a register. -/
theorem setIfInBounds (h : registers.Within low high) {value : Option Nat}
    (hvalue : ∀ position ∈ value, low ≤ position ∧ position ≤ high) (r : Nat) :
    Registers.Within low high (registers.setIfInBounds r value) := by
  intro position hmem
  rcases Array.mem_or_eq_of_mem_setIfInBounds hmem with hold | hnew
  · exact h position hold
  · exact hvalue position hnew.symm

theorem of_position? (h : registers.Within low high) {r position : Nat}
    (hr : registers.position? r = some position) : low ≤ position ∧ position ≤ high :=
  h position (Array.mem_of_getElem? (Option.join_eq_some_iff.mp hr))

end Registers.Within

namespace Machine

/-- **All registers hold positions of the scan**, which began at the position `low`. -/
structure Recorded (low : Nat) (m : Machine) : Prop where
  low_le : low ≤ m.position
  threads : ∀ t ∈ m.threads, t.registers.Within low m.position
  best : ∀ registers ∈ m.best, registers.Within low m.position

namespace Recorded

variable {low : Nat} {m : Machine} {t : Thread}

theorem of_running (h : m.Recorded low) (ht : m.running = some t) :
    t.registers.Within low m.position :=
  h.threads t (by simp [Machine.threads, ht])

theorem of_active (h : m.Recorded low) (ht : t ∈ m.active) : t.registers.Within low m.position :=
  h.threads t (by simp [Machine.threads, ht])

theorem of_blocked (h : m.Recorded low) (ht : t ∈ m.blocked) :
    t.registers.Within low m.position :=
  h.threads t (by simp [Machine.threads, ht])

/-- A thread of a machine whose turn was given to another one. -/
theorem of_turn (h : m.Recorded low) (next : Option Thread)
    (hnext : ∀ u ∈ next, u.registers.Within low m.position) {u : Thread}
    (hu : u ∈ next.toList ++ m.active ++ m.blocked) : u.registers.Within low m.position := by
  rw [List.append_assoc, List.mem_append, List.mem_append] at hu
  rcases hu with hu | hu | hu
  · exact hnext u (by simpa using hu)
  · exact h.of_active hu
  · exact h.of_blocked hu

theorem drop (h : m.Recorded low) (t : Thread) : (m.drop t).Recorded low :=
  { h with threads := fun _ hu => h.of_turn none (by simp) hu }

theorem resume (h : m.Recorded low) (ht : t.registers.Within low m.position) :
    (m.resume t).Recorded low :=
  { h with threads := fun _ hu => h.of_turn (some t) (by simpa using ht) hu }

theorem write (h : m.Recorded low) (ht : t.registers.Within low m.position) {r : Nat}
    {value : Option Nat} (hvalue : ∀ position ∈ value, position = m.position) :
    (m.resume (t.write r value)).Recorded low := by
  refine h.resume (ht.setIfInBounds (fun position hposition => ?_) r)
  rw [hvalue position hposition]
  exact ⟨h.low_le, Nat.le_refl _⟩

variable {α : Type} [CodeUnit α] {q : Query α}

/-- **An instruction writes the position it is run at, or none.** -/
theorem execute (h : m.Recorded low) (ht : t.registers.Within low m.position) (i : Instruction) :
    (m.execute q t i).Recorded low := by
  cases i with
  | consume min max =>
    refine { h with threads := fun u hu => ?_ }
    rcases List.mem_append.mp hu with hu | hu
    · exact h.of_active hu
    · rcases List.mem_cons.mp hu with rfl | hu
      · exact ht
      · exact h.of_blocked hu
  | assert kind =>
    rw [Machine.execute]
    split
    · exact h.resume ht
    · exact h.drop t
  | fork target =>
    refine { h with threads := fun u hu => ?_ }
    rcases List.mem_cons.mp hu with rfl | hu
    · exact ht
    · rcases List.mem_cons.mp hu with rfl | hu
      · exact ht
      · exact h.of_turn none (by simp) hu
  | jump target => exact h.resume ht
  | accept =>
    refine ⟨h.low_le, fun u hu => h.of_blocked (by simpa [Machine.execute, Machine.accept,
      Machine.threads] using hu), fun registers hr => ?_⟩
    obtain rfl : t.registers = registers := by simpa [Machine.execute, Machine.accept] using hr
    exact ht
  | setRegister r => exact h.write ht (by simp)
  | clearRegister r => exact h.write ht (by simp)
  | beginLoop => exact h.resume ht
  | endLoop =>
    rw [Machine.execute]
    split
    · exact h.resume ht
    · exact h.drop t
  | writeLookbehind index => exact { h with threads := (h.drop t).threads }
  | readLookbehind index want =>
    rw [Machine.execute]
    split
    · exact h.resume ht
    · exact h.drop t

theorem step (h : m.Recorded low) : (m.step q).Recorded low := by
  rw [Machine.step]
  split
  · next t hrunning =>
    have ht := h.of_running hrunning
    have hnote : (m.note t).Recorded low := ⟨h.low_le, h.threads, h.best⟩
    split
    · split
      · exact hnote.execute ht _
      · exact h.drop t
    · exact h.drop t
  · next t active hrunning hactive =>
    refine { h with threads := fun u hu => h.threads u ?_ }
    simpa [Machine.threads, hrunning, hactive] using hu
  · exact h

/-- **Reading a unit writes nothing.** -/
theorem read (h : m.Recorded low) (hidle : m.isIdle = true) (hlt : m.position < q.input.size) :
    (m.read q hlt).Recorded low := by
  have hposition : (m.read q hlt).position = m.position + 1 := position_feed _ _ _
  have hrest : m.running = none ∧ m.active = [] := by simpa [isIdle] using hidle
  have hle := Nat.le_succ m.position
  refine ⟨by rw [hposition]; exact Nat.le_trans h.low_le hle, fun u hu => ?_,
    fun registers hr => ?_⟩
  · rw [hposition]
    obtain ⟨t, ht, hwoken⟩ : ∃ t ∈ m.blocked,
        q.woken (CodeUnit.word q.input[m.position]) t = some u := by
      simpa [Machine.threads, Machine.read, Machine.advance, hrest.1, hrest.2] using hu
    obtain rfl := Option.some.inj (Option.ite_none_right_eq_some.mp hwoken).2
    exact (h.of_blocked ht).mono hle
  · rw [hposition]
    exact (h.best registers (by simpa [Machine.read, Machine.advance] using hr)).mono hle

end Recorded

variable {α : Type} [CodeUnit α] {q : Query α} {m₀ m : Machine}

/-- **All through a scan the registers hold positions of the scan.** -/
theorem Scanning.recorded (h : Scanning q m₀ m) (h₀ : m₀.Sound q) : m.Recorded m₀.position := by
  induction h with
  | begin =>
    obtain ⟨pool, -, heq⟩ := h₀.beginScan_eq
    rw [heq]
    refine ⟨Nat.le_refl _, fun t ht => ?_, by simp⟩
    obtain ⟨pc, -, rfl⟩ : ∃ pc ∈ seeds q, q.seed pc = t := by simpa [Machine.threads] using ht
    exact .replicate_none _
  | step _ ih => exact ih.step
  | read _ hidle _ hlt ih => exact ih.read hidle hlt

/-- What a scan finds is within the scan. -/
theorem Sound.within_of_scan (h : m.Sound q) {host : Host} {registers : Registers}
    (hnone : (m.scan q host).1 = none) (hbest : (m.scan q host).2.1.best = some registers) :
    registers.Within m.position q.input.size := by
  have hend := Scanning.scan q m host
  split at hend
  · next last host' heq =>
    rw [heq] at hbest
    exact ((hend.1.recorded h).best registers hbest).mono (hend.1.sound h).position_le
  · next error last host' heq =>
    rw [heq] at hnone
    simp at hnone

end Machine

end RegexMachine
