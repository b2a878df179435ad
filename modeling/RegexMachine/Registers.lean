/-!
# Registers — the positions a thread remembers, and the pool they are recycled through

Every thread owns a register array of the length fixed for the search. A dead thread gives its
array back to a `RegisterPool`, which hands it out again before it makes a new one: the number of
arrays ever made (`allocations`) is the largest number in use at one time, not the number of
threads that ever lived.
-/

namespace RegexMachine

/-- One slot per register; a register that holds no position is `none`. -/
abbrev Registers := Array (Option Nat)

/-- Register arrays of one length, ready for reuse. -/
structure RegisterPool where
  /-- The length of every array. -/
  registerCount : Nat
  /-- The arrays handed back and not yet handed out again, the latest first. -/
  free : List Registers := []
  /-- The number of arrays made so far; handing one out again does not count. -/
  allocations : Nat := 0
  deriving DecidableEq, Repr

namespace RegisterPool

/-- A pool that has made no array yet. -/
def empty (registerCount : Nat) : RegisterPool := { registerCount }

/-- The number of arrays ready for reuse. -/
def available (pool : RegisterPool) : Nat := pool.free.length

/-- **Hands out an array as it is** — the latest one given back, with the content it had then, or
else a new one in which every register is undefined. -/
def acquire (pool : RegisterPool) : Registers × RegisterPool :=
  match pool.free with
  | registers :: free => (registers, { pool with free })
  | [] =>
    (Array.replicate pool.registerCount none, { pool with allocations := pool.allocations + 1 })

/-- Hands out an array with every register set to `fill`. -/
def acquireFilled (pool : RegisterPool) (fill : Option Nat) : Registers × RegisterPool :=
  let (registers, pool) := pool.acquire
  (registers.map fun _ => fill, pool)

/-- Hands out an array with the content of `source`, which has the pool's length. -/
def duplicate (pool : RegisterPool) (source : Registers) : Registers × RegisterPool :=
  (source, pool.acquire.2)

/-- Takes an array back. -/
def release (pool : RegisterPool) (registers : Registers) : RegisterPool :=
  { pool with free := registers :: pool.free }

/-- Takes several arrays back, one after the other. -/
def releaseAll (pool : RegisterPool) (arrays : List Registers) : RegisterPool :=
  arrays.foldl release pool

/-! ## What the operations do to the two counts -/

theorem available_acquire (pool : RegisterPool) :
    pool.acquire.2.available = pool.available - 1 := by
  unfold acquire available
  split <;> simp_all

theorem allocations_acquire (pool : RegisterPool) :
    pool.acquire.2.allocations = pool.allocations + (if pool.available = 0 then 1 else 0) := by
  unfold acquire available
  split <;> simp_all

@[simp] theorem available_release (pool : RegisterPool) (registers : Registers) :
    (pool.release registers).available = pool.available + 1 := rfl

@[simp] theorem allocations_release (pool : RegisterPool) (registers : Registers) :
    (pool.release registers).allocations = pool.allocations := rfl

@[simp] theorem available_releaseAll (pool : RegisterPool) (arrays : List Registers) :
    (pool.releaseAll arrays).available = pool.available + arrays.length := by
  induction arrays generalizing pool with
  | nil => rfl
  | cons a arrays ih =>
    simp only [releaseAll, List.foldl_cons] at ih ⊢
    rw [ih, available_release, List.length_cons]
    omega

@[simp] theorem allocations_releaseAll (pool : RegisterPool) (arrays : List Registers) :
    (pool.releaseAll arrays).allocations = pool.allocations := by
  induction arrays generalizing pool with
  | nil => rfl
  | cons a arrays ih => exact ih (pool.release a)

end RegisterPool

end RegexMachine
