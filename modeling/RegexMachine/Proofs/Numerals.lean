import Mathlib.Data.List.Basic
import Mathlib.Tactic.Common
import RegexMachine.Numeral

/-!
# Proofs/Numerals — numbers read back from their digits

`readNumeral?` takes the value that digits have in a base, and refuses them if this number would
have been written in another way: with other padding, or with something that is no digit. So it
reads what `decimal` and `hexadecimal` write, at any number of digits, and nothing else
(`readDecimal?_eq_some_iff`, `readUnit?_eq_some_iff`). Two numbers written the same are the same.
-/

namespace RegexMachine

/-- All digits, in the order of their values. -/
def digitChars : List Char :=
  ['0', '1', '2', '3', '4', '5', '6', '7', '8', '9', 'a', 'b', 'c', 'd', 'e', 'f']

/-- The number that digits write in a base. -/
def numeralValue (base : Nat) (cs : List Char) : Nat :=
  cs.foldl (fun n c => base * n + digitChars.idxOf c) 0

/-- A number, if it is written with that least number of digits. -/
def readNumeral? (base digits : Nat) (cs : List Char) : Option Nat :=
  let n := numeralValue base cs
  if (Nat.toDigits base n).leftpad digits '0' = cs then some n else none

/-- A number in base ten. -/
def readDecimal? (digits : Nat) (cs : List Char) : Option Nat := readNumeral? 10 digits cs

/-- A code unit, in base sixteen with four digits. -/
def readUnit? : List Char → Option UInt16
  | '0' :: 'x' :: cs =>
    (readNumeral? 16 4 cs).bind fun n =>
      if h : n < UInt16.size then some (.ofNatLT n h) else none
  | _ => none

/-! ## Values -/

theorem idxOf_digitChar : ∀ d < 16, digitChars.idxOf (Nat.digitChar d) = d := by decide

theorem digitChar_mem : ∀ d < 16, Nat.digitChar d ∈ digitChars := by decide

variable {base digits n : Nat} {c : Char} {cs : List Char}

theorem numeralValue_concat (base : Nat) (cs : List Char) (c : Char) :
    numeralValue base (cs ++ [c]) = base * numeralValue base cs + digitChars.idxOf c := by
  rw [numeralValue, List.foldl_append]
  rfl

/-- **Induction on the digits of a number**, one more at the end each time. -/
theorem toDigits_induction {motive : Nat → List Char → Prop} (hone : 1 < base)
    (single : ∀ d < base, motive d [Nat.digitChar d])
    (concat : ∀ n cs, ∀ d < base, motive n cs → motive (base * n + d) (cs ++ [Nat.digitChar d]))
    (n : Nat) : motive n (Nat.toDigits base n) := by
  induction n using Nat.strongRecOn with
  | ind n ih =>
    rw [Nat.toDigits_eq_if hone]
    split
    · next hlt => exact single n hlt
    · next hle =>
      have hfewer : n / base < n := Nat.div_lt_self (by omega) hone
      have hmore := concat _ _ (n % base) (Nat.mod_lt n (Nat.zero_lt_of_lt hone)) (ih _ hfewer)
      rwa [Nat.div_add_mod] at hmore

/-- **The digits of a number have its value.** -/
theorem numeralValue_toDigits (hone : 1 < base) (hbase : base ≤ 16) (n : Nat) :
    numeralValue base (Nat.toDigits base n) = n := by
  refine toDigits_induction (motive := fun n cs => numeralValue base cs = n) hone
    (fun d hd => ?_) (fun n cs d hd ih => ?_) n
  · rw [numeralValue, List.foldl_cons, List.foldl_nil,
      idxOf_digitChar d (Nat.lt_of_lt_of_le hd hbase), Nat.mul_zero, Nat.zero_add]
  · rw [numeralValue_concat, ih, idxOf_digitChar d (Nat.lt_of_lt_of_le hd hbase)]

/-- Zeros in front do not change the value. -/
theorem numeralValue_leftpad (base digits : Nat) (cs : List Char) :
    numeralValue base (cs.leftpad digits '0') = numeralValue base cs := by
  have hzeros : ∀ k, numeralValue base (List.replicate k '0') = 0 := by
    intro k
    induction k with
    | zero => rfl
    | succ k ih => rw [List.replicate_succ', numeralValue_concat, ih]; rfl
  rw [List.leftpad, numeralValue, List.foldl_append]
  change cs.foldl _ (numeralValue base _) = _
  rw [hzeros]
  rfl

/-- **A numeral is read exactly if it is written that way.** -/
theorem readNumeral?_eq_some_iff (hone : 1 < base) (hbase : base ≤ 16) :
    readNumeral? base digits cs = some n ↔ cs = (Nat.toDigits base n).leftpad digits '0' := by
  rw [readNumeral?, Option.ite_none_right_eq_some]
  constructor
  · rintro ⟨hwritten, hvalue⟩
    rw [← Option.some.inj hvalue, hwritten]
  · rintro rfl
    rw [numeralValue_leftpad, numeralValue_toDigits hone hbase]
    exact ⟨rfl, rfl⟩

theorem readDecimal?_eq_some_iff : readDecimal? digits cs = some n ↔ cs = decimal digits n :=
  readNumeral?_eq_some_iff (by decide) (by decide)

theorem readUnit?_eq_some_iff {u : UInt16} :
    readUnit? cs = some u ↔ cs = hexadecimal 4 u.toNat := by
  rw [readUnit?.eq_def]
  split
  · next digits =>
    rw [hexadecimal, List.cons.injEq, List.cons.injEq, and_iff_right rfl, and_iff_right rfl,
      ← readNumeral?_eq_some_iff (by decide) (by decide), Option.bind_eq_some_iff]
    constructor
    · rintro ⟨n, hn, hunit⟩
      obtain ⟨hlt, hsome⟩ := Option.dite_none_right_eq_some.mp hunit
      rw [hn, ← Option.some.inj hsome, UInt16.toNat_ofNatLT]
    · intro hn
      exact ⟨_, hn, by simp [UInt16.toNat_lt_size]⟩
  · next hother =>
    refine ⟨nofun, ?_⟩
    rintro rfl
    exact absurd rfl (hother _)

/-! ## Digits and no others -/

theorem mem_digitChars_of_mem_toDigits (hone : 1 < base) (hbase : base ≤ 16)
    (h : c ∈ Nat.toDigits base n) : c ∈ digitChars := by
  refine toDigits_induction (motive := fun _ cs => ∀ c ∈ cs, c ∈ digitChars) hone
    (fun d hd => ?_) (fun n cs d hd ih => ?_) n c h
  · exact List.forall_mem_singleton.mpr (digitChar_mem d (Nat.lt_of_lt_of_le hd hbase))
  · exact List.forall_mem_append.mpr
      ⟨ih, List.forall_mem_singleton.mpr (digitChar_mem d (Nat.lt_of_lt_of_le hd hbase))⟩

theorem mem_digitChars_of_mem_leftpad (hone : 1 < base) (hbase : base ≤ 16)
    (h : c ∈ (Nat.toDigits base n).leftpad digits '0') : c ∈ digitChars := by
  rcases List.mem_append.mp h with h | h
  · rw [List.eq_of_mem_replicate h]
    exact List.mem_cons_self
  · exact mem_digitChars_of_mem_toDigits hone hbase h

/-- A character that is no digit does not occur in a number. -/
theorem not_mem_decimal (h : c ∉ digitChars) : c ∉ decimal digits n :=
  fun hmem => h (mem_digitChars_of_mem_leftpad (by decide) (by decide) hmem)

theorem not_mem_hexadecimal (h : c ∉ 'x' :: digitChars) : c ∉ hexadecimal digits n := by
  intro hmem
  rcases List.mem_cons.mp hmem with rfl | hmem
  · exact h (by decide)
  · rcases List.mem_cons.mp hmem with rfl | hmem
    · exact h List.mem_cons_self
    · exact h (List.mem_cons_of_mem _
        (mem_digitChars_of_mem_leftpad (by decide) (by decide) hmem))

end RegexMachine
