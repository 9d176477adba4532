-- A set of numbers below 64 as the bits of one word.
import Mathlib.Data.Nat.Bitwise

namespace BitMask

/-- The number `i` is in the set. -/
def Has (mask : UInt64) (i : Nat) : Prop := mask.toNat.testBit i = true

instance (mask : UInt64) (i : Nat) : Decidable (Has mask i) :=
  inferInstanceAs (Decidable (mask.toNat.testBit i = true))

@[simp] theorem has_zero (i : Nat) : ¬ Has 0 i := by simp [Has]

@[simp] theorem has_one (i : Nat) : Has 1 i ↔ i = 0 := by
  simp [Has, Nat.testBit_one_eq_true_iff_self_eq_zero]

@[simp] theorem has_or (a b : UInt64) (i : Nat) : Has (a ||| b) i ↔ Has a i ∨ Has b i := by
  simp [Has]

/-- A shift by less than the width moves the set up, and drops what leaves the word. -/
theorem has_shift (a : UInt64) {s : UInt64} (hs : s.toNat < 64) (i : Nat) :
    Has (a <<< s) i ↔ i < 64 ∧ s.toNat ≤ i ∧ Has a (i - s.toNat) := by
  rw [Has, UInt64.toNat_shiftLeft, Nat.mod_eq_of_lt hs, Nat.testBit_mod_two_pow,
    Nat.testBit_shiftLeft]
  simp [Has]

theorem has_bit {j : UInt64} (hj : j.toNat < 64) (i : Nat) :
    Has (1 <<< j) i ↔ i = j.toNat := by
  rw [has_shift 1 hj, has_one]
  omega

theorem toNat_bit {j : UInt64} (hj : j.toNat < 64) : (1 <<< j : UInt64).toNat = 2 ^ j.toNat := by
  have hlt : 2 ^ j.toNat < 2 ^ 64 := Nat.pow_lt_pow_right (by decide) hj
  simp only [UInt64.toNat_shiftLeft, UInt64.toNat_one, Nat.mod_eq_of_lt hj, Nat.one_shiftLeft]
  exact Nat.mod_eq_of_lt hlt

theorem and_bit (a : UInt64) {j : UInt64} (hj : j.toNat < 64) :
    a &&& (1 <<< j) ≠ 0 ↔ Has a j.toNat := by
  have hand : (a &&& (1 <<< j)).toNat = (a.toNat.testBit j.toNat).toNat * 2 ^ j.toNat := by
    rw [UInt64.toNat_and, toNat_bit hj, Nat.and_two_pow]
  rw [ne_eq, ← UInt64.toNat_inj, hand]
  cases h : a.toNat.testBit j.toNat <;> simp [Has, h]

end BitMask
