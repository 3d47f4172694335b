import Mathlib.Data.Nat.Bitwise

/-!
# Bit fields of natural numbers

A mask of `n` ones at position `k` selects the field `x / 2 ^ k % 2 ^ n` (`and_field`), and an
`or` of a value above position `k` with one below it is their sum (`or_field`). With these the
masks and shifts of a machine word become division and remainder, which `omega` decides.
-/

namespace Lib.Bits

/-- A mask of `n` ones at position `k` keeps the field of `n` bits at `k`. -/
theorem and_field (x n k : Nat) : x &&& (2 ^ n - 1) * 2 ^ k = x / 2 ^ k % 2 ^ n * 2 ^ k := by
  apply Nat.eq_of_testBit_eq
  intro i
  rw [Nat.testBit_and, Nat.testBit_mul_two_pow, Nat.testBit_mul_two_pow, Nat.testBit_mod_two_pow,
    Nat.testBit_two_pow_sub_one, Nat.testBit_div_two_pow]
  by_cases hi : k ≤ i
  · rw [Nat.sub_add_cancel hi]
    cases x.testBit i <;> simp
  · simp [hi]

/-- The mask and the shift that follows it: the field itself. -/
theorem and_field_shift (x n k : Nat) :
    (x &&& (2 ^ n - 1) * 2 ^ k) >>> k = x / 2 ^ k % 2 ^ n := by
  rw [and_field, Nat.shiftRight_eq_div_pow, Nat.mul_div_cancel _ (Nat.two_pow_pos k)]

/-- One bit. -/
theorem and_bit (x k : Nat) : x &&& 2 ^ k = x / 2 ^ k % 2 * 2 ^ k := by
  simpa using and_field x 1 k

theorem one_le_and_bit (x k : Nat) : 1 ≤ x &&& 2 ^ k ↔ x / 2 ^ k % 2 = 1 := by
  have hk := Nat.two_pow_pos k
  rw [and_bit]
  rcases Nat.mod_two_eq_zero_or_one (x / 2 ^ k) with h | h <;> rw [h] <;> omega

/-- A value above position `k` and one below it do not overlap. -/
theorem or_field {b k : Nat} (hb : b < 2 ^ k) (a : Nat) : a * 2 ^ k ||| b = a * 2 ^ k + b := by
  rw [Nat.mul_comm, Nat.two_pow_add_eq_or_of_lt hb]

end Lib.Bits
