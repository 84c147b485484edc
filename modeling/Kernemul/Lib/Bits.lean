import Mathlib.Data.Nat.Bitwise
import Mathlib.Tactic.Common

/-!
# Words with flags in their low bits

A word `2 ^ k * n + f` with `f < 2 ^ k` is a number `n` over `k` bits of flags. Setting flags leaves the number,
and masking them off leaves the number alone.
-/

namespace Bits

theorem lor_low {k n f g : Nat} (hf : f < 2 ^ k) (hg : g < 2 ^ k) :
    (2 ^ k * n + f) ||| g = 2 ^ k * n + (f ||| g) := by
  rw [Nat.two_pow_add_eq_or_of_lt hf, Nat.or_assoc, ← Nat.two_pow_add_eq_or_of_lt (Nat.or_lt_two_pow hf hg)]

theorem land_low {k n f g : Nat} (hf : f < 2 ^ k) (hg : g < 2 ^ k) : (2 ^ k * n + f) &&& g = f &&& g := by
  apply Nat.eq_of_testBit_eq
  intro i
  rw [Nat.testBit_and, Nat.testBit_and, Nat.testBit_two_pow_mul_add n hf]
  split
  · rfl
  · have hzero : g.testBit i = false :=
      Nat.testBit_lt_two_pow (lt_of_lt_of_le hg (Nat.pow_le_pow_right (by decide) (by omega)))
    rw [hzero, Bool.and_false, Bool.and_false]

theorem toNat_and_not_low {w : Nat} (v : BitVec w) (k : Nat) :
    (v &&& ~~~BitVec.ofNat w (2 ^ k - 1)).toNat = 2 ^ k * (v.toNat / 2 ^ k) := by
  apply Nat.eq_of_testBit_eq
  intro i
  rw [BitVec.testBit_toNat, BitVec.getLsbD_and, BitVec.getLsbD_not, ← BitVec.testBit_toNat, Nat.testBit_two_pow_mul,
    Nat.testBit_div_two_pow, BitVec.getLsbD_ofNat, Nat.testBit_two_pow_sub_one]
  by_cases hi : i < w
  · by_cases hk : k ≤ i
    · simp [hi, hk, Nat.sub_add_cancel hk]
    · simp [hi, hk]
      omega
  · have hzero : v.toNat.testBit i = false :=
      Nat.testBit_lt_two_pow (lt_of_lt_of_le v.isLt (Nat.pow_le_pow_right (by decide) (by omega)))
    by_cases hk : k ≤ i
    · simp [hi, hk, Nat.sub_add_cancel hk, hzero]
    · simp [hi, hk]

end Bits
