import Mathlib.Data.BitVec

/-!
# Aligned words

The two low bits of an address, in arithmetic.
-/

namespace Alignment

theorem toNat_and_three (x : BitVec 32) : (x &&& 3#32).toNat = x.toNat % 4 := by
  rw [BitVec.toNat_and]
  exact Nat.and_two_pow_sub_one_eq_mod x.toNat 2

theorem and_three_eq_zero (x : BitVec 32) : x &&& 3#32 = 0 ↔ x.toNat % 4 = 0 := by
  rw [← BitVec.toNat_inj,toNat_and_three]
  rfl

theorem toNat_clear (x : BitVec 32) : (x &&& ~~~3#32).toNat = 4*(x.toNat / 4) := by
  have h : (x &&& ~~~3#32) + (x &&& 3#32) = x := by
    rw [BitVec.add_eq_or_of_and_eq_zero]
    · rw [← BitVec.and_or_distrib_left]
      show x &&& BitVec.allOnes 32 = x
      exact BitVec.and_allOnes
    · rw [show (x &&& ~~~3#32) &&& (x &&& 3#32) = x &&& x &&& (~~~3#32 &&& 3#32) by ac_rfl]
      simp
  have hle : (x &&& ~~~3#32).toNat ≤ x.toNat := by
    rw [BitVec.toNat_and]
    exact Nat.and_le_left
  have hsum := congrArg BitVec.toNat h
  rw [BitVec.toNat_add,toNat_and_three] at hsum
  omega

end Alignment
