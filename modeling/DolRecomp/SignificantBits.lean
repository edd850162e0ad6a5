import Mathlib.Algebra.Order.Ring.Nat
import Mathlib.Algebra.Order.Group.Nat
import Mathlib.Tactic.Common

/-!
# Rounding to significant bits

A natural number rounded to a multiple of a power of two, half of it upwards, and to so many bits
from its leading one on.
-/

namespace SignificantBits

/-- The nearest multiple of `2^k`, the upper one of two. -/
def roundAt (k m : ℕ) : ℕ := (m + 2^k/2)/2^k*2^k

/-- `m` to `p` significant bits. -/
def roundTo (p m : ℕ) : ℕ := roundAt (m.log2 + 1 - p) m

variable {k m : ℕ}

theorem roundAt_zero (m : ℕ) : roundAt 0 m = m := by simp [roundAt]

theorem dvd_roundAt (k m : ℕ) : 2^k ∣ roundAt k m := Dvd.intro_left _ rfl

theorem roundAt_add {c : ℕ} (h : 2^k ∣ c) : roundAt k (c + m) = c + roundAt k m := by
  obtain ⟨d,rfl⟩ := h
  rw [roundAt,roundAt,Nat.add_assoc,Nat.mul_add_div (Nat.two_pow_pos k),Nat.add_mul,Nat.mul_comm d]

theorem roundAt_mul (hk : 0 < k) (b : ℕ) : roundAt (k + b) (m*2^b) = roundAt k m*2^b := by
  obtain ⟨j,rfl⟩ := Nat.exists_eq_add_of_lt hk
  have hhalf : 2^(0 + j + 1 + b)/2 = 2^j*2^b := by
    rw [show 0 + j + 1 + b = j + b + 1 by omega,Nat.pow_succ,Nat.mul_div_cancel _ (by decide),
      Nat.pow_add]
  have hhalf' : 2^(0 + j + 1)/2 = 2^j := by
    rw [Nat.zero_add,Nat.pow_succ,Nat.mul_div_cancel _ (by decide)]
  rw [roundAt,roundAt,hhalf,hhalf',← Nat.add_mul,Nat.pow_add,
    Nat.mul_div_mul_right _ _ (Nat.two_pow_pos b),Nat.mul_assoc]

theorem roundAt_le {n : ℕ} (hk : k ≤ n) (hm : m ≤ 2^n) : roundAt k m ≤ 2^n := by
  have hpos := Nat.two_pow_pos k
  have hsplit : 2^n = 2^(n - k)*2^k := by rw [← Nat.pow_add,Nat.sub_add_cancel hk]
  have hlt : (m + 2^k/2)/2^k < 2^(n - k) + 1 := by
    rw [Nat.div_lt_iff_lt_mul hpos,Nat.add_mul,← hsplit]
    omega
  rw [roundAt,hsplit]
  exact Nat.mul_le_mul_right _ (Nat.lt_succ_iff.mp hlt)

/-- What has no more bits is a fixed point. -/
theorem roundAt_of_dvd (h : 2^k ∣ m) : roundAt k m = m := by
  have hpos := Nat.two_pow_pos k
  have hz : roundAt k 0 = 0 := by
    rw [roundAt,Nat.zero_add,Nat.div_eq_of_lt (by omega),Nat.zero_mul]
  have := roundAt_add (m := 0) h
  rwa [hz,Nat.add_zero] at this

theorem log2_mul_two_pow (h : m ≠ 0) (b : ℕ) : (m*2^b).log2 = m.log2 + b := by
  have hpos := Nat.two_pow_pos b
  refine (Nat.log2_eq_iff (Nat.mul_ne_zero h hpos.ne')).mpr ⟨?_,?_⟩
  · rw [Nat.pow_add]
    exact Nat.mul_le_mul_right _ (Nat.log2_self_le h)
  · rw [show m.log2 + b + 1 = m.log2 + 1 + b by omega,Nat.pow_add]
    exact Nat.mul_lt_mul_of_pos_right Nat.lt_log2_self hpos

/-- Rounding does not see the place of the number. -/
theorem roundTo_mul {p : ℕ} (h : m ≠ 0) (hp : p ≤ m.log2) (b : ℕ) :
    roundTo p (m*2^b) = roundTo p m*2^b := by
  rw [roundTo,roundTo,log2_mul_two_pow h,show m.log2 + b + 1 - p = m.log2 + 1 - p + b by omega]
  exact roundAt_mul (by omega) b

end SignificantBits
