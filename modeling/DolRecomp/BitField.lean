import Mathlib.Data.BitVec
import Mathlib.Tactic.Common

/-!
# Fields of a word

A field is so many bits from a bit on. Putting a value into a field and taking a field out, and
what one does to the other.
-/

namespace BitField

section

variable {w : ℕ}

/-- The low bits of a word. -/
def low (w n : ℕ) : BitVec w := BitVec.ofNat w (2^n - 1)

def put (shift n : ℕ) (v x : BitVec w) : BitVec w :=
  (x &&& ~~~(low w n <<< shift)) ||| ((v &&& low w n) <<< shift)

def get (shift n : ℕ) (x : BitVec w) : BitVec w := (x >>> shift) &&& low w n

theorem low_getLsbD {n i : ℕ} (hi : i < w) : (low w n).getLsbD i = decide (i < n) := by
  rw [low,BitVec.getLsbD_ofNat,decide_eq_true hi,Bool.true_and,Nat.testBit_two_pow_sub_one]

theorem get_getLsbD (shift n : ℕ) (x : BitVec w) {i : ℕ} (hi : i < w) :
    (get shift n x).getLsbD i = (x.getLsbD (shift + i) && decide (i < n)) := by
  rw [get,BitVec.getLsbD_and,BitVec.getLsbD_ushiftRight,low_getLsbD hi]

theorem put_getLsbD (shift n : ℕ) (v x : BitVec w) {i : ℕ} (hi : i < w) :
    (put shift n v x).getLsbD i =
      if shift ≤ i ∧ i < shift + n then v.getLsbD (i - shift) else x.getLsbD i := by
  rw [put,BitVec.getLsbD_or,BitVec.getLsbD_and,BitVec.getLsbD_not,BitVec.getLsbD_shiftLeft,
    BitVec.getLsbD_shiftLeft,BitVec.getLsbD_and,low_getLsbD (by omega),decide_eq_true hi]
  by_cases h : shift ≤ i
  · by_cases hn : i < shift + n
    · rw [if_pos ⟨h,hn⟩,decide_eq_false (by omega),decide_eq_true (show i - shift < n by omega)]
      simp
    · rw [if_neg fun hno => hn hno.2,decide_eq_false (show ¬i - shift < n by omega)]
      simp
  · rw [if_neg fun hno => h hno.1,decide_eq_true (show i < shift by omega)]
    simp

theorem get_put {shift n : ℕ} (h : shift + n ≤ w) (v x : BitVec w) :
    get shift n (put shift n v x) = v &&& low w n := by
  refine BitVec.eq_of_getLsbD_eq fun i hi => ?_
  rw [get_getLsbD _ _ _ hi,BitVec.getLsbD_and,low_getLsbD hi]
  by_cases hn : i < n
  · rw [put_getLsbD _ _ _ _ (by omega),if_pos ⟨by omega,by omega⟩,Nat.add_sub_cancel_left]
  · rw [decide_eq_false hn,Bool.and_false,Bool.and_false]

theorem get_put_of_disjoint {shift n s m : ℕ} (h : s + m ≤ shift ∨ shift + n ≤ s)
    (v x : BitVec w) : get s m (put shift n v x) = get s m x := by
  refine BitVec.eq_of_getLsbD_eq fun i hi => ?_
  rw [get_getLsbD _ _ _ hi,get_getLsbD _ _ _ hi]
  by_cases hm : i < m
  · by_cases hw : s + i < w
    · rw [put_getLsbD _ _ _ _ hw,if_neg (by omega)]
    · rw [BitVec.getLsbD_of_ge _ _ (by omega),BitVec.getLsbD_of_ge _ _ (by omega)]
  · rw [decide_eq_false hm,Bool.and_false,Bool.and_false]

theorem and_low {n : ℕ} {v : BitVec w} (hv : v.toNat < 2^n) : v &&& low w n = v := by
  refine BitVec.eq_of_getLsbD_eq fun i hi => ?_
  rw [BitVec.getLsbD_and,low_getLsbD hi]
  by_cases hn : i < n
  · rw [decide_eq_true hn,Bool.and_true]
  · have hpow : 2^n ≤ 2^i := Nat.pow_le_pow_right (by decide) (by omega)
    rw [decide_eq_false hn,Bool.and_false,BitVec.getLsbD,Nat.testBit_lt_two_pow (by omega)]

end

end BitField
