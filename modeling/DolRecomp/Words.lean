import Mathlib

/-!
# Facts about machine words

Carries, masks, sign bits and shifted-out bits of 32-bit and 64-bit words.
-/

namespace Words

theorem high_ne_zero {w : BitVec 64} (h : w.toNat < 2^33) : (w >>> 32 != 0#64) = w[32] := by
  rw [← BitVec.getLsbD_eq_getElem,BitVec.getLsbD,Nat.testBit_eq_decide_div_mod_eq]
  have hq : w.toNat / 2^32 = 0 ∨ w.toNat / 2^32 = 1 := by omega
  have hs : (w >>> 32 = 0#64) ↔ w.toNat / 2^32 = 0 := by
    rw [← BitVec.toNat_inj,BitVec.toNat_ushiftRight,Nat.shiftRight_eq_div_pow]
    rfl
  rcases hq with hq | hq <;> rw [hq] at hs ⊢
  · simp [hs.2 rfl]
  · have : w >>> 32 ≠ 0#64 := fun h => absurd (hs.1 h) (by decide)
    simpa using this

theorem addMinusOne_lt (a : BitVec 32) (ca : Bool) :
    (a.setWidth 64 + 4294967295#64 + (BitVec.ofBool ca).setWidth 64).toNat < 2^33 := by
  have ha : (a.setWidth 64).toNat < 2^32 := by
    rw [BitVec.toNat_setWidth]
    exact Nat.lt_of_le_of_lt (Nat.mod_le _ _) a.isLt
  have hc : ((BitVec.ofBool ca).setWidth 64).toNat ≤ 1 := by cases ca <;> decide
  have hm : (4294967295#64).toNat = 2^32 - 1 := by rfl
  rw [BitVec.toNat_add,BitVec.toNat_add,hm]
  generalize (a.setWidth 64).toNat = x at ha
  generalize ((BitVec.ofBool ca).setWidth 64).toNat = y at hc
  omega

theorem mulh_shift (x : BitVec 64) :
    (x >>> 32).setWidth 32 = (x.sshiftRight 32).setWidth 32 := by
  apply BitVec.eq_of_getLsbD_eq
  intro n hn
  rw [BitVec.getLsbD_setWidth,BitVec.getLsbD_setWidth,BitVec.getLsbD_sshiftRight,
    BitVec.getLsbD_ushiftRight]
  have h : 32 + n < 64 := by omega
  have h' : ¬ 64 ≤ n := by omega
  simp [h,h']

theorem toNat_lt_of_not_ult {x : BitVec 32} (h : (31#32).ult x = false) : x.toNat < 32 := by
  simp only [BitVec.ult,BitVec.toNat_ofNat,decide_eq_false_iff_not] at h
  omega

theorem toNat_and_31_lt (x : BitVec 32) : (x &&& 31#32).toNat < 32 := by
  rw [BitVec.toNat_and]
  exact Nat.lt_of_le_of_lt Nat.and_le_right (by decide)

theorem toNat_and_31 (x : BitVec 32) : (x &&& 31#32).toNat = x.toNat % 32 := by
  rw [BitVec.toNat_and]
  exact Nat.and_two_pow_sub_one_eq_mod x.toNat 5

theorem and_31_of_le {x : BitVec 32} (h : (31#32).ult x = false) : x &&& 31#32 = x := by
  apply BitVec.eq_of_toNat_eq
  rw [toNat_and_31,Nat.mod_eq_of_lt (toNat_lt_of_not_ult h)]

theorem signExtend_signExtend {u v w : Nat} (x : BitVec w) (hw : 0 < w) (h : w ≤ u) :
    (x.signExtend u).signExtend v = x.signExtend v := by
  apply BitVec.eq_of_getLsbD_eq
  intro n hn
  have hu : 0 < u := by omega
  have hmsb : (x.signExtend u).msb = x.msb := by
    rw [BitVec.msb_eq_getLsbD_last,BitVec.getLsbD_signExtend]
    rw [BitVec.msb_eq_getLsbD_last]
    by_cases h' : u - 1 < w
    · have huw : u - 1 = w - 1 := by omega
      have hlt : w - 1 < u := by omega
      simp [huw,hw,hlt]
    · simp [h',hu]
  rw [BitVec.getLsbD_signExtend,BitVec.getLsbD_signExtend,BitVec.getLsbD_signExtend,hmsb]
  by_cases h1 : n < w
  · have : n < u := by omega
    simp [h1,this]
  · by_cases h2 : n < u <;> simp [h1,h2]

theorem setWidth_signExtend {u v w : Nat} (x : BitVec w) (h : u ≤ v) :
    (x.signExtend v).setWidth u = x.signExtend u := by
  apply BitVec.eq_of_getLsbD_eq
  intro n hn
  have hv : n < v := by omega
  rw [BitVec.getLsbD_setWidth,BitVec.getLsbD_signExtend,BitVec.getLsbD_signExtend]
  simp [hn,hv]

theorem sub_eq_not_add (a b : BitVec 32) : b - a = ~~~a + b + 1#32 := by
  rw [BitVec.sub_eq_add_neg,BitVec.neg_eq_not_add]
  ac_rfl

theorem and_bit_eq_zero (v : BitVec 32) {n : Nat} (hn : n < 32) :
    v &&& (0x80000000#32 >>> n) = 0 ↔ v.getLsbD (31 - n) = false := by
  have h : 0x80000000#32 >>> n = BitVec.twoPow 32 (31 - n) := by
    rw [show (0x80000000#32) = BitVec.twoPow 32 31 from rfl]
    apply BitVec.eq_of_getLsbD_eq
    intro k hk
    rw [BitVec.getLsbD_ushiftRight,BitVec.getLsbD_twoPow,BitVec.getLsbD_twoPow]
    have h31 : 31 - n < 32 := by omega
    simp only [h31,decide_true,Bool.true_and]
    rw [show decide (31 < 32) = true from rfl,Bool.true_and,decide_eq_decide]
    omega
  rw [show (0 : BitVec 32) = 0#32 from rfl,h,BitVec.and_twoPow]
  cases hv : v.getLsbD (31 - n)
  · simp
  · simp only [if_true,reduceCtorEq,iff_false]
    intro h0
    have := congrArg (fun x => x.getLsbD (31 - n)) h0
    simp [BitVec.getLsbD_twoPow] at this
    omega

theorem sign_eq_msb (v : BitVec 32) : v.slt 0#32 = (v &&& 0x80000000#32 != 0#32) := by
  have h := and_bit_eq_zero v (n := 0) (by decide)
  rw [BitVec.slt_zero_eq_msb,BitVec.msb_eq_getLsbD_last,Bool.eq_iff_iff,bne_iff_ne,ne_eq]
  rw [show v &&& 0x80000000#32 = 0#32 ↔ v.getLsbD 31 = false from h,Bool.not_eq_false]

theorem getLsbD_lowMask {n : Nat} (hn : n < 32) (k : Nat) :
    ((1#32 <<< n) - 1#32).getLsbD k = decide (k < n) := by
  have h : (1#32 <<< n) - 1#32 = BitVec.ofNat 32 (2^n - 1) := by
    apply BitVec.eq_of_toNat_eq
    have hlt : 2^n < 2^32 := Nat.pow_lt_pow_right (by decide) hn
    have hpos : 0 < 2^n := Nat.two_pow_pos n
    rw [BitVec.toNat_sub,BitVec.toNat_shiftLeft,BitVec.toNat_ofNat,BitVec.toNat_ofNat,
      Nat.shiftLeft_eq]
    have h1 : 1 % 2^32 = 1 := rfl
    rw [h1,Nat.one_mul,Nat.mod_eq_of_lt hlt]
    omega
  rw [h,BitVec.getLsbD_ofNat,Nat.testBit_two_pow_sub_one]
  by_cases hk : k < n
  · simp [hk]; omega
  · simp [hk]

/-- The bits an algebraic right shift drops, seen from either end. -/
theorem lost_bits (v : BitVec 32) {n : Nat} (h0 : 0 < n) (hn : n < 32) :
    (v &&& ((1#32 <<< n) - 1#32) != 0#32) = (v <<< (32 - n) != 0#32) := by
  have h : (v &&& ((1#32 <<< n) - 1#32) = 0#32) ↔ v <<< (32 - n) = 0#32 := by
    simp only [BitVec.eq_of_getLsbD_eq_iff,BitVec.getLsbD_and,getLsbD_lowMask hn,
      BitVec.getLsbD_shiftLeft,BitVec.getLsbD_zero]
    constructor
    · intro h k hk
      by_cases hlt : k < 32 - n
      · simp [hlt]
      · have := h (k - (32 - n)) (by omega)
        have hkn : k - (32 - n) < n := by omega
        simpa [hk,hlt,hkn] using this
    · intro h k hk
      by_cases hkn : k < n
      · have := h (k + (32 - n)) (by omega)
        have h1 : k + (32 - n) < 32 := by omega
        have h2 : ¬ k + (32 - n) < 32 - n := by omega
        simpa [h1,h2,hkn] using this
      · simp [hkn]
  rw [bne,bne,Bool.not_inj_iff,Bool.eq_iff_iff]
  simpa using h

end Words
