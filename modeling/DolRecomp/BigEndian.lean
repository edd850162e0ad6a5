import DolRecomp.Cpu

/-!
# Big-endian bytes

What a big-endian read returns bit by bit, and what it returns behind a write.
-/

namespace DolRecomp

namespace Runtime

variable (p : ℕ → BitVec 8) (offset width : ℕ)

theorem getLsbD_readBe (hw : width ≤ 8) (n : ℕ) : (readBe p offset width).getLsbD n =
    (decide (n < 8*width) && (p (offset + width - 1 - n/8)).getLsbD (n % 8)) := by
  induction width generalizing n with
  | zero => simp [readBe]
  | succ w ih =>
    rw [readBe,BitVec.getLsbD_or,BitVec.getLsbD_shiftLeft,ih (by omega)]
    by_cases h : n < 8
    · have hd : n/8 = 0 := Nat.div_eq_of_lt h
      have hm : n % 8 = n := Nat.mod_eq_of_lt h
      have hlt : n < 64 := by omega
      have hlt' : n < 8*(w + 1) := by omega
      simp [h,hd,hm,hlt,hlt']
    · have hge : 8 ≤ n := by omega
      have hb : (p (offset + w)).getLsbD n = false := BitVec.getLsbD_of_ge _ _ hge
      have hx : offset + w - 1 - (n - 8)/8 = offset + (w + 1) - 1 - n/8 := by omega
      have hm : (n - 8) % 8 = n % 8 := by omega
      have hiff : n < 8*(w + 1) ↔ n - 8 < 8*w := by omega
      have hlt : n - 8 < 8*w → n < 64 := by omega
      by_cases hlt' : n - 8 < 8*w
      · simp [h,hb,hx,hm,hiff,hlt',hlt hlt']
      · simp [h,hb,hiff,hlt']

theorem readBe_congr {p q : ℕ → BitVec 8} {offset width : ℕ}
    (h : ∀ n, offset ≤ n → n < offset + width → p n = q n) :
    readBe p offset width = readBe q offset width := by
  induction width with
  | zero => rfl
  | succ w ih =>
    rw [readBe,readBe,ih fun n hl hu => h n hl (by omega),h (offset + w) (by omega) (by omega)]

theorem writeBe_inside (value : BitVec 64) {n : ℕ} (hl : offset ≤ n) (hu : n < offset + width) :
    writeBe p offset width value n = (value >>> (8*(offset + width - 1 - n))).truncate 8 :=
  if_pos ⟨hl,hu⟩

theorem writeBe_outside (value : BitVec 64) {n : ℕ} (h : n < offset ∨ offset + width ≤ n) :
    writeBe p offset width value n = p n :=
  if_neg (by omega)

theorem getLsbD_readBe_writeBe (hw : width ≤ 8) (value : BitVec 64) (n : ℕ) :
    (readBe (writeBe p offset width value) offset width).getLsbD n =
      (decide (n < 8*width) && value.getLsbD n) := by
  rw [getLsbD_readBe _ _ _ hw]
  by_cases h : n < 8*width
  · have hx : 8*(offset + width - 1 - (offset + width - 1 - n/8)) + n % 8 = n := by omega
    rw [writeBe_inside _ _ _ _ (by omega) (by omega)]
    have hm : n % 8 < 8 := Nat.mod_lt _ (by omega)
    simp [h,hm,hx,BitVec.getLsbD_ushiftRight]
  · simp [h]

end Runtime

end DolRecomp
