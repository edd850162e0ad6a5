import DolRecomp.AddressAnalysis
import DolRecomp.Run
import Mathlib.Data.Nat.Bitwise
import Mathlib.Data.Nat.Prime.Basic

/-!
The values of `dolir_analyze_addresses` against the operations they describe: an abstract value
holds of a value when its bounds do, and every operation keeps this.
-/

namespace DolRecomp

namespace AddressAnalysis

/-- A bounded abstract value has the number between its bounds, and they fit the width. -/
def Bounds (a : AbstractValue) (w n : ℕ) : Prop :=
  a.bounded = true → a.lower.toNat ≤ n ∧ n ≤ a.upper.toNat ∧ a.upper.toNat < 2^w

@[simp] theorem bounds_unknown (w n : ℕ) : Bounds unknownValue w n := fun h => by cases h

theorem mask_toNat {w : ℕ} (hw : w < 64) :
    (((1 <<< w : ℕ) : BitVec 64) - 1).toNat = 2^w - 1 := by
  have hlt : 2^w < 2^64 := Nat.pow_lt_pow_right (by omega) hw
  have hcast : (BitVec.ofNat 64 (1 <<< w)).toNat = 2^w := by
    rw [BitVec.toNat_ofNat,Nat.one_shiftLeft,Nat.mod_eq_of_lt hlt]
  have hle : 1#64 ≤ BitVec.ofNat 64 (1 <<< w) := by
    rw [BitVec.le_def,hcast]
    exact Nat.two_pow_pos w
  show (BitVec.ofNat 64 (1 <<< w) - 1#64).toNat = _
  rw [BitVec.toNat_sub_of_le hle,hcast]
  rfl

theorem maximum_toNat {w : ℕ} (hw : w ≤ 64) : (maximum w).toNat = 2^w - 1 := by
  unfold maximum
  split
  next h => subst h; rfl
  next h => exact mask_toNat (by omega)

theorem truncateBits_toNat (bits : BitVec 64) {w : ℕ} (hw : w ≤ 64) :
    (truncateBits bits w).toNat = bits.toNat % 2^w := by
  unfold truncateBits
  split
  next h =>
    subst h
    exact (Nat.mod_eq_of_lt bits.isLt).symm
  next h => rw [BitVec.toNat_and,mask_toNat (by omega),Nat.and_two_pow_sub_one_eq_mod]

theorem bounds_range {lo hi : BitVec 64} {w n : ℕ} (hw : w ≤ 64) (hlo : lo.toNat ≤ n)
    (hhi : n ≤ hi.toNat) : Bounds (rangeValue lo hi w) w n := by
  unfold rangeValue
  split
  next => exact bounds_unknown w n
  next h =>
    intro _
    have hmax : hi.toNat ≤ (maximum w).toNat :=
      Nat.le_of_not_lt fun hlt => h (.inr (BitVec.lt_def.mpr hlt))
    rw [maximum_toNat hw] at hmax
    have hpos := Nat.two_pow_pos w
    have hup : hi.toNat < 2^w := by omega
    exact ⟨hlo,hhi,hup⟩

theorem bounds_join {lo hi : BitVec 64} {width w n : ℕ} (hlo : lo.toNat ≤ n) (hhi : n ≤ hi.toNat)
    (hup : hi.toNat < 2^w) : Bounds (rangeValue lo hi width) w n := by
  unfold rangeValue
  split
  next => exact bounds_unknown w n
  next => exact fun _ => ⟨hlo,hhi,hup⟩

theorem bounds_known {bits : BitVec 64} {w n : ℕ} (hw : w ≤ 64) (h : bits.toNat % 2^w = n) :
    Bounds (knownValue bits w) w n := by
  have := truncateBits_toNat bits hw
  exact bounds_range hw (by rw [this,h]) (by rw [this,h])

theorem bounds_exact {a : AbstractValue} {w n : ℕ} (h : Bounds a w n) (he : exactValue a = true) :
    a.lower.toNat = n ∧ n < 2^w := by
  simp only [exactValue,Bool.and_eq_true,beq_iff_eq] at he
  obtain ⟨hl,hu,hw⟩ := h he.1
  rw [← he.2] at hu hw
  exact ⟨Nat.le_antisymm hl hu,by omega⟩

section

variable {w : ℕ} {a b r : BitVec w} {x y : AbstractValue}

section
variable {xl xu yl yu : BitVec 64} (hw : w ≤ 64) (hxl : xl.toNat ≤ a.toNat)
  (hxu : a.toNat ≤ xu.toNat)

include hw hxl hxu

theorem bounds_add (hyl : yl.toNat ≤ b.toNat) (hyu : b.toNat ≤ yu.toNat) (hyw : yu.toNat < 2^w)
    (hle : xu ≤ maximum w - yu) : Bounds (rangeValue (xl + yl) (xu + yu) w) w (a + b).toNat := by
  have hmax := maximum_toNat hw
  have hpow : 2^w ≤ 2^64 := Nat.pow_le_pow_right (by omega) hw
  have hsub : (maximum w - yu).toNat = 2^w - 1 - yu.toNat := by
    rw [BitVec.toNat_sub_of_le (BitVec.le_def.mpr (by omega)),hmax]
  have hle' : xu.toNat ≤ 2^w - 1 - yu.toNat := hsub ▸ BitVec.le_def.mp hle
  have hlow : (xl + yl).toNat = xl.toNat + yl.toNat :=
    BitVec.toNat_add_of_lt (by omega)
  have hsum : (a + b).toNat = a.toNat + b.toNat := BitVec.toNat_add_of_lt (by omega)
  have hup : (xu + yu).toNat = xu.toNat + yu.toNat := BitVec.toNat_add_of_lt (by omega)
  exact bounds_range hw (by omega) (by omega)

theorem bounds_sub (hyl : yl.toNat ≤ b.toNat) (hyu : b.toNat ≤ yu.toNat) (hle : yu ≤ xl) :
    Bounds (rangeValue (xl - yu) (xu - yl) w) w (a - b).toNat := by
  have hle' : yu.toNat ≤ xl.toNat := BitVec.le_def.mp hle
  have hlow := BitVec.toNat_sub_of_le hle
  have hdiff := BitVec.toNat_sub_of_le (BitVec.le_def.mpr (show b.toNat ≤ a.toNat by omega))
  have hup := BitVec.toNat_sub_of_le (BitVec.le_def.mpr (show yl.toNat ≤ xu.toNat by omega))
  exact bounds_range hw (by omega) (by omega)

theorem bounds_lshr (n : ℕ) : Bounds (rangeValue (xl >>> n) (xu >>> n) w) w (a >>> n).toNat := by
  refine bounds_range hw ?_ ?_
  · simp only [BitVec.toNat_ushiftRight,Nat.shiftRight_eq_div_pow]
    exact Nat.div_le_div_right hxl
  · simp only [BitVec.toNat_ushiftRight,Nat.shiftRight_eq_div_pow]
    exact Nat.div_le_div_right hxu

theorem bounds_shl {n : ℕ} (hle : xu ≤ maximum w >>> n) :
    Bounds (rangeValue (xl <<< n) (xu <<< n) w) w (a <<< n).toNat := by
  have hpow : 2^w ≤ 2^64 := Nat.pow_le_pow_right (by omega) hw
  have hpos := Nat.two_pow_pos w
  have hup : xu.toNat*2^n ≤ 2^w - 1 := by
    have := BitVec.le_def.mp hle
    rw [BitVec.toNat_ushiftRight,maximum_toNat hw,Nat.shiftRight_eq_div_pow] at this
    exact (Nat.mul_le_mul_right _ this).trans (Nat.div_mul_le_self _ _)
  have h1 : xl.toNat*2^n ≤ a.toNat*2^n := Nat.mul_le_mul_right _ hxl
  have h2 : a.toNat*2^n ≤ xu.toNat*2^n := Nat.mul_le_mul_right _ hxu
  refine bounds_range hw ?_ ?_
  · rw [BitVec.toNat_shiftLeft,BitVec.toNat_shiftLeft,Nat.shiftLeft_eq,Nat.shiftLeft_eq,
      Nat.mod_eq_of_lt (by omega),Nat.mod_eq_of_lt (by omega)]
    exact h1
  · rw [BitVec.toNat_shiftLeft,BitVec.toNat_shiftLeft,Nat.shiftLeft_eq,Nat.shiftLeft_eq,
      Nat.mod_eq_of_lt (by omega),Nat.mod_eq_of_lt (by omega)]
    exact h2

end

theorem binaryRange_bounds {op : DolIROp} {z : AbstractValue} (hw : w ≤ 64)
    (hr : intOp op a b = some r) (hx : Bounds x w a.toNat) (hy : Bounds y w b.toNat)
    (hz : binaryRange op w x y = some z) : Bounds z w r.toNat := by
  unfold binaryRange at hz
  split at hz
  next hb =>
    obtain ⟨hxl,hxu,hxw⟩ := hx hb.1
    obtain ⟨hyl,hyu,hyw⟩ := hy hb.2
    split at hz
    next =>
      cases hr
      split at hz
      next hle =>
        cases hz
        exact bounds_add hw hxl hxu hyl hyu hyw hle
      next => cases hz
    next =>
      cases hr
      split at hz
      next hle =>
        cases hz
        exact bounds_sub hw hxl hxu hyl hyu hle
      next => cases hz
    next =>
      split at hz
      next hs =>
        cases hz
        obtain ⟨hexact,-⟩ := bounds_exact hy hs.1
        rw [hexact] at hs ⊢
        rw [intOp_lshr _ _ hs.2] at hr
        cases hr
        exact bounds_lshr hw hxl hxu b.toNat
      next => cases hz
    next =>
      split at hz
      next hs =>
        cases hz
        obtain ⟨hexact,-⟩ := bounds_exact hy hs.1
        rw [hexact] at hs ⊢
        rw [intOp_shl _ _ hs.2.1] at hr
        cases hr
        exact bounds_shl hw hxl hxu hs.2.2
      next => cases hz
    next => cases hz
  next => cases hz

/-- A difference of 64 bits gives the difference of its low bits. -/
theorem sub_mod_two_pow {p q : ℕ} (hw : w ≤ 64) (hq : q < 2^w) :
    (2^64 - q + p) % 2^w = (2^w - q + p) % 2^w := by
  obtain ⟨c,hc⟩ := Nat.exists_eq_add_of_le hw
  have hsplit : 2^64 - q + p = 2^w - q + p + 2^w*(2^c - 1) := by
    have hpos := Nat.two_pow_pos c
    have hle : 2^w*1 ≤ 2^w*2^c := Nat.mul_le_mul_left _ hpos
    rw [hc,Nat.pow_add,Nat.mul_sub]
    omega
  rw [hsplit]
  exact Nat.add_mul_mod_self_left _ _ _

theorem rotl_bounds {m n : BitVec 64} (hw : w ∣ 64) (hm : m.toNat = a.toNat)
    (hn : n.toNat = b.toNat) :
    Bounds (binaryExact .rotl w m n) w (a.rotateLeft b.toNat).toNat := by
  have hw64 : w ≤ 64 := Nat.le_of_dvd (by decide) hw
  have ha := a.isLt
  obtain ⟨k,hk,rfl⟩ := (Nat.dvd_prime_pow Nat.prime_two).mp (show w ∣ 2^6 from hw)
  have hshift : (BitVec.truncate 32 n &&& BitVec.ofNat 32 (2^k - 1)).toNat = b.toNat % 2^k := by
    have hk32 : 2^k - 1 < 2^32 := by
      have : 2^k ≤ 2^6 := Nat.pow_le_pow_right (by omega) hk
      omega
    rw [BitVec.toNat_and,BitVec.toNat_ofNat,Nat.mod_eq_of_lt hk32,Nat.and_two_pow_sub_one_eq_mod,
      BitVec.toNat_setWidth,hn,Nat.mod_mod_of_dvd]
    exact Nat.pow_dvd_pow 2 (by omega)
  rw [binaryExact,hshift]
  split
  next h0 =>
    apply bounds_known hw64
    rw [BitVec.toNat_rotateLeft,h0,hm,Nat.shiftLeft_zero,Nat.sub_zero,Nat.shiftRight_eq_div_pow,
      Nat.div_eq_of_lt ha,Nat.or_zero]
  next =>
    apply bounds_known hw64
    rw [BitVec.toNat_rotateLeft,BitVec.toNat_or,BitVec.toNat_shiftLeft,BitVec.toNat_ushiftRight,
      hm,Nat.or_mod_two_pow,Nat.mod_mod_of_dvd _ (Nat.pow_dvd_pow 2 hw64),
      Nat.mod_eq_of_lt ((Nat.shiftRight_le a.toNat _).trans_lt ha)]

theorem binaryExact_bounds {op : DolIROp} {m n : BitVec 64} (hw : w ∣ 64)
    (hr : intOp op a b = some r) (hm : m.toNat = a.toNat) (hn : n.toNat = b.toNat) :
    Bounds (binaryExact op w m n) w r.toNat := by
  have hw64 : w ≤ 64 := Nat.le_of_dvd (by decide) hw
  have hdvd : 2^w ∣ 2^64 := Nat.pow_dvd_pow 2 hw64
  have ha := a.isLt
  have hb := b.isLt
  have hpow : 2^w ≤ 2^64 := Nat.pow_le_pow_right (by omega) hw64
  unfold binaryExact
  split
  next =>
    cases hr
    apply bounds_known hw64
    rw [BitVec.toNat_add,BitVec.toNat_add,hm,hn,Nat.mod_mod_of_dvd _ hdvd]
  next =>
    cases hr
    apply bounds_known hw64
    rw [BitVec.toNat_sub,BitVec.toNat_sub,hm,hn,Nat.mod_mod_of_dvd _ hdvd]
    exact sub_mod_two_pow hw64 hb
  next =>
    cases hr
    apply bounds_known hw64
    rw [BitVec.toNat_mul,BitVec.toNat_mul,hm,hn,Nat.mod_mod_of_dvd _ hdvd]
  next =>
    split
    next => exact bounds_unknown _ _
    next hz =>
      have hb0 : b ≠ 0 := by
        intro h
        refine hz (BitVec.eq_of_toNat_eq ?_)
        rw [hn,h]
        rfl
      rw [intOp_udiv _ _ hb0] at hr
      cases hr
      apply bounds_known hw64
      rw [BitVec.toNat_udiv,BitVec.toNat_udiv,hm,hn]
      exact Nat.mod_eq_of_lt ((Nat.div_le_self _ _).trans_lt ha)
  next =>
    cases hr
    apply bounds_known hw64
    rw [BitVec.toNat_and,BitVec.toNat_and,hm,hn]
    exact Nat.mod_eq_of_lt (Nat.and_lt_two_pow _ hb)
  next =>
    cases hr
    apply bounds_known hw64
    rw [BitVec.toNat_or,BitVec.toNat_or,hm,hn]
    exact Nat.mod_eq_of_lt (Nat.or_lt_two_pow ha hb)
  next =>
    cases hr
    apply bounds_known hw64
    rw [BitVec.toNat_xor,BitVec.toNat_xor,hm,hn]
    exact Nat.mod_eq_of_lt (Nat.xor_lt_two_pow ha hb)
  next =>
    split
    next hlt =>
      rw [hn] at hlt
      rw [intOp_shl _ _ hlt] at hr
      cases hr
      apply bounds_known hw64
      rw [BitVec.toNat_shiftLeft,BitVec.toNat_shiftLeft,hm,hn,Nat.mod_mod_of_dvd _ hdvd]
    next => exact bounds_unknown _ _
  next =>
    split
    next hlt =>
      rw [hn] at hlt
      rw [intOp_lshr _ _ hlt] at hr
      cases hr
      apply bounds_known hw64
      rw [BitVec.toNat_ushiftRight,BitVec.toNat_ushiftRight,hm,hn]
      exact Nat.mod_eq_of_lt ((Nat.shiftRight_le _ _).trans_lt ha)
    next => exact bounds_unknown _ _
  next =>
    cases hr
    exact rotl_bounds hw hm hn
  next => cases hr
  next => cases hr
  next => cases hr
  next => cases hr
  next => exact bounds_unknown _ _

end

/-- What an abstract value says of a value. -/
def Holds (a : AbstractValue) (v : Value) : Prop :=
  a.bounded = true → ∃ w bits, v.toInt = some (w,bits) ∧ Bounds a w bits.toNat

@[simp] theorem holds_unknown (v : Value) : Holds unknownValue v := fun h => by cases h

theorem holds_of_toInt {a : AbstractValue} {v : Value} {w : ℕ} {bits : BitVec 64}
    (hv : v.toInt = some (w,bits)) : Holds a v ↔ Bounds a w bits.toNat := by
  constructor
  · intro h hb
    obtain ⟨w',bits',hv',hbounds⟩ := h hb
    rw [hv,Option.some.injEq,Prod.mk.injEq] at hv'
    obtain ⟨rfl,rfl⟩ := hv'
    exact hbounds hb
  · exact fun h hb => ⟨w,bits,hv,h⟩

theorem zeroExtend_toNat {w : ℕ} (hw : w ≤ 64) (x : BitVec w) :
    (x.zeroExtend 64).toNat = x.toNat := by
  rw [BitVec.toNat_setWidth,Nat.mod_eq_of_lt]
  exact x.isLt.trans_le (Nat.pow_le_pow_right (by omega) hw)

theorem zeroExtend_self (x : BitVec 64) : x.zeroExtend 64 = x := BitVec.setWidth_eq x

theorem ofBool_toNat (b : Bool) : (BitVec.ofBool b).toNat = b.toNat := by
  cases b <;> rfl

theorem toInt_ofBits {t : DolIRType} {bits : BitVec 64} {v : Value}
    (h : Value.ofBits t bits = some v) : ∃ n : BitVec 64, v.toInt = some (typeWidth t,n) ∧
      n.toNat = bits.toNat % 2^typeWidth t := by
  cases t with
  | i1 =>
    cases h
    refine ⟨_,rfl,?_⟩
    rw [zeroExtend_toNat (by decide),ofBool_toNat,BitVec.getLsbD,Nat.testBit_zero]
    show (decide (bits.toNat % 2 = 1)).toNat = bits.toNat % 2
    rcases Nat.mod_two_eq_zero_or_one bits.toNat with h | h <;> rw [h] <;> rfl
  | i8 =>
    cases h
    exact ⟨_,rfl,(zeroExtend_toNat (by decide) _).trans (BitVec.toNat_setWidth 8 bits)⟩
  | i16 =>
    cases h
    exact ⟨_,rfl,(zeroExtend_toNat (by decide) _).trans (BitVec.toNat_setWidth 16 bits)⟩
  | i32 =>
    cases h
    exact ⟨_,rfl,(zeroExtend_toNat (by decide) _).trans (BitVec.toNat_setWidth 32 bits)⟩
  | i64 =>
    cases h
    exact ⟨_,rfl,(Nat.mod_eq_of_lt bits.isLt).symm⟩
  | void | f32 | f64 | v2f32 | v2f64 => cases h

theorem holds_ofBits {a : AbstractValue} {t : DolIRType} {bits : BitVec 64} {v : Value}
    (h : Value.ofBits t bits = some v)
    (ha : Bounds a (typeWidth t) (bits.toNat % 2^typeWidth t)) : Holds a v := by
  obtain ⟨n,hv,hn⟩ := toInt_ofBits h
  rw [holds_of_toInt hv,hn]
  exact ha

theorem typeWidth_le (t : DolIRType) : typeWidth t ≤ 64 := by
  cases t <;> decide

theorem toInt_lt {v : Value} {w : ℕ} {bits : BitVec 64} (h : v.toInt = some (w,bits)) :
    w ≤ 64 ∧ bits.toNat < 2^w := by
  have hext : ∀ {k : ℕ} (x : BitVec k), k ≤ 64 → (x.zeroExtend 64).toNat < 2^k := fun x hk => by
    rw [zeroExtend_toNat hk]
    exact x.isLt
  cases v with
  | i1 b => cases h; exact ⟨by decide,hext _ (by decide)⟩
  | i8 x => cases h; exact ⟨by decide,hext x (by decide)⟩
  | i16 x => cases h; exact ⟨by decide,hext x (by decide)⟩
  | i32 x => cases h; exact ⟨by decide,hext x (by decide)⟩
  | i64 x => cases h; exact ⟨by decide,bits.isLt⟩
  | f32 _ => cases h
  | f64 _ => cases h
  | v2f64 _ _ => cases h

theorem bounds_range_mod {lo hi : BitVec 64} {w n : ℕ} (hw : w ≤ 64) (hlo : lo.toNat ≤ n)
    (hhi : n ≤ hi.toNat) : Bounds (rangeValue lo hi w) w (n % 2^w) := by
  by_cases hmax : maximum w < hi
  · rw [rangeValue,if_pos (.inr hmax)]
    exact bounds_unknown _ _
  · rw [BitVec.lt_def,maximum_toNat hw] at hmax
    have hpos := Nat.two_pow_pos w
    rw [Nat.mod_eq_of_lt (by omega)]
    exact bounds_range hw hlo hhi

/-- A prefix that holds up to some element is as long as that. -/
theorem takeWhile_range_length {p : ℕ → Bool} {c n : ℕ} (hc : c ≤ n) (hp : ∀ j < c, p j = true)
    (hq : c < n → p c = false) : ((List.range n).takeWhile p).length = c := by
  obtain ⟨d,rfl⟩ := Nat.exists_eq_add_of_le hc
  rw [List.range_add,List.takeWhile_append_of_pos fun j hj => hp j (List.mem_range.mp hj),
    List.length_append,List.length_range]
  cases d with
  | zero => rfl
  | succ d =>
    rw [List.range_succ_eq_map,List.map_cons,Nat.add_zero,List.takeWhile_cons,hq (by omega)]
    rfl

theorem clzCount_eq {w : ℕ} (hw : 0 < w) {m : BitVec 64} {a : BitVec w} (hm : m.toNat = a.toNat) :
    clzCount m w = a.clz.toNat := by
  have hbit : ∀ k, m.getLsbD k = a.getLsbD k := fun k => by
    rw [BitVec.getLsbD,BitVec.getLsbD,hm]
  have hcast : (BitVec.ofNat w w).toNat = w := by
    rw [BitVec.toNat_ofNat,Nat.mod_eq_of_lt Nat.lt_two_pow_self]
  by_cases ha : a = 0#w
  · have hclz : a.clz = BitVec.ofNat w w := BitVec.clz_eq_iff_eq_zero.mpr ha
    rw [clzCount,hclz,hcast]
    refine takeWhile_range_length le_rfl (fun j _ => ?_) fun h => absurd h (lt_irrefl w)
    rw [hbit,ha,BitVec.getLsbD_zero]
    rfl
  · have hlt : a.clz.toNat < w := by
      have h : a.clz < BitVec.ofNat w w := BitVec.clz_lt_iff_ne_zero.mpr ha
      rwa [BitVec.lt_def,hcast] at h
    have htop := BitVec.getLsbD_true_clz_of_ne_zero hw ha
    have hupper := BitVec.toNat_lt_two_pow_sub_clz (x := a)
    refine takeWhile_range_length hlt.le (fun j hj => ?_) fun _ => ?_
    · have hbit' : a.getLsbD (w - j - 1) = false :=
        Nat.testBit_lt_two_pow (hupper.trans_le (Nat.pow_le_pow_right (by omega) (by omega)))
      rw [hbit,hbit']
      rfl
    · rw [hbit,Bool.not_eq_false',← htop]
      congr 1
      omega

theorem evalUnary_not_eq {t : DolIRType} {a v : Value} (h : evalUnary .not t a = some v) :
    ∃ x : BitVec (typeWidth t), a.toInt = some (typeWidth t,x.zeroExtend 64) ∧
      v.toInt = some (typeWidth t,(~~~x).zeroExtend 64) := by
  cases a <;> cases t <;> simp only [evalUnary,Option.some.injEq,reduceCtorEq] at h
  all_goals subst h
  · rename_i b
    refine ⟨BitVec.ofBool b,rfl,?_⟩
    cases b <;> rfl
  all_goals exact ⟨_,rfl,rfl⟩

theorem evalUnary_clz_eq {t : DolIRType} {a v : Value} (h : evalUnary .clz t a = some v) :
    0 < typeWidth t ∧ ∃ x : BitVec (typeWidth t), a.toInt = some (typeWidth t,x.zeroExtend 64) ∧
      v.toInt = some (typeWidth t,x.clz.zeroExtend 64) := by
  cases a <;> cases t <;> simp only [evalUnary,Option.some.injEq,reduceCtorEq] at h
  all_goals
    subst h
    exact ⟨by decide,_,rfl,rfl⟩

theorem unaryValue_holds {i : DolIRInstruction} {x : AbstractValue} {a v : Value}
    (h : evalUnary i.op i.type a = some v) (hx : Holds x a) : Holds (unaryValue i x) v := by
  have hw := typeWidth_le i.type
  have hext : (∃ n w, a.toInt = some (w,n) ∧ Value.ofBits i.type n = some v) →
      Holds (if x.bounded then rangeValue x.lower x.upper (typeWidth i.type) else unknownValue)
        v := by
    rintro ⟨n,w,ha,hv⟩
    split
    next hb =>
      obtain ⟨hlo,hhi,-⟩ := (holds_of_toInt ha).mp hx hb
      exact holds_ofBits hv (bounds_range_mod hw hlo hhi)
    next => exact holds_unknown v
  have hconvert : ∀ n : Option (ℕ × BitVec 64),
      (n.bind fun p => Value.ofBits i.type p.2) = some v → n = a.toInt →
      ∃ n w, a.toInt = some (w,n) ∧ Value.ofBits i.type n = some v := by
    rintro (_ | ⟨w,n⟩) hn ha
    · cases hn
    · exact ⟨n,w,ha.symm,hn⟩
  unfold unaryValue
  dsimp only
  split
  · exact holds_unknown v
  · split
    next hop =>
      rw [hop] at h
      obtain ⟨y,ha,hv⟩ := evalUnary_not_eq h
      split
      next he =>
        obtain ⟨hl,-⟩ := bounds_exact ((holds_of_toInt ha).mp hx) he
        rw [zeroExtend_toNat hw] at hl
        rw [holds_of_toInt hv,zeroExtend_toNat hw]
        apply bounds_known hw
        have hy := y.isLt
        obtain ⟨c,hc⟩ : 2^typeWidth i.type ∣ 2^64 := Nat.pow_dvd_pow 2 hw
        rw [BitVec.toNat_not,BitVec.toNat_not,hl]
        rcases c with _ | c
        · simp at hc
        · rw [hc,Nat.mul_succ,show 2^typeWidth i.type*c + 2^typeWidth i.type - 1 - y.toNat =
            2^typeWidth i.type - 1 - y.toNat + 2^typeWidth i.type*c by omega,
            Nat.add_mul_mod_self_left]
          exact Nat.mod_eq_of_lt (by omega)
      next => exact holds_unknown v
    next hop =>
      rw [hop,evalUnary_trunc] at h
      exact hext (hconvert _ h rfl)
    next hop =>
      rw [hop,evalUnary_zext] at h
      exact hext (hconvert _ h rfl)
    next hop =>
      rw [hop] at h
      obtain ⟨hpos,y,ha,hv⟩ := evalUnary_clz_eq h
      split
      next he =>
        obtain ⟨hl,-⟩ := bounds_exact ((holds_of_toInt ha).mp hx) he
        rw [zeroExtend_toNat hw] at hl
        rw [holds_of_toInt hv,zeroExtend_toNat hw,clzCount_eq hpos hl]
        apply bounds_known hw
        have hc := y.clz.isLt
        have hpow : 2^typeWidth i.type ≤ 2^64 := Nat.pow_le_pow_right (by omega) hw
        rw [BitVec.toNat_ofNat,Nat.mod_eq_of_lt (hc.trans_le hpow),Nat.mod_eq_of_lt hc]
      next => exact holds_unknown v
    next => exact holds_unknown v

/-- Two integers of one width, and a result of that width or a comparison. -/
theorem evalBinary_eq {op : DolIROp} {t : DolIRType} {a b v : Value}
    (h : evalBinary op t a b = some v) (ht : typeWidth t ≠ 0) :
    ∃ w, w ∣ 64 ∧ ∃ x y : BitVec w, a.toInt = some (w,x.zeroExtend 64) ∧
      b.toInt = some (w,y.zeroExtend 64) ∧
      ((typeWidth t = w ∧ ∃ r, intOp op x y = some r ∧ v.toInt = some (w,r.zeroExtend 64)) ∨
        typeWidth t = 1 ∧ ∃ r, compareOp op x y = some r ∧
          v.toInt = some (1,(BitVec.ofBool r).zeroExtend 64)) := by
  have hint : ∀ {w : ℕ} {f : BitVec w → Value} {o : Option (BitVec w)}, o.map f = some v →
      ∃ r, o = some r ∧ f r = v := fun h => Option.map_eq_some_iff.mp h
  have hcmp : ∀ {o : Option Bool}, o.map Value.i1 = some v →
      ∃ r, o = some r ∧ v.toInt = some (1,(BitVec.ofBool r).zeroExtend 64) := by
    intro o h
    obtain ⟨r,hr,rfl⟩ := Option.map_eq_some_iff.mp h
    exact ⟨r,hr,rfl⟩
  unfold evalBinary at h
  split at h
  next p q =>
    refine ⟨1,by decide,BitVec.ofBool p,BitVec.ofBool q,rfl,rfl,?_⟩
    cases hr : intOp op (BitVec.ofBool p) (BitVec.ofBool q) with
    | some r =>
      rw [hr] at h
      obtain rfl : Value.i1 (r.getLsbD 0) = v := Option.some.inj h
      have hbit : ∀ r : BitVec 1, BitVec.ofBool (r.getLsbD 0) = r := by decide
      exact .inl ⟨rfl,r,rfl,by rw [Value.toInt_i1,hbit]⟩
    | none =>
      rw [hr] at h
      exact .inr ⟨rfl,hcmp h⟩
  next p q =>
    obtain ⟨r,hr,rfl⟩ := hint h
    exact ⟨8,by decide,p,q,rfl,rfl,.inl ⟨rfl,r,hr,rfl⟩⟩
  next p q => exact ⟨8,by decide,p,q,rfl,rfl,.inr ⟨rfl,hcmp h⟩⟩
  next p q =>
    obtain ⟨r,hr,rfl⟩ := hint h
    exact ⟨16,by decide,p,q,rfl,rfl,.inl ⟨rfl,r,hr,rfl⟩⟩
  next p q => exact ⟨16,by decide,p,q,rfl,rfl,.inr ⟨rfl,hcmp h⟩⟩
  next p q =>
    obtain ⟨r,hr,rfl⟩ := hint h
    exact ⟨32,by decide,p,q,rfl,rfl,.inl ⟨rfl,r,hr,rfl⟩⟩
  next p q => exact ⟨32,by decide,p,q,rfl,rfl,.inr ⟨rfl,hcmp h⟩⟩
  next p q =>
    obtain ⟨r,hr,rfl⟩ := hint h
    refine ⟨64,by decide,p,q,?_,?_,.inl ⟨rfl,r,hr,?_⟩⟩ <;> rw [zeroExtend_self] <;> rfl
  next p q =>
    refine ⟨64,by decide,p,q,?_,?_,.inr ⟨rfl,hcmp h⟩⟩ <;> rw [zeroExtend_self] <;> rfl
  next => exact absurd rfl ht
  next => exact absurd rfl ht
  next => cases h

theorem compareExact_bounds {op : DolIROp} {w width : ℕ} {x y : BitVec w} {m n : BitVec 64}
    {r : Bool} (hr : compareOp op x y = some r) (hm : m.toNat = x.toNat) (hn : n.toNat = y.toNat) :
    Bounds (binaryExact op width m n) 1 (BitVec.ofBool r).toNat := by
  have hbool : ∀ s : Bool, s = r →
      Bounds (knownValue ((BitVec.ofBool s).zeroExtend 64) 1) 1 (BitVec.ofBool r).toNat := by
    rintro s rfl
    apply bounds_known (by decide)
    rw [zeroExtend_toNat (by decide)]
    exact Nat.mod_eq_of_lt (BitVec.ofBool s).isLt
  have heq : (m = n) ↔ (x = y) := by
    rw [← BitVec.toNat_inj,← BitVec.toNat_inj,hm,hn]
  unfold binaryExact
  split
  case h_11 =>
    apply hbool
    rw [← Option.some.inj hr,beq_eq_decide,beq_eq_decide]
    exact decide_eq_decide.mpr heq
  case h_12 =>
    apply hbool
    rw [← Option.some.inj hr,bne,bne,beq_eq_decide,beq_eq_decide]
    exact congrArg _ (decide_eq_decide.mpr heq)
  case h_13 =>
    apply hbool
    rw [← Option.some.inj hr]
    show decide (m.toNat < n.toNat) = decide (x.toNat < y.toNat)
    rw [hm,hn]
  case h_14 =>
    apply hbool
    rw [← Option.some.inj hr]
    show decide (m.toNat ≤ n.toNat) = decide (x.toNat ≤ y.toNat)
    rw [hm,hn]
  case h_15 => exact bounds_unknown _ _
  all_goals cases hr

theorem binaryValue_holds {i : DolIRInstruction} {x y : AbstractValue} {a b v : Value}
    (h : evalBinary i.op i.type a b = some v) (hx : Holds x a) (hy : Holds y b) :
    Holds (binaryValue i x y) v := by
  unfold binaryValue
  dsimp only
  split
  · exact holds_unknown v
  next ht =>
    obtain ⟨w,hdvd,p,q,ha,hb,hcase⟩ := evalBinary_eq h ht
    have hw : w ≤ 64 := Nat.le_of_dvd (by decide) hdvd
    rw [holds_of_toInt ha,zeroExtend_toNat hw] at hx
    rw [holds_of_toInt hb,zeroExtend_toNat hw] at hy
    have hmask : ∀ (lower : BitVec 64) (n m : ℕ), m ≤ n → n < 2^w → lower.toNat = n →
        Bounds (rangeValue 0 (lower &&& maximum w) w) w m := by
      intro lower n m hmn hn hlower
      refine bounds_range hw (Nat.zero_le m) ?_
      rw [BitVec.toNat_and,maximum_toNat hw,Nat.and_two_pow_sub_one_eq_mod,hlower,
        Nat.mod_eq_of_lt hn]
      exact hmn
    rcases hcase with ⟨hwidth,r,hr,hv⟩ | ⟨hwidth,r,hr,hv⟩
    · rw [hwidth,holds_of_toInt hv,zeroExtend_toNat hw]
      split
      next hand =>
        rw [hand.1] at hr
        cases hr
        obtain ⟨hl,hlt⟩ := bounds_exact hx hand.2.2
        refine hmask _ _ _ ?_ hlt hl
        rw [BitVec.toNat_and]
        exact Nat.and_le_left
      next =>
        split
        next hand =>
          rw [hand.1] at hr
          cases hr
          obtain ⟨hl,hlt⟩ := bounds_exact hy hand.2.2
          refine hmask _ _ _ ?_ hlt hl
          rw [BitVec.toNat_and]
          exact Nat.and_le_right
        next =>
          split
          next value hrange => exact binaryRange_bounds hw hr hx hy hrange
          next =>
            split
            next he =>
              exact binaryExact_bounds hdvd hr (bounds_exact hx he.1).1 (bounds_exact hy he.2).1
            next => exact bounds_unknown _ _
    · have hop : i.op ≠ .and := by
        intro hop
        rw [hop] at hr
        cases hr
      have hrange : binaryRange i.op (typeWidth i.type) x y = none := by
        unfold binaryRange
        split
        · split
          all_goals first
            | rfl
            | (rename_i hop'; rw [hop'] at hr; cases hr)
        · rfl
      rw [if_neg fun h => hop h.1,if_neg fun h => hop h.1,hrange,holds_of_toInt hv,
        zeroExtend_toNat (by decide)]
      dsimp only
      split
      next he => exact compareExact_bounds hr (bounds_exact hx he.1).1 (bounds_exact hy he.2).1
      next => exact bounds_unknown _ _

theorem toInt_type {v : Value} {w : ℕ} {n : BitVec 64} (h : v.toInt = some (w,n)) :
    w = typeWidth v.type := by
  cases v <;> cases h <;> rfl

theorem selectRange_holds {x y z : AbstractValue} {c a b v : Value} (width : ℕ)
    (h : evalSelect c a b = some v) (hx : Holds x c) (hy : Holds y a) (hz : Holds z b) :
    Holds (selectRange width x y z) v := by
  unfold evalSelect at h
  split at h
  next c =>
    split at h
    next htype =>
      have hv : (if c then a else b) = v := Option.some.inj h
      unfold selectRange
      split
      next he =>
        obtain ⟨hl,-⟩ := bounds_exact ((holds_of_toInt (Value.toInt_i1 c)).mp hx) he
        rw [zeroExtend_toNat (by decide),ofBool_toNat] at hl
        cases c with
        | true =>
          rw [if_pos (by rintro h; rw [h] at hl; cases hl),← hv]
          exact hy
        | false =>
          rw [if_neg (not_not_intro (BitVec.eq_of_toNat_eq hl)),← hv]
          exact hz
      next =>
        split
        next hb =>
          obtain ⟨w,n,ha,hba⟩ := hy hb.1
          obtain ⟨w',n',hb',hbb⟩ := hz hb.2
          obtain rfl : w = w' := by rw [toInt_type ha,toInt_type hb',htype]
          obtain ⟨hylo,hyhi,hyw⟩ := hba hb.1
          obtain ⟨hzlo,hzhi,hzw⟩ := hbb hb.2
          have hjoin : ∀ k, (y.lower.toNat ≤ k ∧ k ≤ y.upper.toNat) ∨
              (z.lower.toNat ≤ k ∧ k ≤ z.upper.toNat) →
              Bounds (rangeValue (if y.lower < z.lower then y.lower else z.lower)
                (if z.upper < y.upper then y.upper else z.upper) width) w k := by
            intro k hk
            simp only [BitVec.lt_def]
            apply bounds_join <;> split <;> omega
          cases c with
          | true =>
            obtain rfl : a = v := hv
            exact (holds_of_toInt ha).mpr (hjoin _ (.inl ⟨hylo,hyhi⟩))
          | false =>
            obtain rfl : b = v := hv
            exact (holds_of_toInt hb').mpr (hjoin _ (.inr ⟨hzlo,hzhi⟩))
        next => exact holds_unknown v
    next => cases h
  next => cases h

/-- What the facts say of a frame. -/
structure Sound (facts : Facts) (frame : Machine.Frame) : Prop where
  values : ∀ id v, frame.env id = some v → Holds (facts.values id) v
  state : ∀ slot, Holds (facts.state slot) (frame.st.readSlot slot)

variable {m : Machine} {facts : Facts} {frame : Machine.Frame}

theorem Sound.operands (hs : Sound facts frame) {ids : List DolIRValue} {args : List Value}
    (h : Machine.operands frame.env ids = some args) :
    List.Forall₂ (fun id a => Holds (facts.values id) a) ids args := by
  induction ids generalizing args with
  | nil =>
    cases h
    exact .nil
  | cons id ids ih =>
    rw [Builder.operands_cons] at h
    obtain ⟨a,ha,h⟩ := Option.bind_eq_some_iff.mp h
    obtain ⟨as,has,h⟩ := Option.bind_eq_some_iff.mp h
    cases h
    exact .cons (hs.values id a ha) (ih has)

/-- An operation that is not pure has no meaning as an operator. -/
theorem evalUnary_impure {op : DolIROp} (h : Builder.isPure op = false) (t : DolIRType) (a : Value) :
    evalUnary op t a = none := by
  cases op <;> first | (cases h; done) | (cases a <;> cases t <;> rfl)

theorem evalBinary_impure {op : DolIROp} (h : Builder.isPure op = false) (t : DolIRType) (a b : Value) :
    evalBinary op t a b = none := by
  cases op <;> first | (cases h; done) | (unfold evalBinary; split <;> rfl)

theorem instructionValue_one {i : DolIRInstruction} {id : DolIRValue} {t : DolIRType} {a v : Value}
    (hi : i.operands = [id]) (h : evalUnary i.op t a = some v) :
    instructionValue i facts = unaryValue i (facts.values id) := by
  unfold instructionValue
  rw [hi]
  generalize i.op = op at h
  cases op
  all_goals first
    | rfl
    | (rw [evalUnary_impure rfl] at h; cases h)

theorem instructionValue_two {i : DolIRInstruction} {id id' : DolIRValue} {t : DolIRType}
    {a b v : Value} (hi : i.operands = [id,id']) (h : evalBinary i.op t a b = some v) :
    instructionValue i facts = binaryValue i (facts.values id) (facts.values id') := by
  unfold instructionValue
  rw [hi]
  generalize i.op = op at h
  cases op
  all_goals first
    | rfl
    | (rw [evalBinary_impure rfl] at h; cases h)

theorem instructionValue_unknown {i : DolIRInstruction}
    (h : (∃ helper, i.op = .helperCall helper) ∨ ∃ width sign, i.op = .guestLoad width sign) :
    instructionValue i facts = unknownValue := by
  have hu : ∀ x, unaryValue i x = unknownValue := by
    intro x
    rcases h with ⟨helper,h⟩ | ⟨width,sign,h⟩ <;> simp [unaryValue,h]
  have hb : ∀ x y, binaryValue i x y = unknownValue := by
    intro x y
    rcases h with ⟨helper,h⟩ | ⟨width,sign,h⟩ <;>
      simp [binaryValue,binaryRange,binaryExact,h]
  unfold instructionValue
  rcases h with ⟨helper,h⟩ | ⟨width,sign,h⟩
  · rw [h]
    rcases i.operands.map facts.values with _ | ⟨x,_ | ⟨y,_ | ⟨z,_⟩⟩⟩
    · rfl
    · exact hu x
    · exact hb x y
    · rfl
  · rw [h]
    rcases i.operands.map facts.values with _ | ⟨x,_ | ⟨y,_ | ⟨z,_⟩⟩⟩
    · rfl
    · exact hu x
    · exact hb x y
    · rfl

theorem instructionValue_holds {i : DolIRInstruction} (hs : Sound facts frame) {args : List Value}
    (hargs : Machine.operands frame.env i.operands = some args) {v : Value} {st : IRState}
    (h : m.execOp frame.st i args = .next (some v,st)) : Holds (instructionValue i facts) v := by
  have hall := hs.operands hargs
  have hvalue : ∀ {o : Option Value},
      (Exec.ofOption o >>= fun v => Exec.next (some v,frame.st)) = .next (some v,st) →
        o = some v := by
    rintro (_ | w) h
    · cases h
    · cases h
      rfl
  unfold Machine.execOp at h
  split at h
  case h_1 =>
    rename_i hop
    have hv := hvalue h
    have ht : typeWidth i.type ≠ 0 := by
      generalize i.type = t at hv
      cases t <;> first | cases hv; done | decide
    have hknown : instructionValue i facts = knownValue i.immediate (typeWidth i.type) := by
      simp only [instructionValue,hop,ne_eq,ht,not_false_eq_true,if_true]
    rw [hknown]
    exact holds_ofBits hv (bounds_known (typeWidth_le i.type) rfl)
  case h_2 =>
    rename_i hop
    cases h
    simp only [instructionValue,hop]
    exact hs.state _
  case h_3 =>
    rename_i slot w hop
    rcases hw : frame.st.writeSlot slot w with _ | st' <;> rw [hw] at h <;> cases h
  case h_4 =>
    rename_i c a b hop
    have hv := hvalue h
    generalize hids : i.operands = ids at hall
    obtain _ | ⟨hc,_ | ⟨ha,_ | ⟨hb,⟨⟩⟩⟩⟩ := hall
    simp only [instructionValue,hop,hids,List.map_cons,List.map_nil]
    exact selectRange_holds _ hv hc ha hb
  case h_5 =>
    rename_i width sign ea hop
    rw [instructionValue_unknown (.inr ⟨width,sign,hop⟩)]
    exact holds_unknown v
  case h_6 =>
    rename_i width ea w hop
    unfold Machine.guestStore at h
    rcases hw : w.toInt with _ | x <;> rw [hw] at h <;> cases h
  case h_7 =>
    rename_i helper hop
    rw [instructionValue_unknown (.inl ⟨helper,hop⟩)]
    exact holds_unknown v
  case h_8 =>
    rename_i a _ _ _
    have hv := hvalue h
    generalize hids : i.operands = ids at hall
    obtain _ | ⟨ha,⟨⟩⟩ := hall
    rw [instructionValue_one hids hv]
    exact unaryValue_holds hv ha
  case h_9 =>
    rename_i a b _ _
    have hv := hvalue h
    generalize hids : i.operands = ids at hall
    obtain _ | ⟨ha,_ | ⟨hb,⟨⟩⟩⟩ := hall
    rw [instructionValue_two hids hv]
    exact binaryValue_holds hv ha hb
  case h_10 => cases h

end AddressAnalysis

end DolRecomp
