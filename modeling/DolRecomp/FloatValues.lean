import DolRecomp.DoubleFields
import DolRecomp.FloatRounding
import DolRecomp.SingleConversion

/-!
# Values of single and double precision

What a pattern stands for, and the conversion from double to single precision. A single that was
extended comes back from it, but for the signalling NaNs.
-/

namespace DolRecomp

namespace FloatValues

open DoubleFields FloatRounding SingleConversion

/-- The value of a pattern, with the sign apart from the magnitude. -/
inductive FloatValue
  | nan
  | infinite (negative : Bool)
  | finite (negative : Bool) (magnitude : ℚ)
  deriving DecidableEq

def single : Format := ⟨24,-149,128⟩
def double : Format := ⟨53,-1074,1024⟩

/-- The value of the fields of a pattern, where `special` is the exponent of all ones. -/
def valueOf (f : Format) (special : ℕ) (negative : Bool) (exponent fraction : ℕ) : FloatValue :=
  if exponent = special then if fraction = 0 then .infinite negative else .nan
  else if exponent = 0 then .finite negative (fraction*2^f.unit)
  else .finite negative ((2^(f.precision - 1) + fraction : ℕ)*2^(f.unit + exponent - 1))

def doubleValue (bits : BitVec 64) : FloatValue :=
  valueOf double 2047 (signOf bits = 1) (expOf bits) (fracOf bits)

def singleSign (bits : BitVec 32) : ℕ := bits.toNat/2^31
def singleExp (bits : BitVec 32) : ℕ := bits.toNat/2^23 % 2^8
def singleFrac (bits : BitVec 32) : ℕ := bits.toNat % 2^23

def singleValue (bits : BitVec 32) : FloatValue :=
  valueOf single 255 (singleSign bits = 1) (singleExp bits) (singleFrac bits)

/-- The exponent and the fraction of a magnitude that is rounded to single precision. -/
def singleMagnitude (magnitude : ℚ) : ℕ :=
  min (255*2^23) ((single.ulp magnitude - single.unit).toNat*2^23 +
    (nearestEven (magnitude/2^single.ulp magnitude)).toNat)

/-- `(f32)value`: a NaN keeps the top of its fraction and is made quiet. -/
def toSingle (bits : BitVec 64) : BitVec 32 :=
  BitVec.ofNat 32 (signOf bits*2^31 + match doubleValue bits with
    | .nan => 255*2^23 + (fracOf bits/2^29 ||| 2^22)
    | .infinite _ => 255*2^23
    | .finite _ magnitude => singleMagnitude magnitude)

namespace FloatValue

/-- The result of an operation with this exact magnitude. -/
def rounded (f : Format) (negative : Bool) (magnitude : ℚ) : FloatValue :=
  if 2^f.top ≤ f.round magnitude then .infinite negative
  else .finite negative (f.round magnitude)

def ldexp (value : FloatValue) (scale : ℤ) : FloatValue :=
  match value with
  | .finite negative magnitude => rounded double negative (magnitude*2^scale)
  | value => value

def trunc : FloatValue → FloatValue
  | .finite negative magnitude => .finite negative ⌊magnitude⌋
  | value => value

def signed (negative : Bool) (magnitude : ℚ) : ℚ := if negative then -magnitude else magnitude

/-- The ordered comparisons with an integer, false for a NaN. -/
def le : FloatValue → ℤ → Bool
  | .nan, _ => false
  | .infinite negative, _ => negative
  | .finite negative magnitude, n => signed negative magnitude ≤ n

def ge : FloatValue → ℤ → Bool
  | .nan, _ => false
  | .infinite negative, _ => !negative
  | .finite negative magnitude, n => n ≤ signed negative magnitude

def ofInt (n : ℤ) : FloatValue := .finite (n < 0) |n|

/-- The conversion towards zero; no special value reaches it. -/
def toInt : FloatValue → ℤ
  | .finite negative magnitude => if negative then -⌊magnitude⌋ else ⌊magnitude⌋
  | _ => 0

end FloatValue

def Signalling (bits : BitVec 32) : Prop :=
  singleExp bits = 255 ∧ singleFrac bits ≠ 0 ∧ singleFrac bits < 2^22

instance (bits : BitVec 32) : Decidable (Signalling bits) :=
  inferInstanceAs (Decidable (singleExp bits = 255 ∧ singleFrac bits ≠ 0 ∧ singleFrac bits < 2^22))

section
variable {p : BitVec 32}

theorem singleSign_lt : singleSign p < 2 := by
  have := p.isLt
  rw [singleSign]
  omega

theorem singleExp_lt : singleExp p < 256 := Nat.mod_lt _ (by decide)

theorem singleFrac_lt : singleFrac p < 2^23 := Nat.mod_lt _ (by decide)

theorem toNat_single (p : BitVec 32) :
    p.toNat = singleSign p*2^31 + singleExp p*2^23 + singleFrac p := by
  have := p.isLt
  rw [singleSign,singleExp,singleFrac]
  omega

theorem toNat_expField (p : BitVec 32) : (expField p).toNat = singleExp p := by
  rw [expField,BitVec.toNat_and,BitVec.toNat_ushiftRight,Nat.shiftRight_eq_div_pow]
  exact Nat.and_two_pow_sub_one_eq_mod _ 8

theorem toNat_fracField (p : BitVec 32) : (fracField p).toNat = singleFrac p := by
  rw [fracField,BitVec.toNat_and]
  exact Nat.and_two_pow_sub_one_eq_mod _ 23

theorem toNat_zeroExtend (p : BitVec 32) : (p.zeroExtend 64).toNat = p.toNat := by
  rw [BitVec.zeroExtend_eq_setWidth,BitVec.toNat_setWidth]
  exact Nat.mod_eq_of_lt (p.isLt.trans (by decide))

theorem or_field {a b i : ℕ} (hb : b < 2^i) : a*2^i ||| b = a*2^i + b := by
  rw [Nat.mul_comm,Nat.two_pow_add_eq_or_of_lt hb]

theorem toNat_regular (p : BitVec 32) (b : Bool) : (regular p b).toNat =
    (p.toNat/2^30*8 + if b then 7 else 0)*2^59 + p.toNat % 2^30*2^29 := by
  have hp := p.isLt
  have htop : ((p.zeroExtend 64 &&& 0xC0000000#64) <<< 32).toNat = p.toNat/2^30*2^62 := by
    have hmask : (p.zeroExtend 64 &&& 0xC0000000#64).toNat = p.toNat/2^30*2^30 := by
      have h := and_field p.toNat 2 30
      rw [BitVec.toNat_and,toNat_zeroExtend]
      refine h.trans ?_
      omega
    rw [BitVec.toNat_shiftLeft,hmask,Nat.shiftLeft_eq]
    omega
  have hlow : ((p.zeroExtend 64 &&& 0x3FFFFFFF#64) <<< 29).toNat = p.toNat % 2^30*2^29 := by
    have hmask : (p.zeroExtend 64 &&& 0x3FFFFFFF#64).toNat = p.toNat % 2^30 := by
      rw [BitVec.toNat_and,toNat_zeroExtend]
      exact Nat.and_two_pow_sub_one_eq_mod _ 30
    rw [BitVec.toNat_shiftLeft,hmask,Nat.shiftLeft_eq]
    omega
  have hfill : (if b then 0x3800000000000000#64 else 0#64).toNat = (if b then 7 else 0)*2^59 := by
    cases b <;> rfl
  have hseven : (if b then 7 else 0) < 8 := by
    cases b <;> decide
  rw [regular,BitVec.toNat_or,BitVec.toNat_or,htop,hfill,hlow]
  generalize (if b then 7 else 0) = fill at hseven
  have hsum : p.toNat/2^30*2^62 + fill*2^59 = (p.toNat/2^30*8 + fill)*2^59 := by omega
  rw [or_field (by omega),hsum,or_field (by omega)]

theorem highBit_iff (p : BitVec 32) : highBit (expField p) = true ↔
    (0 < singleExp p ∧ singleExp p < 128) ∨ singleExp p = 255 := by
  have hexp := toNat_expField p
  have hlt := @singleExp_lt p
  have hhigh : expField p >>> 7 = 0 ↔ singleExp p < 128 := by
    rw [← BitVec.toNat_inj,BitVec.toNat_ushiftRight,hexp,Nat.shiftRight_eq_div_pow]
    show singleExp p/2^7 = 0 ↔ _
    omega
  have hrange : 0 < expField p ∧ expField p < 255 ↔ 0 < singleExp p ∧ singleExp p < 255 := by
    rw [BitVec.lt_def,BitVec.lt_def,hexp]
    rfl
  rw [highBit]
  simp only [hrange,hhigh,ne_eq]
  split_ifs <;> rw [decide_eq_true_iff] <;> omega

theorem fields_regular (p : BitVec 32) :
    signOf (regular p (highBit (expField p))) = singleSign p ∧
      expOf (regular p (highBit (expField p))) = (if singleExp p = 0 then 0
        else if singleExp p = 255 then 2047 else singleExp p + 896) ∧
      fracOf (regular p (highBit (expField p))) = singleFrac p*2^29 := by
  have hnat := toNat_regular p (highBit (expField p))
  have hsplit := toNat_single p
  have hs := @singleSign_lt p
  have he := @singleExp_lt p
  have hf := @singleFrac_lt p
  have htop : p.toNat/2^30 = singleSign p*2 + singleExp p/128 := by omega
  have hlow : p.toNat % 2^30 = singleExp p % 128*2^23 + singleFrac p := by omega
  rw [htop,hlow] at hnat
  simp only [highBit_iff] at hnat
  refine fields_of_toNat ?_ ?_ (by omega)
  · rw [hnat]
    split_ifs <;> omega
  · split_ifs <;> omega

theorem toNat_subnormal {k : ℕ} (hk : k ≤ 896) (hlow : 2^23 ≤ singleFrac p*2^k)
    (hhigh : singleFrac p*2^k < 2^24) : (subnormal p k).toNat =
      singleSign p*2^63 + (897 - k)*2^52 + (singleFrac p*2^k - 2^23)*2^29 := by
  have hs := @singleSign_lt p
  have htop : ((p.zeroExtend 64 &&& 0x80000000#64) <<< 32).toNat = singleSign p*2^63 := by
    have hmask : (p.zeroExtend 64 &&& 0x80000000#64).toNat = singleSign p*2^31 := by
      have h := and_field p.toNat 1 31
      rw [BitVec.toNat_and,toNat_zeroExtend]
      refine h.trans ?_
      rw [singleSign] at hs ⊢
      omega
    rw [BitVec.toNat_shiftLeft,hmask,Nat.shiftLeft_eq]
    omega
  have hexp : (BitVec.ofNat 64 (897 - k) <<< 52).toNat = (897 - k)*2^52 := by
    rw [BitVec.toNat_shiftLeft,BitVec.toNat_ofNat,Nat.shiftLeft_eq]
    omega
  have hfrac : ((((fracField p).zeroExtend 64 <<< k) &&& 0x007FFFFF#64) <<< 29).toNat =
      (singleFrac p*2^k - 2^23)*2^29 := by
    have hshift : ((fracField p).zeroExtend 64 <<< k).toNat = singleFrac p*2^k := by
      rw [BitVec.toNat_shiftLeft,toNat_zeroExtend,toNat_fracField,Nat.shiftLeft_eq]
      exact Nat.mod_eq_of_lt (by omega)
    have hmask : (((fracField p).zeroExtend 64 <<< k) &&& 0x007FFFFF#64).toNat =
        singleFrac p*2^k - 2^23 := by
      rw [BitVec.toNat_and,hshift]
      refine (Nat.and_two_pow_sub_one_eq_mod _ 23).trans ?_
      omega
    rw [BitVec.toNat_shiftLeft,hmask,Nat.shiftLeft_eq]
    omega
  rw [subnormal,BitVec.toNat_or,BitVec.toNat_or,htop,hexp,hfrac,or_field (by omega),
    show singleSign p*2^63 + (897 - k)*2^52 = (singleSign p*2^11 + (897 - k))*2^52 by omega]
  exact or_field (by omega)

/-- The shift of a denormal brings its top bit to the implicit one. -/
theorem subnormal_shift (h : singleExp p = 0 ∧ singleFrac p ≠ 0) :
    ∃ k ≤ 23, toDouble p = subnormal p k ∧ 2^23 ≤ singleFrac p*2^k ∧ singleFrac p*2^k < 2^24 := by
  have hfield : expField p = 0 ∧ fracField p ≠ 0 := by
    refine ⟨BitVec.eq_of_toNat_eq ((toNat_expField p).trans h.1),fun hz => h.2 ?_⟩
    rw [← toNat_fracField,hz]
    rfl
  obtain ⟨h9,h31,hlow,hhigh⟩ := fracField_clz hfield.2
  rw [toNat_fracField] at hlow hhigh
  refine ⟨(fracField p).clz.toNat - 8,by omega,if_pos hfield,?_,?_⟩
  · calc 2^23 = 2^(31 - (fracField p).clz.toNat)*2^((fracField p).clz.toNat - 8) := by
          rw [← Nat.pow_add]
          congr 1
          omega
      _ ≤ _ := Nat.mul_le_mul_right _ hlow
  · calc singleFrac p*2^((fracField p).clz.toNat - 8) <
          2^(32 - (fracField p).clz.toNat)*2^((fracField p).clz.toNat - 8) :=
          Nat.mul_lt_mul_of_pos_right hhigh (Nat.two_pow_pos _)
      _ = 2^24 := by
          rw [← Nat.pow_add]
          congr 1
          omega

theorem toDouble_regular (h : ¬(singleExp p = 0 ∧ singleFrac p ≠ 0)) :
    toDouble p = regular p (highBit (expField p)) := by
  refine if_neg fun hfield => h ⟨?_,fun hz => hfield.2 ?_⟩
  · rw [← toNat_expField,hfield.1]
    rfl
  · exact BitVec.eq_of_toNat_eq ((toNat_fracField p).trans hz)

theorem scaled_eq (m n : ℕ) (i j : ℤ) (h : (n : ℤ) + i = j) :
    ((m*2^n : ℕ) : ℚ)*2^i = (m : ℚ)*2^j := by
  rw [Nat.cast_mul,Nat.cast_pow,Nat.cast_ofNat,mul_assoc,← zpow_natCast,← zpow_add₀ two_ne_zero,h]

theorem doubleValue_toDouble (p : BitVec 32) : doubleValue (toDouble p) = singleValue p := by
  by_cases h : singleExp p = 0 ∧ singleFrac p ≠ 0
  · obtain ⟨k,hk,heq,hlow,hhigh⟩ := subnormal_shift h
    obtain ⟨hsign,hexp,hfrac⟩ := fields_of_toNat (toNat_subnormal (by omega) hlow hhigh) (by omega)
      (by omega)
    rw [doubleValue,singleValue,heq,hsign,hexp,hfrac,valueOf,valueOf,if_neg (by omega),
      if_neg (by omega),h.1,if_neg (by decide),if_pos rfl]
    have hm : 2^(double.precision - 1) + (singleFrac p*2^k - 2^23)*2^29 =
        singleFrac p*2^(k + 29) := by
      rw [Nat.pow_add,← Nat.mul_assoc]
      show 2^52 + _ = _
      omega
    rw [hm,scaled_eq _ _ _ (-149)]
    · rfl
    · show ((k + 29 : ℕ) : ℤ) + (-1074 + ((897 - k : ℕ) : ℤ) - 1) = -149
      omega
  · obtain ⟨hsign,hexp,hfrac⟩ := fields_regular p
    have he := @singleExp_lt p
    rw [doubleValue,singleValue,toDouble_regular h,hsign,hexp,hfrac]
    by_cases h0 : singleExp p = 0
    · have hf : singleFrac p = 0 := by
        by_contra hf
        exact h ⟨h0,hf⟩
      rw [if_pos h0,h0,hf,valueOf,valueOf]
      simp
    rw [if_neg h0]
    by_cases h255 : singleExp p = 255
    · rw [if_pos h255,h255,valueOf,valueOf,if_pos rfl,if_pos rfl]
      exact if_congr (by omega) rfl rfl
    · rw [if_neg h255,valueOf,valueOf,if_neg (by omega),if_neg (by omega),if_neg h255,if_neg h0]
      have hm : 2^(double.precision - 1) + singleFrac p*2^29 =
          (2^(single.precision - 1) + singleFrac p)*2^29 := by
        show 2^52 + _ = (2^23 + _)*2^29
        omega
      rw [hm,scaled_eq _ _ _ (single.unit + singleExp p - 1)]
      show ((29 : ℕ) : ℤ) + (-1074 + ((singleExp p + 896 : ℕ) : ℤ) - 1) = -149 + singleExp p - 1
      omega

theorem singleValue_finite {negative : Bool} {a : ℚ} (h : singleValue p = .finite negative a) :
    ∃ (k : ℕ) (j : ℤ), k < 2^24 ∧ -149 ≤ j ∧ j ≤ 104 ∧ a = k*2^j ∧ (2^23 ≤ k ∨ j = -149) ∧
      (j + 149).toNat*2^23 + k = singleExp p*2^23 + singleFrac p := by
  have hf := @singleFrac_lt p
  have he := @singleExp_lt p
  rw [singleValue,valueOf] at h
  split_ifs at h with h255 hzero h0
  · obtain ⟨-,rfl⟩ := FloatValue.finite.inj h
    exact ⟨singleFrac p,-149,by omega,le_rfl,by omega,rfl,.inr rfl,by omega⟩
  · obtain ⟨-,rfl⟩ := FloatValue.finite.inj h
    refine ⟨2^23 + singleFrac p,-149 + singleExp p - 1,by omega,by omega,by omega,rfl,
      .inl (by omega),by omega⟩

theorem singleMagnitude_value {negative : Bool} {a : ℚ} (h : singleValue p = .finite negative a) :
    singleMagnitude a = singleExp p*2^23 + singleFrac p := by
  obtain ⟨k,j,hk,hj,hu,rfl,hlow,heq⟩ := singleValue_finite h
  have hulp : single.ulp ((k : ℚ)*2^j) = j := ulp_eq (by decide) hk hj hlow
  have hdiv : (k : ℚ)*2^j/2^j = (k : ℤ) := by
    rw [mul_div_cancel_right₀ _ (pow_pos_two j).ne',Int.cast_natCast]
  rw [singleMagnitude,hulp,hdiv,nearestEven_intCast,Int.toNat_natCast]
  show min _ ((j - -149).toNat*2^23 + k) = _
  omega

theorem signOf_toDouble (p : BitVec 32) : signOf (toDouble p) = singleSign p := by
  by_cases h : singleExp p = 0 ∧ singleFrac p ≠ 0
  · obtain ⟨k,hk,heq,hlow,hhigh⟩ := subnormal_shift h
    rw [heq]
    exact (fields_of_toNat (toNat_subnormal (by omega) hlow hhigh) (by omega) (by omega)).1
  · rw [toDouble_regular h]
    exact (fields_regular p).1

theorem singleValue_nan : singleValue p = .nan ↔ singleExp p = 255 ∧ singleFrac p ≠ 0 := by
  rw [singleValue,valueOf]
  split_ifs <;> simp_all

theorem singleValue_infinite {negative : Bool} (h : singleValue p = .infinite negative) :
    singleExp p = 255 ∧ singleFrac p = 0 := by
  rw [singleValue,valueOf] at h
  split_ifs at h with h255 hzero
  exact ⟨h255,hzero⟩

theorem quiet_eq {f : ℕ} (hf : f < 2^23) :
    f ||| 2^22 = f + if f < 2^22 then 2^22 else 0 := by
  split
  · next h =>
    have := or_field (a := 1) h
    rw [Nat.or_comm,← Nat.one_mul (2^22),this,Nat.add_comm]
  · next h =>
    obtain ⟨r,rfl⟩ := Nat.exists_eq_add_of_le (not_lt.mp h)
    have hr : r < 2^22 := by omega
    have hsplit : 2^22 + r = 2^22 ||| r := by
      have := or_field (a := 1) hr
      rw [Nat.one_mul] at this
      exact this.symm
    rw [hsplit,Nat.or_right_comm,Nat.or_self,Nat.add_zero]

/-- Only a signalling NaN does not come back: its quiet bit is set. -/
theorem toNat_toSingle_toDouble (p : BitVec 32) :
    (toSingle (toDouble p)).toNat = p.toNat + if Signalling p then 2^22 else 0 := by
  have hp := p.isLt
  have hsplit := toNat_single p
  have hs := @singleSign_lt p
  have hf := @singleFrac_lt p
  rw [toSingle,BitVec.toNat_ofNat,doubleValue_toDouble,signOf_toDouble]
  cases hv : singleValue p with
  | nan =>
    obtain ⟨hexp,hfrac⟩ := singleValue_nan.mp hv
    have htop : fracOf (toDouble p)/2^29 = singleFrac p := by
      have hregular : ¬(singleExp p = 0 ∧ singleFrac p ≠ 0) := by omega
      rw [toDouble_regular hregular,(fields_regular p).2.2]
      omega
    have hsignal : Signalling p ↔ singleFrac p < 2^22 :=
      ⟨fun h => h.2.2,fun h => ⟨hexp,hfrac,h⟩⟩
    simp only [htop,quiet_eq hf,hsignal]
    split_ifs <;> omega
  | infinite negative =>
    obtain ⟨hexp,hfrac⟩ := singleValue_infinite hv
    have hne : ¬Signalling p := fun h => h.2.1 hfrac
    rw [if_neg hne]
    show (singleSign p*2^31 + 255*2^23) % 2^32 = _
    omega
  | finite negative a =>
    have hne : ¬Signalling p := fun h => by
      rw [singleValue_nan.mpr ⟨h.1,h.2.1⟩] at hv
      cases hv
    rw [if_neg hne]
    simp only [singleMagnitude_value hv]
    omega

end

end FloatValues

end DolRecomp
