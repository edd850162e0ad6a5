import DolRecomp.FloatMoveAgreement

/-!
# From single precision to double and back

The conversion of the emitted C, that of the runtime and that of the LLVM backend on bit patterns.
Two of them normalise a denormal in a loop, and the third counts leading zeros.
-/

namespace DolRecomp

open Emitter

namespace SingleConversion

def extendF32Bits (bits : BitVec 32) : BitVec 64 :=
  let exponent : BitVec 64 := ((bits >>> 23) &&& 0xFF#32).zeroExtend 64
  let fraction : BitVec 64 := (bits &&& 0x007FFFFF#32).zeroExtend 64
  if 0 < exponent ∧ exponent < 255 then
    let highExponent : BitVec 64 := if exponent >>> 7 = 0 then 1 else 0
    let extension := (highExponent <<< 61) ||| (highExponent <<< 60) ||| (highExponent <<< 59)
    ((bits &&& 0xC0000000#32).zeroExtend 64 <<< 32) ||| extension |||
      ((bits &&& 0x3FFFFFFF#32).zeroExtend 64 <<< 29)
  else if exponent = 0 ∧ fraction ≠ 0 then
    let (fraction,exponent) := normalizeLoop 23 fraction (1023 - 126)
    ((bits &&& 0x80000000#32).zeroExtend 64 <<< 32) ||| (exponent <<< 52) |||
      ((fraction &&& 0x007FFFFF#64) <<< 29)
  else
    let highExponent := exponent >>> 7
    let extension := (highExponent <<< 61) ||| (highExponent <<< 60) ||| (highExponent <<< 59)
    ((bits &&& 0xC0000000#32).zeroExtend 64 <<< 32) ||| extension |||
      ((bits &&& 0x3FFFFFFF#32).zeroExtend 64 <<< 29)

/-- The value that the instructions of `extendPSQFloat` compute. -/
def extendPSQFloat (bits : BitVec 32) : BitVec 64 :=
  let x : BitVec 64 := bits.zeroExtend 64
  let exponent := (bits >>> 23) &&& 0xFF#32
  let fraction := bits &&& 0x007FFFFF#32
  let normal : Bool := 0 < exponent ∧ exponent < 255
  let normalY : BitVec 64 := (BitVec.ofBool (exponent >>> 7 = 0)).zeroExtend 64
  let specialY : BitVec 64 := (exponent >>> 7).zeroExtend 64
  let y := if normal then normalY else specialY
  let regular := ((x &&& 0xC0000000#64) <<< 32) |||
    ((y * 0x3800000000000000#64) ||| ((x &&& 0x3FFFFFFF#64) <<< 29))
  let leading := fraction.clz
  let shift := leading - 8
  let shiftedFraction := fraction <<< shift.toNat
  let subnormalExponent := 897 - shift
  let subnormal := ((x &&& 0x80000000#64) <<< 32) |||
    ((subnormalExponent.zeroExtend 64 <<< 52) |||
      ((shiftedFraction &&& 0x007FFFFF#32).zeroExtend 64 <<< 29))
  let isSubnormal : Bool := exponent = 0 ∧ fraction ≠ 0
  if isSubnormal then subnormal else regular

def expField (p : BitVec 32) : BitVec 32 := (p >>> 23) &&& 0xFF#32

def fracField (p : BitVec 32) : BitVec 32 := p &&& 0x007FFFFF#32

/-- The bit that fills the wider exponent. -/
def highBit (e : BitVec 32) : Bool := if 0 < e ∧ e < 255 then e >>> 7 = 0 else e >>> 7 ≠ 0

def regular (p : BitVec 32) (b : Bool) : BitVec 64 :=
  ((p.zeroExtend 64 &&& 0xC0000000#64) <<< 32) ||| (if b then 0x3800000000000000#64 else 0#64) |||
    ((p.zeroExtend 64 &&& 0x3FFFFFFF#64) <<< 29)

/-- A denormal whose fraction is moved up by `k`. -/
def subnormal (p : BitVec 32) (k : ℕ) : BitVec 64 :=
  ((p.zeroExtend 64 &&& 0x80000000#64) <<< 32) ||| (BitVec.ofNat 64 (897 - k) <<< 52) |||
    ((((fracField p).zeroExtend 64 <<< k) &&& 0x007FFFFF#64) <<< 29)

def toDouble (p : BitVec 32) : BitVec 64 :=
  if expField p = 0 ∧ fracField p ≠ 0 then subnormal p ((fracField p).clz.toNat - 8)
  else regular p (highBit (expField p))

theorem zeroExtend_and (p m : BitVec 32) :
    (p &&& m).zeroExtend 64 = p.zeroExtend 64 &&& m.zeroExtend 64 := BitVec.setWidth_and

theorem expField_zeroExtend (p : BitVec 32) :
    (p.zeroExtend 64 >>> 23) &&& 0xFF#64 = (expField p).zeroExtend 64 := by
  refine BitVec.eq_of_toNat_eq ?_
  simp [expField,Nat.mod_eq_of_lt (show p.toNat < 18446744073709551616 by omega)]

theorem fracField_zeroExtend (p : BitVec 32) :
    p.zeroExtend 64 &&& 0x007FFFFF#64 = (fracField p).zeroExtend 64 :=
  (zeroExtend_and p 0x007FFFFF#32).symm

theorem expField_lt (p : BitVec 32) : (expField p).toNat < 256 := by
  have h := Nat.and_le_right (n := (p >>> 23).toNat) (m := 255)
  show (p >>> 23).toNat &&& 255 < 256
  omega

theorem extension_eq {y : BitVec 64} {b : Bool} (h : y = if b then 1 else 0) :
    (y <<< 61) ||| (y <<< 60) ||| (y <<< 59) = (if b then 0x3800000000000000#64 else 0#64) ∧
      y * 0x3800000000000000#64 = if b then 0x3800000000000000#64 else 0#64 := by
  subst h
  cases b <;> decide

/-- The last case has an exponent of 0 or 255, whose bit 7 is its only bit above 6. -/
theorem shift_eq {e : BitVec 32} (h : e.toNat < 256) :
    (e >>> 7).zeroExtend 64 = if e >>> 7 ≠ 0 then (1 : BitVec 64) else 0 := by
  have hlt : (e >>> 7).toNat < 2 := by
    rw [BitVec.toNat_ushiftRight,Nat.shiftRight_eq_div_pow]
    omega
  by_cases h0 : e >>> 7 = 0
  · rw [if_neg (not_not.mpr h0),h0]
    rfl
  · have h1 : e >>> 7 = 1#32 := BitVec.eq_of_toNat_eq (by
      have : (e >>> 7).toNat ≠ 0 := fun hz => h0 (BitVec.eq_of_toNat_eq hz)
      show (e >>> 7).toNat = 1
      omega)
    rw [if_pos h0,h1]
    rfl

theorem zeroExtend_eq_zero {e : BitVec 32} : e.zeroExtend 64 = 0 ↔ e = 0 := by
  refine ⟨fun h => BitVec.eq_of_toNat_eq ?_,fun h => by rw [h]; rfl⟩
  have := congrArg BitVec.toNat h
  simpa [Nat.mod_eq_of_lt (show e.toNat < 18446744073709551616 by omega)] using this

theorem zeroExtend_range {e : BitVec 32} : (0 < e.zeroExtend 64 ∧ e.zeroExtend 64 < 255) ↔
    0 < e ∧ e < 255 := by
  simp [BitVec.lt_def,Nat.mod_eq_of_lt (show e.toNat < 18446744073709551616 by omega)]

def normalizeRound (s : BitVec 64 × BitVec 64) : BitVec 64 × BitVec 64 := (s.1 <<< 1,s.2 - 1)

/-- A run of the loop that comes to its end: a round, and another as long as bit 23 is clear. -/
inductive NormalizeRuns : BitVec 64 × BitVec 64 → BitVec 64 × BitVec 64 → Prop
  | exit {s} : (normalizeRound s).1 &&& 0x00800000#64 ≠ 0 → NormalizeRuns s (normalizeRound s)
  | again {s t} : (normalizeRound s).1 &&& 0x00800000#64 = 0 →
      NormalizeRuns (normalizeRound s) t → NormalizeRuns s t

theorem bit_and_eq_zero {x : BitVec 64} (h : x.toNat < 2^24) :
    x &&& 0x00800000#64 = 0 ↔ x.toNat < 2^23 := by
  have hbit : x.toNat &&& 2^23 = if x.toNat < 2^23 then 0 else 2^23 := by
    rw [Nat.and_two_pow,Nat.testBit_eq_decide_div_mod_eq]
    split
    next hlt =>
      rw [decide_eq_false (by omega)]
      rfl
    next hge =>
      rw [decide_eq_true (by omega)]
      rfl
  have hiff : x &&& 0x00800000#64 = 0 ↔ x.toNat &&& 2^23 = 0 :=
    ⟨fun hz => congrArg BitVec.toNat hz,fun hz => BitVec.eq_of_toNat_eq hz⟩
  rw [hiff,hbit]
  split
  next hlt => exact iff_of_true rfl hlt
  next hge => exact iff_of_false (by decide) hge

/-- With its top bit at `22 - d` the fraction moves up `d + 1` times. -/
theorem normalizeLoop_eq (d : ℕ) (hd : d ≤ 22) (fuel : ℕ) (hfuel : d + 1 ≤ fuel)
    (frac exp : BitVec 64) (hlow : 2^(22 - d) ≤ frac.toNat) (hhigh : frac.toNat < 2^(23 - d)) :
    normalizeLoop fuel frac exp = (frac <<< (d + 1),exp - BitVec.ofNat 64 (d + 1)) ∧
      NormalizeRuns (frac,exp) (normalizeLoop fuel frac exp) := by
  induction d generalizing fuel frac exp with
  | zero =>
    obtain ⟨fuel,rfl⟩ : ∃ n, fuel = n + 1 := ⟨fuel - 1,by omega⟩
    have hdouble : (frac <<< 1).toNat = 2*frac.toNat := by
      rw [BitVec.toNat_shiftLeft,Nat.shiftLeft_eq]
      omega
    have hset : ¬(frac <<< 1) &&& 0x00800000#64 = 0 := fun h => by
      have := (bit_and_eq_zero (by rw [hdouble]; omega)).mp h
      omega
    rw [normalizeLoop]
    simp only [if_neg hset]
    exact ⟨rfl,.exit hset⟩
  | succ d ih =>
    obtain ⟨fuel,rfl⟩ : ∃ n, fuel = n + 1 := ⟨fuel - 1,by omega⟩
    have hpow : 2^(22 - d) = 2*2^(22 - (d + 1)) ∧ 2^(23 - d) = 2*2^(23 - (d + 1)) := by
      rw [← Nat.pow_succ',← Nat.pow_succ']
      exact ⟨by congr 1; omega,by congr 1; omega⟩
    have hle : 2^(23 - d) ≤ 2^23 := Nat.pow_le_pow_right (by decide) (by omega)
    have hdouble : (frac <<< 1).toNat = 2*frac.toNat := by
      rw [BitVec.toNat_shiftLeft,Nat.shiftLeft_eq]
      omega
    have hclear : (frac <<< 1) &&& 0x00800000#64 = 0 :=
      (bit_and_eq_zero (by rw [hdouble]; omega)).mpr (by rw [hdouble]; omega)
    obtain ⟨heq,hruns⟩ := ih (by omega) fuel (by omega) (frac <<< 1) (exp - 1)
      (by rw [hdouble]; omega) (by rw [hdouble]; omega)
    rw [normalizeLoop]
    simp only [if_pos hclear]
    refine ⟨?_,.again hclear hruns⟩
    rw [heq,← BitVec.shiftLeft_add,BitVec.sub_sub,Nat.add_comm 1]
    congr 2
    rw [show (1 : BitVec 64) = BitVec.ofNat 64 1 from rfl,← BitVec.ofNat_add,Nat.add_comm 1]

/-- The top bit of a fraction, by its leading zeros. -/
theorem fracField_clz {p : BitVec 32} (h : fracField p ≠ 0) : 9 ≤ (fracField p).clz.toNat ∧
    (fracField p).clz.toNat ≤ 31 ∧ 2^(31 - (fracField p).clz.toNat) ≤ (fracField p).toNat ∧
      (fracField p).toNat < 2^(32 - (fracField p).clz.toNat) := by
  have hlt : (fracField p).clz.toNat < 32 := BitVec.clz_lt_iff_ne_zero.mpr h
  have hlow : 2^(31 - (fracField p).clz.toNat) ≤ (fracField p).toNat :=
    BitVec.two_pow_sub_clz_le_toNat_of_ne_zero (by decide) h
  have hfrac : (fracField p).toNat < 2^23 := by
    have := Nat.and_le_right (n := p.toNat) (m := 2^23 - 1)
    show p.toNat &&& 2^23 - 1 < _
    omega
  refine ⟨?_,by omega,hlow,?_⟩
  · by_contra hno
    have : 2^23 ≤ 2^(31 - (fracField p).clz.toNat) := Nat.pow_le_pow_right (by decide) (by omega)
    omega
  · exact BitVec.toNat_lt_two_pow_sub_clz

theorem normalizeLoop_frac {p : BitVec 32} (h : fracField p ≠ 0) :
    normalizeLoop 23 ((fracField p).zeroExtend 64) (1023 - 126) =
      ((fracField p).zeroExtend 64 <<< ((fracField p).clz.toNat - 8),
        BitVec.ofNat 64 (897 - ((fracField p).clz.toNat - 8))) ∧
      NormalizeRuns ((fracField p).zeroExtend 64,1023 - 126)
        (normalizeLoop 23 ((fracField p).zeroExtend 64) (1023 - 126)) := by
  obtain ⟨h9,h31,hlow,hhigh⟩ := fracField_clz h
  have hnat : ((fracField p).zeroExtend 64).toNat = (fracField p).toNat :=
    (BitVec.toNat_setWidth _ _).trans (Nat.mod_eq_of_lt (by omega))
  have hmain := normalizeLoop_eq ((fracField p).clz.toNat - 9) (by omega) 23 (by omega)
    ((fracField p).zeroExtend 64) (1023 - 126)
    (by rw [hnat]; convert hlow using 2; omega) (by rw [hnat]; convert hhigh using 2; omega)
  rw [show (fracField p).clz.toNat - 9 + 1 = (fracField p).clz.toNat - 8 by omega] at hmain
  refine ⟨hmain.1.trans (Prod.ext rfl (BitVec.eq_of_toNat_eq ?_)),hmain.2⟩
  rw [show (1023 - 126 : BitVec 64) = 897#64 from rfl,BitVec.toNat_sub,BitVec.toNat_ofNat,
    BitVec.toNat_ofNat,BitVec.toNat_ofNat]
  omega

theorem or_zeroExtend_and (p : BitVec 32) : (p &&& 0xC0000000#32).zeroExtend 64 =
      p.zeroExtend 64 &&& 0xC0000000#64 ∧
    (p &&& 0x3FFFFFFF#32).zeroExtend 64 = p.zeroExtend 64 &&& 0x3FFFFFFF#64 ∧
    (p &&& 0x80000000#32).zeroExtend 64 = p.zeroExtend 64 &&& 0x80000000#64 ∧
    (p &&& 0x007FFFFF#32).zeroExtend 64 = (fracField p).zeroExtend 64 :=
  ⟨zeroExtend_and p 0xC0000000#32,zeroExtend_and p 0x3FFFFFFF#32,zeroExtend_and p 0x80000000#32,rfl⟩

/-- What the three forms have in common: which exponents are special, and what they fill in. -/
theorem toDouble_cases {p : BitVec 32} {normal denormal special : BitVec 64}
    (hnormal : normal = regular p (expField p >>> 7 = 0))
    (hspecial : special = regular p (expField p >>> 7 ≠ 0))
    (hdenormal : fracField p ≠ 0 → denormal = subnormal p ((fracField p).clz.toNat - 8)) :
    (if 0 < expField p ∧ expField p < 255 then normal
      else if expField p = 0 ∧ fracField p ≠ 0 then denormal else special) = toDouble p := by
  unfold toDouble highBit
  by_cases hn : 0 < expField p ∧ expField p < 255
  · have hne : expField p ≠ 0 := fun h => by
      rw [h] at hn
      exact absurd hn.1 (by decide)
    rw [if_pos hn,if_pos hn,if_neg fun h => hne h.1]
    exact hnormal
  · rw [if_neg hn,if_neg hn]
    split
    next h => exact hdenormal h.2
    next h => exact hspecial

/-- Bit 7 of the exponent, as the words of the three forms have it. -/
theorem highWord_eq (p : BitVec 32) :
    ((if (expField p).zeroExtend 64 >>> 7 = 0 then 1 else 0 : BitVec 64) =
      if decide (expField p >>> 7 = 0) = true then 1 else 0) ∧
    (expField p).zeroExtend 64 >>> 7 = if decide (expField p >>> 7 ≠ 0) = true then 1 else 0 := by
  have hshift : (expField p).zeroExtend 64 >>> 7 = (expField p >>> 7).zeroExtend 64 := by
    refine BitVec.eq_of_toNat_eq ?_
    have := expField_lt p
    simp only [BitVec.toNat_ushiftRight,BitVec.toNat_setWidth,Nat.shiftRight_eq_div_pow]
    omega
  rw [hshift]
  refine ⟨?_,?_⟩
  · simp only [zeroExtend_eq_zero,decide_eq_true_eq]
  · simp only [decide_eq_true_eq]
    exact shift_eq (expField_lt p)

theorem f32FromBits_eq (p : BitVec 32) : f32FromBits p = toDouble p := by
  obtain ⟨hone,htwo⟩ := highWord_eq p
  rw [← toDouble_cases (p := p) rfl rfl fun _ => rfl]
  unfold f32FromBits
  simp only [expField_zeroExtend,fracField_zeroExtend,zeroExtend_range,zeroExtend_eq_zero,ne_eq,
    (extension_eq hone).1,(extension_eq htwo).1]
  by_cases hf : fracField p = 0
  · simp only [hf,not_true_eq_false,and_false,if_false]
    rfl
  · rw [(normalizeLoop_frac hf).1]
    rfl

theorem extendF32Bits_eq (p : BitVec 32) : extendF32Bits p = toDouble p := by
  obtain ⟨hone,htwo⟩ := highWord_eq p
  obtain ⟨hhigh,hlow,hsign,hfrac⟩ := or_zeroExtend_and p
  rw [← toDouble_cases (p := p) rfl rfl fun _ => rfl]
  unfold extendF32Bits
  simp only [hhigh,hlow,hsign,hfrac,show (p >>> 23) &&& 0xFF#32 = expField p from rfl,
    zeroExtend_range,zeroExtend_eq_zero,ne_eq,(extension_eq hone).1,(extension_eq htwo).1]
  by_cases hf : fracField p = 0
  · simp only [hf,not_true_eq_false,and_false,if_false]
    rfl
  · rw [(normalizeLoop_frac hf).1]
    rfl

theorem extendPSQFloat_eq (p : BitVec 32) : extendPSQFloat p = toDouble p := by
  have hbool : ∀ b : Bool, (BitVec.ofBool b).zeroExtend 64 = if b then (1 : BitVec 64) else 0 := by
    decide
  have hshift : (expField p >>> 7).zeroExtend 64 = if expField p >>> 7 ≠ 0 then (1 : BitVec 64)
      else 0 := shift_eq (expField_lt p)
  have hmul : ∀ b : Bool, (if b then (1 : BitVec 64) else 0) * 0x3800000000000000#64 =
      if b then 0x3800000000000000#64 else 0#64 := by decide
  have hdenormal : fracField p ≠ 0 → ((p.zeroExtend 64 &&& 0x80000000#64) <<< 32) |||
      (((897 - ((fracField p).clz - 8)).zeroExtend 64 <<< 52) |||
        ((((fracField p <<< ((fracField p).clz - 8).toNat) &&& 0x007FFFFF#32).zeroExtend 64) <<<
          29)) = subnormal p ((fracField p).clz.toNat - 8) := fun h => by
    obtain ⟨h9,h31,-,hhigh⟩ := fracField_clz h
    have hsub : ((fracField p).clz - 8).toNat = (fracField p).clz.toNat - 8 := by
      rw [BitVec.toNat_sub,show (8 : BitVec 32).toNat = 8 from rfl]
      omega
    have hexp : (897 - ((fracField p).clz - 8)).zeroExtend 64 =
        BitVec.ofNat 64 (897 - ((fracField p).clz.toNat - 8)) := by
      refine BitVec.eq_of_toNat_eq ?_
      rw [BitVec.toNat_setWidth,BitVec.toNat_sub,hsub,BitVec.toNat_ofNat,
        show (897 : BitVec 32).toNat = 897 from rfl]
      omega
    have hfrac : (fracField p <<< ((fracField p).clz.toNat - 8)).zeroExtend 64 =
        (fracField p).zeroExtend 64 <<< ((fracField p).clz.toNat - 8) := by
      have hpow : (fracField p).toNat*2^((fracField p).clz.toNat - 8) < 2^32 := by
        calc (fracField p).toNat*2^((fracField p).clz.toNat - 8)
            < 2^(32 - (fracField p).clz.toNat)*2^((fracField p).clz.toNat - 8) :=
              Nat.mul_lt_mul_of_pos_right hhigh (Nat.two_pow_pos _)
          _ = 2^24 := by rw [← Nat.pow_add]; congr 1; omega
          _ < 2^32 := by decide
      refine BitVec.eq_of_toNat_eq ?_
      simp only [BitVec.toNat_setWidth,BitVec.toNat_shiftLeft,Nat.shiftLeft_eq]
      rw [Nat.mod_eq_of_lt (a := (fracField p).toNat) (by omega),Nat.mod_eq_of_lt (b := 2^32) hpow]
    rw [hsub,hexp,subnormal,zeroExtend_and,hfrac,BitVec.or_assoc]
    rfl
  have hregular : ∀ b : Bool, ((p.zeroExtend 64 &&& 0xC0000000#64) <<< 32) |||
      (((if b then (1 : BitVec 64) else 0) * 0x3800000000000000#64) |||
        ((p.zeroExtend 64 &&& 0x3FFFFFFF#64) <<< 29)) = regular p b := fun b => by
    rw [hmul,regular,BitVec.or_assoc]
  rw [← toDouble_cases (p := p) rfl rfl hdenormal]
  unfold extendPSQFloat
  simp only [show (p >>> 23) &&& 0xFF#32 = expField p from rfl,
    show p &&& 0x007FFFFF#32 = fracField p from rfl,decide_eq_true_eq]
  by_cases hn : 0 < expField p ∧ expField p < 255
  · have hne : ¬(expField p = 0 ∧ fracField p ≠ 0) := fun h => by
      rw [h.1] at hn
      exact absurd hn.1 (by decide)
    rw [if_pos hn,if_pos hn,if_neg hne,hbool]
    exact hregular _
  · rw [if_neg hn,if_neg hn,hshift]
    split
    · rfl
    · have := hregular (expField p >>> 7 ≠ 0)
      simpa only [decide_eq_true_eq] using this

/-- The bits of `f32ToBits` away from the denormals. -/
def direct (x : BitVec 64) : BitVec 32 :=
  (((x >>> 32) &&& 0xC0000000#64) ||| ((x >>> 29) &&& 0x3FFFFFFF#64)).truncate 32

def expWord (x : BitVec 64) : BitVec 32 := ((x >>> 52) &&& 0x7FF#64).truncate 32

theorem topMask_getLsbD (n : ℕ) : (0xC0000000#64).getLsbD n = (decide (n = 30) || decide (n = 31)) := by
  by_cases hn : n < 64
  · revert n
    decide
  · rw [BitVec.getLsbD_of_ge _ _ (by omega),decide_eq_false (by omega),decide_eq_false (by omega)]
    rfl

theorem lowMask_getLsbD (n : ℕ) : (0x3FFFFFFF#64).getLsbD n = decide (n < 30) := by
  rw [BitVec.getLsbD,show (0x3FFFFFFF#64).toNat = 2^30 - 1 from rfl,Nat.testBit_two_pow_sub_one]

theorem fill_getLsbD (b : Bool) (n : ℕ) :
    (if b then 0x3800000000000000#64 else 0#64).getLsbD n =
      (b && (decide (59 ≤ n) && decide (n < 62))) := by
  have hbits : ∀ n < 64, (0x3800000000000000#64).getLsbD n =
      (decide (59 ≤ n) && decide (n < 62)) := by decide
  cases b with
  | false => simp
  | true =>
    by_cases hn : n < 64
    · rw [if_pos rfl,hbits n hn,Bool.true_and]
    · rw [if_pos rfl,BitVec.getLsbD_of_ge _ _ (by omega),decide_eq_false (p := n < 62) (by omega)]
      simp

theorem regular_getLsbD (p : BitVec 32) (b : Bool) {n : ℕ} (hn : n < 64) :
    (regular p b).getLsbD n = if 62 ≤ n then p.getLsbD (n - 32)
      else if 59 ≤ n then b else decide (29 ≤ n) && p.getLsbD (n - 29) := by
  have hx : ∀ k, (p.zeroExtend 64).getLsbD k = p.getLsbD k := fun k => by
    rw [BitVec.getLsbD_setWidth]
    by_cases hk : k < 64
    · rw [decide_eq_true hk,Bool.true_and]
    · rw [BitVec.getLsbD_of_ge p k (by omega),Bool.and_false]
  rw [regular,BitVec.getLsbD_or,BitVec.getLsbD_or,fill_getLsbD,BitVec.getLsbD_shiftLeft,
    BitVec.getLsbD_shiftLeft,BitVec.getLsbD_and,BitVec.getLsbD_and,topMask_getLsbD,lowMask_getLsbD,
    hx,hx]
  by_cases h62 : 62 ≤ n
  · have hcases : n = 62 ∨ n = 63 := by omega
    rcases hcases with rfl | rfl <;> simp
  · by_cases h59 : 59 ≤ n
    · have hcases : n = 59 ∨ n = 60 ∨ n = 61 := by omega
      rcases hcases with rfl | rfl | rfl <;> simp
    · by_cases h29 : 29 ≤ n
      · have h1 : n - 29 < 30 := by omega
        have h2 : ¬n - 32 = 30 := by omega
        have h3 : ¬n - 32 = 31 := by omega
        have h4 : ¬n < 29 := by omega
        simp [h62,h59,h29,h1,h2,h3,h4,hn]
      · have h2 : ¬n - 32 = 30 := by omega
        have h3 : ¬n - 32 = 31 := by omega
        have h4 : n < 29 := by omega
        simp [h62,h59,h29,h2,h3,h4]

theorem direct_getLsbD (x : BitVec 64) {n : ℕ} (hn : n < 32) : (direct x).getLsbD n =
    if 30 ≤ n then x.getLsbD (n + 32) else x.getLsbD (n + 29) := by
  rw [direct,BitVec.truncate,BitVec.getLsbD_setWidth,BitVec.getLsbD_or,BitVec.getLsbD_and,
    BitVec.getLsbD_and,BitVec.getLsbD_ushiftRight,BitVec.getLsbD_ushiftRight,topMask_getLsbD,
    lowMask_getLsbD,decide_eq_true hn,Bool.true_and,Nat.add_comm 32,Nat.add_comm 29]
  by_cases h30 : 30 ≤ n
  · have hcases : n = 30 ∨ n = 31 := by omega
    rcases hcases with rfl | rfl <;> simp
  · have h1 : n < 30 := by omega
    have h2 : ¬n = 30 := by omega
    have h3 : ¬n = 31 := by omega
    simp [h30,h1,h2,h3]

theorem direct_regular (p : BitVec 32) (b : Bool) : direct (regular p b) = p := by
  refine BitVec.eq_of_getLsbD_eq fun n hn => ?_
  rw [direct_getLsbD _ hn]
  split
  next h =>
    rw [regular_getLsbD p b (by omega),if_pos (by omega)]
    congr 1
  next h =>
    rw [regular_getLsbD p b (by omega),if_neg (by omega),if_neg (by omega),
      decide_eq_true (by omega),Bool.true_and]
    congr 1

theorem expWord_getLsbD (x : BitVec 64) (n : ℕ) :
    (expWord x).getLsbD n = (x.getLsbD (n + 52) && decide (n < 11)) := by
  have hmask : (0x7FF#64).getLsbD n = decide (n < 11) := by
    rw [BitVec.getLsbD,show (0x7FF#64).toNat = 2^11 - 1 from rfl,Nat.testBit_two_pow_sub_one]
  rw [expWord,BitVec.truncate,BitVec.getLsbD_setWidth,BitVec.getLsbD_and,
    BitVec.getLsbD_ushiftRight,hmask,Nat.add_comm 52]
  by_cases hn : n < 11
  · rw [decide_eq_true (show n < 32 by omega),Bool.true_and]
  · rw [decide_eq_false hn,Bool.and_false,Bool.and_false]

/-- An exponent that is not zero becomes one above 896. -/
theorem expWord_regular {p : BitVec 32} (h : expField p ≠ 0) :
    896 < expWord (regular p (highBit (expField p))) := by
  have htable : ∀ t < 512, expField (BitVec.ofNat 32 (t*2^23)) ≠ 0 → 896 < expWord (regular
      (BitVec.ofNat 32 (t*2^23)) (highBit (expField (BitVec.ofNat 32 (t*2^23))))) := by
    decide +kernel
  have htop : p &&& 0xFF800000#32 = BitVec.ofNat 32 (p.toNat/2^23*2^23) := by
    refine BitVec.eq_of_getLsbD_eq fun n hn => ?_
    have hmask : ∀ n < 32, (0xFF800000#32).getLsbD n = decide (23 ≤ n) := by decide
    rw [BitVec.getLsbD_and,hmask n hn,BitVec.getLsbD_ofNat,decide_eq_true hn,Bool.true_and,
      Nat.testBit_mul_two_pow,BitVec.getLsbD]
    by_cases h23 : 23 ≤ n
    · rw [decide_eq_true h23,Bool.and_true,Bool.true_and,Nat.testBit_div_two_pow]
      congr 1
      omega
    · rw [decide_eq_false h23,Bool.and_false,Bool.false_and]
  have hexp : expField (p &&& 0xFF800000#32) = expField p := by
    rw [expField,expField,BitVec.ushiftRight_and_distrib,BitVec.and_assoc]
    rfl
  have hword : ∀ b, expWord (regular p b) = expWord (regular (p &&& 0xFF800000#32) b) := fun b => by
    have hmask : ∀ n < 32, 23 ≤ n → (0xFF800000#32).getLsbD n = true := by decide
    refine BitVec.eq_of_getLsbD_eq fun n hn => ?_
    rw [expWord_getLsbD,expWord_getLsbD]
    by_cases h11 : n < 11
    · have hbit : ∀ k < 32, 23 ≤ k → (p &&& 0xFF800000#32).getLsbD k = p.getLsbD k :=
        fun k hk h23 => by rw [BitVec.getLsbD_and,hmask k hk h23,Bool.and_true]
      rw [regular_getLsbD p b (by omega),regular_getLsbD _ b (by omega)]
      congr 1
      split
      · rw [hbit _ (by omega) (by omega)]
      · split
        · rfl
        · rw [hbit _ (by omega) (by omega)]
    · rw [decide_eq_false h11,Bool.and_false,Bool.and_false]
  have := htable (p.toNat/2^23) (by omega)
  rw [← htop,hexp] at this
  rw [hword]
  exact this h

theorem fracField_getLsbD (p : BitVec 32) {n : ℕ} (hn : n < 23) :
    (fracField p).getLsbD n = p.getLsbD n := by
  have hmask : ∀ n < 23, (0x007FFFFF#32).getLsbD n = true := by decide
  rw [fracField,BitVec.getLsbD_and,hmask n hn,Bool.and_true]

theorem expField_getLsbD {p : BitVec 32} (h : expField p = 0) {n : ℕ} (h23 : 23 ≤ n)
    (hn : n < 31) : p.getLsbD n = false := by
  have hmask : ∀ n < 8, (0xFF#32).getLsbD n = true := by decide
  have hbit := congrArg (BitVec.getLsbD · (n - 23)) (show expField p = 0#32 from h)
  simp only [expField,BitVec.getLsbD_and,hmask (n - 23) (by omega),Bool.and_true,
    BitVec.getLsbD_ushiftRight,BitVec.getLsbD_zero] at hbit
  rwa [show 23 + (n - 23) = n by omega] at hbit

theorem f32ToBits_direct {x : BitVec 64} (h : 896 < expWord x ∨ x &&& 0x7FFFFFFFFFFFFFFF#64 = 0) :
    f32ToBits x = direct x := if_pos h

theorem f32ToBits_regular {p : BitVec 32} (h : ¬(expField p = 0 ∧ fracField p ≠ 0)) :
    f32ToBits (regular p (highBit (expField p))) = p := by
  refine (f32ToBits_direct ?_).trans (direct_regular p _)
  by_cases he : expField p = 0
  · have hf : fracField p = 0 := by_contra fun hf => h ⟨he,hf⟩
    have hbit : ∀ n < 31, p.getLsbD n = false := fun n hn => by
      by_cases h23 : n < 23
      · rw [← fracField_getLsbD p h23,hf]
        exact BitVec.getLsbD_zero
      · exact expField_getLsbD he (by omega) hn
    right
    refine BitVec.eq_of_getLsbD_eq fun n hn => ?_
    have hmask : ∀ n < 64, (0x7FFFFFFFFFFFFFFF#64).getLsbD n = decide (n < 63) := by decide
    rw [he,BitVec.getLsbD_and,regular_getLsbD _ _ hn,hmask n hn,
      show highBit 0 = false from rfl,show (0 : BitVec 64) = 0#64 from rfl,BitVec.getLsbD_zero]
    by_cases h63 : n = 63
    · rw [decide_eq_false (p := n < 63) (by omega),Bool.and_false]
    · rw [decide_eq_true (p := n < 63) (by omega),Bool.and_true]
      split
      · exact hbit _ (by omega)
      · split
        · rfl
        · rw [hbit _ (by omega),Bool.and_false]
  · exact .inl (expWord_regular he)

theorem subnormal_getLsbD (p : BitVec 32) (k : ℕ) {n : ℕ} (hn : n < 64) :
    (subnormal p k).getLsbD n = if n = 63 then p.getLsbD 31
      else if 52 ≤ n then (BitVec.ofNat 64 (897 - k)).getLsbD (n - 52)
      else decide (29 ≤ n) && ((fracField p).zeroExtend 64 <<< k).getLsbD (n - 29) := by
  have hsign : ∀ n < 64, (0x80000000#64).getLsbD n = decide (n = 31) := by decide
  have hlow : ∀ n < 64, (0x007FFFFF#64).getLsbD n = decide (n < 23) := by decide
  have hexp : ∀ n, 10 ≤ n → (BitVec.ofNat 64 (897 - k)).getLsbD n = false := fun n hn => by
    have hpow : 2^10 ≤ 2^n := Nat.pow_le_pow_right (by decide) hn
    rw [BitVec.getLsbD_ofNat,Nat.testBit_lt_two_pow (by omega),Bool.and_false]
  rw [subnormal,BitVec.getLsbD_or,BitVec.getLsbD_or,BitVec.getLsbD_shiftLeft,
    BitVec.getLsbD_shiftLeft,BitVec.getLsbD_shiftLeft,BitVec.getLsbD_and,BitVec.getLsbD_and,
    hsign _ (by omega),hlow _ (by omega)]
  by_cases h63 : n = 63
  · have h11 : (BitVec.ofNat 64 (897 - k))[11] = false := hexp 11 (by decide)
    subst h63
    simp [h11]
  · rw [if_neg h63,decide_eq_false (p := n - 32 = 31) (by omega)]
    by_cases h52 : 52 ≤ n
    · have h1 : ¬n < 52 := by omega
      have h2 : ¬n - 29 < 23 := by omega
      simp [h52,h1,h2,hn]
    · by_cases h29 : 29 ≤ n
      · have h1 : n < 52 := by omega
        have h2 : n - 29 < 23 := by omega
        have h3 : ¬n < 29 := by omega
        simp [h52,h1,h2,h3,h29,hn]
      · have h1 : n < 52 := by omega
        have h3 : n < 29 := by omega
        simp [h52,h1,h3,h29]

theorem expWord_subnormal (p : BitVec 32) (k : ℕ) :
    expWord (subnormal p k) = BitVec.ofNat 32 (897 - k) := by
  refine BitVec.eq_of_getLsbD_eq fun n hn => ?_
  rw [expWord_getLsbD,BitVec.getLsbD_ofNat,decide_eq_true hn,Bool.true_and]
  by_cases h11 : n < 11
  · rw [subnormal_getLsbD p k (by omega),if_neg (by omega),if_pos (by omega),decide_eq_true h11,
      Bool.and_true,BitVec.getLsbD_ofNat,Nat.add_sub_cancel,decide_eq_true (by omega),Bool.true_and]
  · have hpow : 2^11 ≤ 2^n := Nat.pow_le_pow_right (by decide) (by omega)
    rw [decide_eq_false h11,Bool.and_false,Nat.testBit_lt_two_pow (by omega)]

/-- A pattern with an exponent is not a zero. -/
theorem magnitude_ne_zero {q : BitVec 64} (h : expWord q ≠ 0#32) :
    ¬(q &&& 0x7FFFFFFFFFFFFFFF#64 = 0#64) := fun hq => by
  have hmask : ∀ n < 63, (0x7FFFFFFFFFFFFFFF#64).getLsbD n = true := by decide
  refine h (BitVec.eq_of_getLsbD_eq fun n hn => ?_)
  rw [expWord_getLsbD,BitVec.getLsbD_zero]
  by_cases h11 : n < 11
  · have hbit := congrArg (BitVec.getLsbD · (n + 52)) hq
    simp only [BitVec.getLsbD_and,hmask (n + 52) (by omega),Bool.and_true,
      BitVec.getLsbD_zero] at hbit
    rw [hbit,Bool.false_and]
  · rw [decide_eq_false h11,Bool.and_false]

theorem f32ToBits_shifted {q : BitVec 64} {k : ℕ} (hk : k ≤ 23)
    (hexp : (expWord q).toNat = 897 - k) (hpos : 0 < k) : f32ToBits q =
      (((0x80000000#64 ||| ((q &&& 0x000FFFFFFFFFFFFF#64) >>> 21)).truncate 32 : BitVec 32) >>>
        (8 + k)) ||| ((q >>> 32) &&& 0x80000000#64).truncate 32 := by
  have hsmall : ¬(896 < expWord q) := fun h => by
    have h' : 896 < (expWord q).toNat := h
    omega
  have hbig : 874 ≤ expWord q := by
    show 874 ≤ (expWord q).toNat
    omega
  have hzero := magnitude_ne_zero (q := q) fun h => by
    rw [h] at hexp
    have : 0 = 897 - k := hexp
    omega
  have hshift : (905 - expWord q).toNat = 8 + k := by
    rw [BitVec.toNat_sub,hexp,show (905 : BitVec 32).toNat = 905 from rfl]
    omega
  rw [← hshift]
  exact (if_neg fun h => h.elim hsmall hzero).trans (if_pos hbig)

theorem f32ToBits_subnormal {p : BitVec 32} (he : expField p = 0) (hf : fracField p ≠ 0) :
    f32ToBits (subnormal p ((fracField p).clz.toNat - 8)) = p := by
  obtain ⟨h9,h31,hlow,hhigh⟩ := fracField_clz hf
  obtain ⟨k,hk⟩ : ∃ k, k = (fracField p).clz.toNat - 8 := ⟨_,rfl⟩
  rw [← hk]
  have hexp : (expWord (subnormal p k)).toNat = 897 - k := by
    rw [expWord_subnormal,BitVec.toNat_ofNat]
    omega
  have hsign : ∀ n < 64, (0x80000000#64).getLsbD n = decide (n = 31) := by decide
  have hfrac : ∀ n < 64, (0x000FFFFFFFFFFFFF#64).getLsbD n = decide (n < 52) := by decide
  have hup : ∀ n, n + k < 64 → ((fracField p).zeroExtend 64 <<< k).getLsbD (n + k) =
      (fracField p).getLsbD n := fun n hn => by
    rw [BitVec.getLsbD_shiftLeft,decide_eq_true hn,decide_eq_false (by omega),Nat.add_sub_cancel,
      BitVec.getLsbD_setWidth,decide_eq_true (by omega)]
    simp
  rw [f32ToBits_shifted (by omega) hexp (by omega)]
  refine BitVec.eq_of_getLsbD_eq fun n hn => ?_
  rw [BitVec.getLsbD_or,BitVec.getLsbD_ushiftRight,BitVec.truncate,
    BitVec.getLsbD_setWidth,BitVec.getLsbD_setWidth,BitVec.getLsbD_or,BitVec.getLsbD_and,
    BitVec.getLsbD_ushiftRight,BitVec.getLsbD_ushiftRight,BitVec.getLsbD_and,decide_eq_true hn,
    Bool.true_and,hsign n (by omega)]
  by_cases hn31 : n = 31
  · rw [decide_eq_false (p := 8 + k + n < 32) (by omega),Bool.false_and,Bool.false_or,
      decide_eq_true hn31,Bool.and_true,subnormal_getLsbD p k (by omega),if_pos (by omega),hn31]
  rw [decide_eq_false hn31,Bool.and_false,Bool.or_false]
  -- The top bit of the fraction has gone to bit 31, and comes back to where it was.
  rcases Nat.lt_trichotomy n (23 - k) with hlt | heq | hgt
  · rw [decide_eq_true (p := 8 + k + n < 32) (by omega),hsign _ (by omega),
      decide_eq_false (by omega),hfrac _ (by omega),decide_eq_true (by omega),
      subnormal_getLsbD p k (by omega),if_neg (by omega),if_neg (by omega),
      decide_eq_true (by omega),Bool.true_and,Bool.false_or,Bool.and_true,Bool.true_and,
      show 21 + (8 + k + n) - 29 = n + k by omega,hup n (by omega),fracField_getLsbD p (by omega)]
  · have hbit := BitVec.getLsbD_true_clz_of_ne_zero (x := fracField p) (by decide) hf
    rw [show 32 - 1 - (fracField p).clz.toNat = n by omega,
      fracField_getLsbD p (by omega)] at hbit
    rw [decide_eq_true (p := 8 + k + n < 32) (by omega),hsign _ (by omega),
      decide_eq_true (by omega),hbit]
    rfl
  · rw [decide_eq_false (p := 8 + k + n < 32) (by omega),Bool.false_and]
    by_cases h23 : n < 23
    · have hpow : 2^(32 - (fracField p).clz.toNat) ≤ 2^n :=
        Nat.pow_le_pow_right (by decide) (by omega)
      rw [← fracField_getLsbD p h23,BitVec.getLsbD,Nat.testBit_lt_two_pow (by omega)]
    · rw [expField_getLsbD he (by omega) (by omega)]

/-- Every single-precision pattern comes back from double precision, the three conversions agree,
and the loop comes to its end. -/
theorem single_conversion_exact (p : BitVec 32) :
    f32ToBits (f32FromBits p) = p ∧ extendF32Bits p = f32FromBits p ∧
      extendPSQFloat p = f32FromBits p ∧
      (expField p = 0 ∧ fracField p ≠ 0 → NormalizeRuns ((fracField p).zeroExtend 64,1023 - 126)
        (normalizeLoop 23 ((fracField p).zeroExtend 64) (1023 - 126))) := by
  refine ⟨?_,?_,?_,fun h => (normalizeLoop_frac h.2).2⟩
  · rw [f32FromBits_eq,toDouble]
    split
    next h => exact f32ToBits_subnormal h.1 h.2
    next h => exact f32ToBits_regular h
  · rw [extendF32Bits_eq,f32FromBits_eq]
  · rw [extendPSQFloat_eq,f32FromBits_eq]

end SingleConversion

end DolRecomp
