import DolRecomp.DoubleFields
import DolRecomp.FpHelpers
import DolRecomp.SignificantBits

/-!
# The precision of a multiplier

The runtime rounds the second factor of a single multiplication on its pattern. The LLVM backend
does the same for the two lanes of a pair, with a branch for denormals and a choice for NaNs.
-/

namespace DolRecomp

namespace MultiplierPrecision

open DoubleFields SignificantBits

/-- The loop of `leading_zeroes_u64`, for so many rounds at most. -/
def leadingZeroesLoop : ℕ → BitVec 64 → Option ℕ
  | 0, _ => none
  | fuel + 1, value =>
    if value &&& 0x8000000000000000#64 = 0 then
      (leadingZeroesLoop fuel (value <<< 1)).map (· + 1)
    else some 0

/-- The loop leaves the count that its closed form says. -/
theorem leading_zeroes_loop (fuel : ℕ) (value : BitVec 64) (hne : value ≠ 0#64)
    (hfuel : Fpscr.leadingZeroesU64 value < fuel) :
    leadingZeroesLoop fuel value = some (Fpscr.leadingZeroesU64 value) := by
  induction fuel generalizing value with
  | zero => exact absurd hfuel (Nat.not_lt_zero _)
  | succ fuel ih =>
    have hnat : value.toNat ≠ 0 := fun h => hne (BitVec.eq_of_toNat_eq h)
    have hlog : value.toNat.log2 < 64 := (Nat.log2_lt hnat).mpr value.isLt
    rw [leadingZeroesLoop]
    split
    · next hclear =>
      have hsign : value.toNat < 2^63 := by
        have := and_sign_eq_zero.mp hclear
        rw [signOf] at this
        omega
      have hlow : value.toNat.log2 < 63 := (Nat.log2_lt hnat).mpr hsign
      have hshift : (value <<< 1).toNat = value.toNat*2^1 := by
        rw [BitVec.toNat_shiftLeft,Nat.shiftLeft_eq]
        exact Nat.mod_eq_of_lt (by omega)
      have hcount : Fpscr.leadingZeroesU64 value =
          Fpscr.leadingZeroesU64 (value <<< 1) + 1 := by
        rw [Fpscr.leadingZeroesU64,Fpscr.leadingZeroesU64,hshift,log2_mul_two_pow hnat]
        omega
      have hshifted : value <<< 1 ≠ 0#64 := fun h => by
        have := congrArg BitVec.toNat h
        rw [hshift] at this
        exact hnat (by simpa using this)
      rw [ih (value <<< 1) hshifted (by omega),hcount]
      rfl
    · next hset =>
      have hsign : 2^63 ≤ value.toNat := by
        have := mt and_sign_eq_zero.mpr hset
        rw [signOf] at this
        omega
      have htop : value.toNat.log2 = 63 :=
        (Nat.log2_eq_iff hnat).mpr ⟨hsign,value.isLt⟩
      rw [Fpscr.leadingZeroesU64,htop]

def isSubnormalLane (bits : BitVec 64) : Bool :=
  bits &&& 0x7FF0000000000000#64 = 0 ∧ bits &&& 0x000FFFFFFFFFFFFF#64 ≠ 0

/-- A lane of the block `ps_force25_regular`. -/
def regularRounded (bits : BitVec 64) : BitVec 64 :=
  (bits &&& 0xFFFFFFFFF8000000#64) + (bits &&& 0x0000000008000000#64)

/-- A lane of the block `ps_force25_subnormal`. -/
def rareRounded (bits : BitVec 64) : BitVec 64 :=
  let fraction := bits &&& 0x000FFFFFFFFFFFFF#64
  let leading := fraction.clz
  let shift := leading - 11
  let shortShift : Bool := shift < 28
  let safeShift := if shortShift then shift else 0
  let discard := 27 - safeShift
  let dynamicKeep := ~~~((1#64 <<< discard.toNat) - 1)
  let dynamicRound := 0x0000000008000000#64 >>> safeShift.toNat
  let subnormalKeep := if shortShift then dynamicKeep else BitVec.allOnes 64
  let subnormalRound := if shortShift then dynamicRound else 0
  let keep := if isSubnormalLane bits then subnormalKeep else 0xFFFFFFFFF8000000#64
  let round := if isSubnormalLane bits then subnormalRound else 0x0000000008000000#64
  (bits &&& keep) + (bits &&& round)

def forcePairedMultiplierPrecision (pair : BitVec 64 × BitVec 64) : BitVec 64 × BitVec 64 :=
  let hasSubnormal := isSubnormalLane pair.1 || isSubnormalLane pair.2
  let lane (bits : BitVec 64) : BitVec 64 :=
    let result := if hasSubnormal then rareRounded bits else regularRounded bits
    if bits &&& 0x7FF0000000000000#64 = 0x7FF0000000000000#64 then bits else result
  (lane pair.1,lane pair.2)

/-- Adding the lowest bit that is kept rounds one bit further up. -/
theorem keep_add_round (x : BitVec 64) {j : ℕ} (hj : j < 64) :
    ((x &&& ~~~((1#64 <<< j) - 1#64)) + (x &&& (1#64 <<< j))).toNat =
      roundAt (j + 1) x.toNat % 2^64 := by
  have hpow : 2^j < 2^64 := Nat.pow_lt_pow_right (by decide) hj
  have hone : (1#64 <<< j).toNat = 2^j := by
    rw [BitVec.toNat_shiftLeft,Nat.shiftLeft_eq]
    simp only [BitVec.toNat_ofNat]
    exact (congrArg (· % 2^64) (Nat.one_mul _)).trans (Nat.mod_eq_of_lt hpow)
  have hpos := Nat.two_pow_pos j
  have hsplit : 2^64 = 2^(64 - j)*2^j := by rw [← Nat.pow_add,Nat.sub_add_cancel hj.le]
  have hlow : ((1#64 <<< j) - 1#64).toNat = 2^j - 1 := by
    rw [BitVec.toNat_sub_of_le (by rw [BitVec.le_def,hone]; exact hpos),hone]
    rfl
  have hkeep : (x &&& ~~~((1#64 <<< j) - 1#64)).toNat = x.toNat/2^j*2^j := by
    have hmask : 2^64 - 1 - (2^j - 1) = (2^(64 - j) - 1)*2^j := by
      rw [Nat.sub_mul,← hsplit]
      omega
    have hmod : x.toNat/2^j % 2^(64 - j) = x.toNat/2^j := by
      refine Nat.mod_eq_of_lt ((Nat.div_lt_iff_lt_mul hpos).mpr ?_)
      rw [← hsplit]
      exact x.isLt
    rw [BitVec.toNat_and,BitVec.toNat_not,hlow,hmask,and_field,hmod]
  have hround : (x &&& (1#64 <<< j)).toNat = x.toNat/2^j % 2*2^j := by
    have h := and_field x.toNat 1 j
    rw [BitVec.toNat_and,hone]
    simpa using h
  have hhalf : 2^(j + 1)/2 = 2^j := by rw [Nat.pow_succ,Nat.mul_div_cancel _ (by decide)]
  have hquot : (x.toNat + 2^j)/2^(j + 1) = (x.toNat/2^j + 1)/2 := by
    rw [Nat.pow_succ,← Nat.div_div_eq_div_mul,Nat.add_div_right _ hpos]
  have hsum : x.toNat/2^j + x.toNat/2^j % 2 = (x.toNat/2^j + 1)/2*2 := by omega
  rw [BitVec.toNat_add,hkeep,hround,← Nat.add_mul,roundAt,hhalf,hquot,hsum,Nat.mul_assoc,
    ← Nat.pow_succ']

/-- The bits that are dropped below the 25 of the result. -/
def dropped (x : BitVec 64) : ℕ :=
  if expOf x = 0 ∧ fracOf x ≠ 0 then (fracOf x).log2 + 1 - 25 else 28

section
variable {x : BitVec 64}

theorem subnormal_iff : (x &&& 0x7FF0000000000000#64 = 0 ∧ x &&& 0x000FFFFFFFFFFFFF#64 ≠ 0) ↔
    expOf x = 0 ∧ fracOf x ≠ 0 :=
  and_congr and_exp_eq_zero (not_congr and_frac_eq_zero)

theorem log2_frac (h : fracOf x ≠ 0) : (fracOf x).log2 < 52 :=
  (Nat.log2_lt h).mpr (fracOf_lt x)

theorem round_shift {s : ℕ} (h : s < 28) :
    0x0000000008000000#64 >>> s = 1#64 <<< (27 - s) := by
  interval_cases s <;> rfl

theorem regular_toNat (x : BitVec 64) : (regularRounded x).toNat = roundAt 28 x.toNat % 2^64 :=
  keep_add_round x (j := 27) (by decide)

theorem force25Bit_of_not (h : ¬(expOf x = 0 ∧ fracOf x ≠ 0)) :
    Fpscr.force25Bit x = regularRounded x := by
  rw [Fpscr.force25Bit]
  simp only [if_neg (mt subnormal_iff.mp h)]
  rfl

theorem force25Bit_toNat (x : BitVec 64) :
    (Fpscr.force25Bit x).toNat = roundAt (dropped x) x.toNat % 2^64 := by
  by_cases h : expOf x = 0 ∧ fracOf x ≠ 0
  · have hlog := log2_frac h.2
    have hshift : Fpscr.leadingZeroesU64 (x &&& 0x000FFFFFFFFFFFFF#64) - 11 =
        52 - (fracOf x).log2 := by
      rw [Fpscr.leadingZeroesU64,toNat_and_frac]
      omega
    rw [Fpscr.force25Bit,dropped,if_pos h]
    simp only [if_pos (subnormal_iff.mpr h),hshift]
    by_cases hshort : 52 - (fracOf x).log2 < 28
    · simp only [if_pos hshort]
      have hkept : (fracOf x).log2 + 1 - 25 = 27 - (52 - (fracOf x).log2) + 1 := by omega
      rw [round_shift hshort,hkept]
      exact keep_add_round x (by omega)
    · simp only [if_neg hshort]
      have hzero : (fracOf x).log2 + 1 - 25 = 0 := by omega
      rw [hzero,roundAt_zero,BitVec.and_allOnes,show x &&& 0 = 0#64 from BitVec.and_zero,
        BitVec.add_zero,Nat.mod_eq_of_lt x.isLt]
  · rw [force25Bit_of_not h,dropped,if_neg h,regular_toNat]

/-- The magnitude of a double in units of its smallest denormal; with a fraction that has carried
it goes on in the next exponent, up to infinity. -/
def magnitude (x : BitVec 64) : ℕ :=
  if expOf x = 0 then fracOf x else (2^52 + fracOf x)*2^(expOf x - 1)

theorem magnitude_of_toNat {s e r : ℕ} (h : x.toNat = s*2^63 + e*2^52 + r) (he : e < 2047)
    (hr : r ≤ 2^52) : magnitude x = if e = 0 then r else (2^52 + r)*2^(e - 1) := by
  rcases Nat.lt_or_ge r (2^52) with hlt | hge
  · obtain ⟨-,hexp,hfrac⟩ := fields_of_toNat h (by omega) hlt
    rw [magnitude,hexp,hfrac]
  · have hr52 : r = 2^52 := by omega
    have hcarry : x.toNat = s*2^63 + (e + 1)*2^52 + 0 := by
      rw [h,hr52,Nat.succ_mul,Nat.add_zero,Nat.add_assoc]
    obtain ⟨-,hexp,hfrac⟩ := fields_of_toNat hcarry (by omega) (by omega)
    have hcarried : magnitude x = 2^52*2^e := by
      rw [magnitude,hexp,hfrac,if_neg (Nat.succ_ne_zero e),Nat.add_zero,Nat.add_sub_cancel]
    by_cases he0 : e = 0
    · rw [hcarried,if_pos he0,he0,hr52,Nat.pow_zero,Nat.mul_one]
    · have hpow : 2^e = 2*2^(e - 1) := by rw [← Nat.pow_add_one',Nat.sub_add_cancel (by omega)]
      rw [hcarried,if_neg he0,hr52,hpow,← Nat.two_mul,Nat.mul_left_comm,Nat.mul_assoc]

theorem dropped_le (x : BitVec 64) : dropped x ≤ 28 := by
  rw [dropped]
  split
  · next h =>
    have := log2_frac h.2
    omega
  · exact le_rfl

theorem roundAt_pattern (x : BitVec 64) : roundAt (dropped x) x.toNat =
    signOf x*2^63 + expOf x*2^52 + roundAt (dropped x) (fracOf x) := by
  have hle := dropped_le x
  have hdvd : 2^dropped x ∣ signOf x*2^63 + expOf x*2^52 :=
    Nat.dvd_add (Dvd.dvd.mul_left (Nat.pow_dvd_pow 2 (by omega)) _)
      (Dvd.dvd.mul_left (Nat.pow_dvd_pow 2 (by omega)) _)
  rw [← roundAt_add hdvd,← toNat_eq]

theorem force25Bit_finite (h : expOf x < 2047) :
    signOf (Fpscr.force25Bit x) = signOf x ∧
      magnitude (Fpscr.force25Bit x) = roundTo 25 (magnitude x) := by
  have hsign := signOf_lt x
  have hfrac := fracOf_lt x
  have hr : roundAt (dropped x) (fracOf x) ≤ 2^52 :=
    roundAt_le ((dropped_le x).trans (by decide)) hfrac.le
  have hnat : (Fpscr.force25Bit x).toNat =
      signOf x*2^63 + expOf x*2^52 + roundAt (dropped x) (fracOf x) := by
    rw [force25Bit_toNat,roundAt_pattern]
    exact Nat.mod_eq_of_lt (by omega)
  refine ⟨?_,?_⟩
  · rw [signOf,hnat]
    omega
  rw [magnitude_of_toNat hnat h hr,magnitude]
  by_cases he : expOf x = 0
  · rw [if_pos he,if_pos he,dropped]
    by_cases hf : fracOf x = 0
    · rw [if_neg fun hs => hs.2 hf,hf]
      rfl
    · rw [if_pos ⟨he,hf⟩]
      rfl
  · have hlog : (2^52 + fracOf x).log2 = 52 :=
      (Nat.log2_eq_iff (by omega)).mpr ⟨by omega,by omega⟩
    have hdvd : 2^28 ∣ 2^52 := Nat.pow_dvd_pow 2 (by decide)
    rw [if_neg he,if_neg he,dropped,if_neg fun hs => he hs.1,
      roundTo_mul (by omega) (by omega),roundTo,hlog,← roundAt_add hdvd]

/-- A pattern whose low 28 bits are clear stays as it is. -/
theorem force25Bit_of_dvd (hexp : expOf x ≠ 0) (h : 2^28 ∣ x.toNat) : Fpscr.force25Bit x = x := by
  refine BitVec.eq_of_toNat_eq ?_
  rw [force25Bit_toNat,dropped,if_neg fun hs => hexp hs.1,roundAt_of_dvd h]
  exact Nat.mod_eq_of_lt x.isLt

theorem dvd_force25Bit (hexp : expOf x ≠ 0) : 2^28 ∣ (Fpscr.force25Bit x).toNat := by
  rw [force25Bit_toNat,dropped,if_neg fun hs => hexp hs.1]
  exact (Nat.dvd_mod_iff (Nat.pow_dvd_pow 2 (by decide))).mpr (dvd_roundAt 28 x.toNat)

theorem isSubnormalLane_iff : isSubnormalLane x = true ↔ expOf x = 0 ∧ fracOf x ≠ 0 := by
  rw [isSubnormalLane,decide_eq_true_iff]
  exact subnormal_iff

theorem clz_frac (h : fracOf x ≠ 0) :
    (x &&& 0x000FFFFFFFFFFFFF#64).clz.toNat = 63 - (fracOf x).log2 := by
  have hne : x &&& 0x000FFFFFFFFFFFFF#64 ≠ 0#64 := mt and_frac_eq_zero.mp h
  have hlt : (x &&& 0x000FFFFFFFFFFFFF#64).clz.toNat < 64 := BitVec.clz_lt_iff_ne_zero.mpr hne
  have hlow := BitVec.two_pow_sub_clz_le_toNat_of_ne_zero (w := 64) (by decide) hne
  have hhigh := BitVec.toNat_lt_two_pow_sub_clz (x := x &&& 0x000FFFFFFFFFFFFF#64)
  rw [toNat_and_frac] at hlow hhigh
  have hlog : (fracOf x).log2 = 63 - (x &&& 0x000FFFFFFFFFFFFF#64).clz.toNat := by
    refine (Nat.log2_eq_iff h).mpr ⟨hlow,?_⟩
    rwa [show 63 - (x &&& 0x000FFFFFFFFFFFFF#64).clz.toNat + 1 =
      64 - (x &&& 0x000FFFFFFFFFFFFF#64).clz.toNat by omega]
  omega

theorem rareRounded_eq (x : BitVec 64) : rareRounded x = Fpscr.force25Bit x := by
  by_cases h : expOf x = 0 ∧ fracOf x ≠ 0
  · have hlane := isSubnormalLane_iff.mpr h
    have hlog := log2_frac h.2
    have hclz := clz_frac h.2
    have hlead : Fpscr.leadingZeroesU64 (x &&& 0x000FFFFFFFFFFFFF#64) - 11 =
        52 - (fracOf x).log2 := by
      rw [Fpscr.leadingZeroesU64,toNat_and_frac]
      omega
    have hshift : ((x &&& 0x000FFFFFFFFFFFFF#64).clz - 11).toNat = 52 - (fracOf x).log2 := by
      rw [BitVec.toNat_sub_of_le (by rw [BitVec.le_def,hclz]; show 11 ≤ _; omega),hclz]
      show _ - 11 = _
      omega
    have hcond : (x &&& 0x000FFFFFFFFFFFFF#64).clz - 11 < 28 ↔ 52 - (fracOf x).log2 < 28 := by
      rw [BitVec.lt_def,hshift]
      exact Iff.rfl
    rw [rareRounded,Fpscr.force25Bit]
    simp only [hlane,if_true,if_pos (subnormal_iff.mpr h),hlead,decide_eq_true_iff,hcond]
    by_cases hshort : 52 - (fracOf x).log2 < 28
    · have hdiscard : (27 - ((x &&& 0x000FFFFFFFFFFFFF#64).clz - 11)).toNat =
          27 - (52 - (fracOf x).log2) := by
        rw [BitVec.toNat_sub_of_le (by rw [BitVec.le_def,hshift]; show _ ≤ 27; omega),hshift]
        rfl
      simp only [if_pos hshort,hshift,hdiscard]
    · simp only [if_neg hshort]
  · have hlane : isSubnormalLane x = false := Bool.eq_false_iff.mpr (mt isSubnormalLane_iff.mp h)
    rw [rareRounded,force25Bit_of_not h]
    simp only [hlane,Bool.false_eq_true,if_false]
    rfl

/-- A lane of the backend is the rounding of the runtime, or a special value as it stands. -/
def lane (bits : BitVec 64) : BitVec 64 :=
  if expOf bits = 2047 then bits else Fpscr.force25Bit bits

theorem lane_of_flag (flag : Bool) (hflag : isSubnormalLane x = true → flag = true) :
    (if x &&& 0x7FF0000000000000#64 = 0x7FF0000000000000#64 then x
      else if flag then rareRounded x else regularRounded x) = lane x := by
  have hround : (if flag then rareRounded x else regularRounded x) = Fpscr.force25Bit x := by
    cases flag with
    | true => exact rareRounded_eq x
    | false =>
      have hregular := fun h => Bool.false_ne_true (hflag (isSubnormalLane_iff.mpr h))
      exact (force25Bit_of_not hregular).symm
  rw [hround,lane]
  exact if_congr and_exp_eq_top rfl rfl

theorem paired_lanes (pair : BitVec 64 × BitVec 64) :
    forcePairedMultiplierPrecision pair = (lane pair.1,lane pair.2) := by
  have hfirst := lane_of_flag (x := pair.1) (isSubnormalLane pair.1 || isSubnormalLane pair.2)
    fun h => by rw [h,Bool.true_or]
  have hsecond := lane_of_flag (x := pair.2) (isSubnormalLane pair.1 || isSubnormalLane pair.2)
    fun h => by rw [h,Bool.or_true]
  rw [← hfirst,← hsecond]
  rfl

theorem isNan_iff : Fpscr.isNan x = true ↔ expOf x = 2047 ∧ fracOf x ≠ 0 := by
  rw [Fpscr.isNan,decide_eq_true_iff]
  exact and_congr and_exp_eq_top (not_congr and_frac_eq_zero)

theorem isInf_iff : Fpscr.isInf x = true ↔ expOf x = 2047 ∧ fracOf x = 0 := by
  rw [Fpscr.isInf,decide_eq_true_iff]
  exact and_congr and_exp_eq_top and_frac_eq_zero

theorem low_bits_clear : x &&& 0x000000000FFFFFFF#64 = 0#64 ↔ 2^28 ∣ x.toNat := by
  have hmask : (x &&& 0x000000000FFFFFFF#64).toNat = x.toNat % 2^28 := by
    have h := and_field x.toNat 28 0
    rw [BitVec.toNat_and]
    simpa using h
  rw [Nat.dvd_iff_mod_eq_zero,← hmask]
  exact BitVec.toNat_eq.trans Iff.rfl

/-- What is asked of the rounding of one pattern. -/
structure Rounded (x : BitVec 64) : Prop where
  finite : expOf x < 2047 → signOf (Fpscr.force25Bit x) = signOf x ∧
    magnitude (Fpscr.force25Bit x) = roundTo 25 (magnitude x)
  infinity : Fpscr.isInf x = true → Fpscr.force25Bit x = x
  nan : Fpscr.isNan x = true → Fpscr.isNan (Fpscr.force25Bit x) = true
  first : ∀ other, (forcePairedMultiplierPrecision (x,other)).1 = Fpscr.force25Bit x
  second : ∀ other, (forcePairedMultiplierPrecision (other,x)).2 = Fpscr.force25Bit x

theorem infinity_fixed (h : Fpscr.isInf x = true) : Fpscr.force25Bit x = x := by
  obtain ⟨hexp,hfrac⟩ := isInf_iff.mp h
  refine force25Bit_of_dvd (by omega) ?_
  rw [toNat_eq,hexp,hfrac]
  omega

theorem special_fixed (hexp : expOf x = 2047)
    (h : Fpscr.isNan x = false ∨ x &&& 0x000000000FFFFFFF#64 = 0#64) :
    Fpscr.force25Bit x = x := by
  rcases h with hnan | hlow
  · refine infinity_fixed (isInf_iff.mpr ⟨hexp,?_⟩)
    by_contra hfrac
    exact Bool.false_ne_true (hnan.symm.trans (isNan_iff.mpr ⟨hexp,hfrac⟩))
  · exact force25Bit_of_dvd (by omega) (low_bits_clear.mp hlow)

theorem lane_eq (h : Fpscr.isNan x = false ∨ x &&& 0x000000000FFFFFFF#64 = 0#64) :
    lane x = Fpscr.force25Bit x := by
  rw [lane]
  split
  · next hexp => exact (special_fixed hexp h).symm
  · rfl

end

/-- The rounding of a multiplier does what is asked of it and agrees with both lanes of the
backend, except for a NaN with a bit set below the 25 that are kept. -/
theorem force_25_bit_rounds_iff (x : BitVec 64) :
    Rounded x ↔ Fpscr.isNan x = false ∨ x &&& 0x000000000FFFFFFF#64 = 0#64 := by
  constructor
  · intro h
    by_cases hnan : Fpscr.isNan x = true
    · have hexp := (isNan_iff.mp hnan).1
      have hlane : lane x = Fpscr.force25Bit x := by
        rw [← h.first x,paired_lanes]
      rw [lane,if_pos hexp] at hlane
      right
      rw [low_bits_clear,hlane]
      exact dvd_force25Bit (by omega)
    · exact Or.inl (Bool.eq_false_iff.mpr hnan)
  · intro h
    refine ⟨force25Bit_finite,infinity_fixed,?_,?_,?_⟩
    · intro hnan
      rw [special_fixed (isNan_iff.mp hnan).1 h]
      exact hnan
    · intro other
      rw [paired_lanes]
      exact lane_eq h
    · intro other
      rw [paired_lanes]
      exact lane_eq h

/-- The signalling NaN with the smallest payload becomes an infinity. -/
theorem force_25_bit_loses_nan : ¬ Rounded 0x7FF0000000000001#64 := by
  intro h
  have hnan := h.nan (by decide)
  have hrounded : Fpscr.force25Bit 0x7FF0000000000001#64 = 0x7FF0000000000000#64 := by
    decide
  rw [hrounded] at hnan
  exact absurd hnan (by decide)

end MultiplierPrecision

end DolRecomp
