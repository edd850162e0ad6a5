import Mathlib.Algebra.Order.Ring.Int
import Mathlib.Data.List.GetD
import DolRecomp.DoubleFields

/-!
# The estimates of the reciprocal and of its square root

Both interpolate in a table of 32 entries, and build a double from the mantissa they find and an
exponent of their own.
-/

namespace DolRecomp

namespace Estimates

open DoubleFields

structure EstimateEntry where
  base : ℤ
  dec : ℤ
  deriving DecidableEq, Inhabited

def frsqrteTable : List EstimateEntry := [
  ⟨0x1a7e800,-0x568⟩,⟨0x17cb800,-0x4f3⟩,⟨0x1552800,-0x48d⟩,⟨0x130c000,-0x435⟩,
  ⟨0x10f2000,-0x3e7⟩,⟨0x0eff000,-0x3a2⟩,⟨0x0d2e000,-0x365⟩,⟨0x0b7c000,-0x32e⟩,
  ⟨0x09e5000,-0x2fc⟩,⟨0x0867000,-0x2d0⟩,⟨0x06ff000,-0x2a8⟩,⟨0x05ab800,-0x283⟩,
  ⟨0x046a000,-0x261⟩,⟨0x0339800,-0x243⟩,⟨0x0218800,-0x226⟩,⟨0x0105800,-0x20b⟩,
  ⟨0x3ffa000,-0x7a4⟩,⟨0x3c29000,-0x700⟩,⟨0x38aa000,-0x670⟩,⟨0x3572000,-0x5f2⟩,
  ⟨0x3279000,-0x584⟩,⟨0x2fb7000,-0x524⟩,⟨0x2d26000,-0x4cc⟩,⟨0x2ac0000,-0x47e⟩,
  ⟨0x2881000,-0x43a⟩,⟨0x2665000,-0x3fa⟩,⟨0x2468000,-0x3c2⟩,⟨0x2287000,-0x38e⟩,
  ⟨0x20c1000,-0x35e⟩,⟨0x1f12000,-0x332⟩,⟨0x1d79000,-0x30a⟩,⟨0x1bf4000,-0x2e6⟩]

def fresTable : List EstimateEntry := [
  ⟨0x7ff800,0x3e1⟩,⟨0x783800,0x3a7⟩,⟨0x70ea00,0x371⟩,⟨0x6a0800,0x340⟩,
  ⟨0x638800,0x313⟩,⟨0x5d6200,0x2ea⟩,⟨0x579000,0x2c4⟩,⟨0x520800,0x2a0⟩,
  ⟨0x4cc800,0x27f⟩,⟨0x47ca00,0x261⟩,⟨0x430800,0x245⟩,⟨0x3e8000,0x22a⟩,
  ⟨0x3a2c00,0x212⟩,⟨0x360800,0x1fb⟩,⟨0x321400,0x1e5⟩,⟨0x2e4a00,0x1d1⟩,
  ⟨0x2aa800,0x1be⟩,⟨0x272c00,0x1ac⟩,⟨0x23d600,0x19b⟩,⟨0x209e00,0x18b⟩,
  ⟨0x1d8800,0x17c⟩,⟨0x1a9000,0x16e⟩,⟨0x17ae00,0x15b⟩,⟨0x14f800,0x15b⟩,
  ⟨0x124400,0x143⟩,⟨0x0fbe00,0x143⟩,⟨0x0d3800,0x12d⟩,⟨0x0ade00,0x12d⟩,
  ⟨0x088400,0x11a⟩,⟨0x065000,0x11a⟩,⟨0x041c00,0x108⟩,⟨0x020c00,0x106⟩]

/-- What the table computation puts together. -/
structure TableStep where
  sign : BitVec 64
  exponent : BitVec 64
  index : ℕ
  mantissa : ℤ
  shift : ℕ

def TableStep.bits (t : TableStep) : BitVec 64 :=
  t.sign ||| t.exponent ||| (BitVec.ofInt 64 t.mantissa <<< t.shift)

/-- A value for an argument of a special class, or one from the table. -/
inductive Estimate
  | value (bits : BitVec 64)
  | table (step : TableStep)

def Estimate.bits : Estimate → BitVec 64
  | .value bits => bits
  | .table step => step.bits

def normalizeBody (s : BitVec 64 × BitVec 64) : BitVec 64 × BitVec 64 :=
  (s.1 - 0x0010000000000000#64,s.2 <<< 1)

/-- The loop, for so many rounds at most. -/
def normalizeMantissa : ℕ → BitVec 64 × BitVec 64 → Option (BitVec 64 × BitVec 64)
  | 0, _ => none
  | fuel + 1, s =>
    let s := normalizeBody s
    if s.2 &&& 0x0010000000000000#64 = 0 then normalizeMantissa fuel s else some s

def rsqrtTable (exponent mantissa : BitVec 64) : TableStep :=
  let exponentLsb := exponent &&& 0x0010000000000000#64
  let i : BitVec 32 := ((exponentLsb ||| mantissa) >>> 37).truncate 32
  let entry := frsqrteTable.getD (i.toNat/2048) default
  { sign := 0
    exponent := (0x3FF0000000000000#64 - (exponent - 0x3FE0000000000000#64).sdiv 2#64) &&&
      0x7FF0000000000000#64
    index := i.toNat/2048
    mantissa := entry.base + entry.dec*((i.toNat % 2048 : ℕ) : ℤ)
    shift := 26 }

/-- `ppc_approx_rsqrt`, with a number of rounds for its loop. -/
def ppcApproxRsqrt (fuel : ℕ) (bits : BitVec 64) : Option Estimate :=
  let mantissa := bits &&& 0x000FFFFFFFFFFFFF#64
  let sign := bits &&& 0x8000000000000000#64
  let exponent := bits &&& 0x7FF0000000000000#64
  if mantissa = 0 ∧ exponent = 0 then some (.value (sign ||| 0x7FF0000000000000#64))
  else if exponent = 0x7FF0000000000000#64 then
    if mantissa = 0 then some (.value (if sign ≠ 0 then 0x7FF8000000000000 else 0))
    else some (.value (bits ||| 0x0008000000000000#64))
  else if sign ≠ 0 then some (.value 0x7FF8000000000000)
  else if exponent = 0 then
    (normalizeMantissa fuel (exponent,mantissa)).map fun s =>
      .table (rsqrtTable (s.1 + 0x0010000000000000#64) (s.2 &&& 0x000FFFFFFFFFFFFF#64))
  else some (.table (rsqrtTable exponent mantissa))

def reciprocalTable (sign exponent mantissa : BitVec 64) : TableStep :=
  let i : BitVec 32 := (mantissa >>> 37).truncate 32
  let entry := fresTable.getD (i.toNat/1024) default
  { sign
    exponent := 0x7FD0000000000000#64 - exponent
    index := i.toNat/1024
    mantissa := entry.base - (entry.dec*((i.toNat % 1024 : ℕ) : ℤ) + 1).tdiv 2
    shift := 29 }

def ppcApproxReciprocal (bits : BitVec 64) : Estimate :=
  let mantissa := bits &&& 0x000FFFFFFFFFFFFF#64
  let sign := bits &&& 0x8000000000000000#64
  let exponent := bits &&& 0x7FF0000000000000#64
  if mantissa = 0 ∧ exponent = 0 then .value (sign ||| 0x7FF0000000000000#64)
  else if exponent = 0x7FF0000000000000#64 then
    if mantissa = 0 then .value sign else .value (bits ||| 0x0008000000000000#64)
  else if exponent < 895#64 <<< 52 then .value (sign ||| 0x47EFFFFFE0000000#64)
  else if exponent ≥ 1149#64 <<< 52 then .value sign
  else .table (reciprocalTable sign exponent mantissa)

/-- The mantissa is a fraction, and the exponent one of a normal number. -/
structure TableStep.InRange (t : TableStep) : Prop where
  index : t.index < 32
  nonneg : 0 ≤ t.mantissa
  fits : t.mantissa*2^t.shift < 2^52
  exponent : ∃ e, 0 < e ∧ e < 2047 ∧ t.exponent.toNat = e*2^52
  sign : ∃ s < 2, t.sign.toNat = s*2^63

/-- Nothing carries: the pattern has the three parts as its fields. -/
structure TableStep.Assembles (t : TableStep) : Prop where
  sign : signOf t.bits*2^63 = t.sign.toNat
  exponent : expOf t.bits*2^52 = t.exponent.toNat
  fraction : (fracOf t.bits : ℤ) = t.mantissa*2^t.shift
  normal : 0 < expOf t.bits ∧ expOf t.bits < 2047

theorem getD_mem {table : List EstimateEntry} {n : ℕ} (h : n < table.length) :
    table.getD n default ∈ table := by
  rw [List.getD_eq_getElem _ _ h]
  exact List.getElem_mem h

theorem frsqrteTable_range : ∀ entry ∈ frsqrteTable,
    entry.dec ≤ 0 ∧ 0 ≤ entry.base + entry.dec*2047 ∧ entry.base < 2^26 := by
  decide

theorem fresTable_range : ∀ entry ∈ fresTable,
    0 ≤ entry.dec ∧ (entry.dec*1023 + 1)/2 ≤ entry.base ∧ entry.base < 2^23 := by
  decide

theorem interpolate_down {base dec n : ℤ} (hdec : dec ≤ 0) (hlow : 0 ≤ base + dec*2047)
    (h0 : 0 ≤ n) (hn : n ≤ 2047) : 0 ≤ base + dec*n ∧ base + dec*n ≤ base := by
  have hmono : dec*2047 ≤ dec*n := Int.mul_le_mul_of_nonpos_left hdec hn
  have hneg : dec*n ≤ 0 := Int.mul_nonpos_of_nonpos_of_nonneg hdec h0
  omega

theorem interpolate_half {base dec n : ℤ} (hdec : 0 ≤ dec) (hlow : (dec*1023 + 1)/2 ≤ base)
    (h0 : 0 ≤ n) (hn : n ≤ 1023) :
    0 ≤ base - (dec*n + 1).tdiv 2 ∧ base - (dec*n + 1).tdiv 2 ≤ base := by
  have hmono : dec*n ≤ dec*1023 := Int.mul_le_mul_of_nonneg_left hn hdec
  have hpos : 0 ≤ dec*n := Int.mul_nonneg hdec h0
  rw [Int.tdiv_eq_ediv_of_nonneg (by omega)]
  omega

theorem assembles {t : TableStep} (h : t.InRange) : t.Assembles := by
  obtain ⟨e,he0,he,hexp⟩ := h.exponent
  obtain ⟨s,hs,hsign⟩ := h.sign
  obtain ⟨n,hn⟩ := Int.eq_ofNat_of_zero_le h.nonneg
  have hfits := h.fits
  rw [hn] at hfits
  have hlt : n*2^t.shift < 2^52 := by exact_mod_cast hfits
  have hmant : (BitVec.ofInt 64 t.mantissa <<< t.shift).toNat = n*2^t.shift := by
    have hn64 : n < 2^64 := by
      have := Nat.le_mul_of_pos_right n (Nat.two_pow_pos t.shift)
      omega
    rw [hn,BitVec.toNat_shiftLeft,BitVec.ofInt_natCast,BitVec.toNat_ofNat,Nat.mod_eq_of_lt hn64,
      Nat.shiftLeft_eq]
    exact Nat.mod_eq_of_lt (by omega)
  have hbits : t.bits.toNat = s*2^63 + e*2^52 + n*2^t.shift := by
    have hse : s*2^63 ||| e*2^52 = s*2^63 + e*2^52 := by
      have := Nat.two_pow_add_eq_or_of_lt (i := 63) (b := e*2^52) (by omega) s
      rw [Nat.mul_comm] at this
      exact this.symm
    have hall : (s*2^11 + e)*2^52 ||| n*2^t.shift = (s*2^11 + e)*2^52 + n*2^t.shift := by
      have := Nat.two_pow_add_eq_or_of_lt (i := 52) (b := n*2^t.shift) hlt (s*2^11 + e)
      rw [Nat.mul_comm] at this
      exact this.symm
    have hsum : s*2^63 + e*2^52 = (s*2^11 + e)*2^52 := by omega
    rw [TableStep.bits,BitVec.toNat_or,BitVec.toNat_or,hsign,hexp,hmant,hse,hsum,hall]
  obtain ⟨hso,heo,hfo⟩ := fields_of_toNat hbits (by omega) hlt
  refine ⟨by rw [hso,hsign],by rw [heo,hexp],?_,by omega⟩
  rw [hfo,hn]
  push_cast
  rfl

theorem ofInt_sub (a b : ℤ) : BitVec.ofInt 64 a - BitVec.ofInt 64 b = BitVec.ofInt 64 (a - b) := by
  refine BitVec.eq_of_toInt_eq ?_
  simp

/-- The exponent of the root: half of the argument's, around the bias. -/
theorem rsqrt_exponent {e : ℤ} (hl : -51 ≤ e) (hu : e ≤ 2046) :
    ∃ n, 0 < n ∧ n < 2047 ∧ ((0x3FF0000000000000#64 -
      (BitVec.ofInt 64 (e*2^52) - 0x3FE0000000000000#64).sdiv 2#64) &&&
        0x7FF0000000000000#64).toNat = n*2^52 := by
  have hdiff : BitVec.ofInt 64 (e*2^52) - 0x3FE0000000000000#64 =
      BitVec.ofInt 64 ((e - 1022)*2^51*2) := by
    rw [show (0x3FE0000000000000#64) = BitVec.ofInt 64 (1022*2^52) from rfl,ofInt_sub]
    congr 1
    omega
  have hhalf : (BitVec.ofInt 64 ((e - 1022)*2^51*2)).sdiv 2#64 =
      BitVec.ofInt 64 ((e - 1022)*2^51) := by
    have htwo : (2#64).toInt = 2 := by decide
    refine BitVec.eq_of_toInt_eq ?_
    rw [BitVec.toInt_sdiv_of_ne_or_ne _ _ (Or.inr (by decide)),
      BitVec.toInt_ofInt_eq_self (by decide) (by omega) (by omega),
      BitVec.toInt_ofInt_eq_self (by decide) (by omega) (by omega),htwo,
      Int.mul_tdiv_cancel _ (by decide)]
  have hall : 0x3FF0000000000000#64 - BitVec.ofInt 64 ((e - 1022)*2^51) =
      BitVec.ofInt 64 ((3068 - e)*2^51) := by
    rw [show (0x3FF0000000000000#64) = BitVec.ofInt 64 (2046*2^51) from rfl,ofInt_sub]
    congr 1
    omega
  have hnat : (BitVec.ofInt 64 ((3068 - e)*2^51)).toNat = (3068 - e).toNat*2^51 := by
    rw [BitVec.toNat_ofInt]
    omega
  rw [hdiff,hhalf,hall,toNat_and_exp,expOf,hnat]
  exact ⟨_,by omega,by omega,rfl⟩

theorem ofInt_natCast_mul {n : ℕ} (h : n < 2^11) :
    (BitVec.ofInt 64 ((n : ℤ)*2^52)).toNat = n*2^52 := by
  rw [BitVec.toNat_ofInt]
  omega

theorem and_exp_eq (x : BitVec 64) :
    x &&& 0x7FF0000000000000#64 = BitVec.ofInt 64 ((expOf x : ℤ)*2^52) := by
  refine BitVec.eq_of_toNat_eq ?_
  rw [toNat_and_exp,ofInt_natCast_mul (expOf_lt x)]

theorem rsqrtTable_inRange {e : ℤ} (hl : -51 ≤ e) (hu : e ≤ 2046) {mantissa : BitVec 64}
    (hm : mantissa.toNat < 2^52) : (rsqrtTable (BitVec.ofInt 64 (e*2^52)) mantissa).InRange := by
  rw [rsqrtTable]
  generalize hlsb : BitVec.ofInt 64 (e*2^52) &&& 0x0010000000000000#64 = lsb
  have hlt : (lsb ||| mantissa).toNat < 2^53 := by
    have hbit : lsb.toNat < 2^53 := by
      rw [← hlsb,toNat_and_implicit]
      omega
    rw [BitVec.toNat_or]
    exact Nat.or_lt_two_pow hbit (by omega)
  have hi : (((lsb ||| mantissa) >>> 37).truncate 32).toNat < 2^16 := by
    rw [BitVec.truncate_eq_setWidth,BitVec.toNat_setWidth,BitVec.toNat_ushiftRight,
      Nat.shiftRight_eq_div_pow]
    omega
  generalize ((lsb ||| mantissa) >>> 37).truncate 32 = i at hi
  have hindex : i.toNat/2048 < 32 := by omega
  obtain ⟨hdec,hlow,hbase⟩ := frsqrteTable_range _ (@getD_mem frsqrteTable _ hindex)
  obtain ⟨hnonneg,hle⟩ := interpolate_down (n := ((i.toNat % 2048 : ℕ) : ℤ)) hdec hlow
    (by omega) (by omega)
  obtain ⟨n,h0,hn,hexp⟩ := rsqrt_exponent hl hu
  exact ⟨hindex,hnonneg,by dsimp only; omega,⟨n,h0,hn,hexp⟩,⟨0,by decide,rfl⟩⟩

theorem reciprocalTable_inRange {x : BitVec 64} {e : ℕ} (hexp : expOf x = e) (hl : 895 ≤ e)
    (hu : e < 1149) : (reciprocalTable (x &&& 0x8000000000000000#64) (x &&& 0x7FF0000000000000#64)
      (x &&& 0x000FFFFFFFFFFFFF#64)).InRange := by
  rw [reciprocalTable]
  have hi : (((x &&& 0x000FFFFFFFFFFFFF#64) >>> 37).truncate 32).toNat < 2^15 := by
    have hf := fracOf_lt x
    rw [BitVec.truncate_eq_setWidth,BitVec.toNat_setWidth,BitVec.toNat_ushiftRight,
      Nat.shiftRight_eq_div_pow,toNat_and_frac]
    omega
  generalize ((x &&& 0x000FFFFFFFFFFFFF#64) >>> 37).truncate 32 = i at hi
  have hindex : i.toNat/1024 < 32 := by omega
  obtain ⟨hdec,hlow,hbase⟩ := fresTable_range _ (@getD_mem fresTable _ hindex)
  obtain ⟨hnonneg,hle⟩ := interpolate_half (n := ((i.toNat % 1024 : ℕ) : ℤ)) hdec hlow
    (by omega) (by omega)
  have hexponent : (0x7FD0000000000000#64 - (x &&& 0x7FF0000000000000#64)).toNat =
      (2045 - e)*2^52 := by
    have htop : (0x7FD0000000000000#64).toNat = 2045*2^52 := by decide
    have hle : x &&& 0x7FF0000000000000#64 ≤ 0x7FD0000000000000#64 := by
      rw [BitVec.le_def,toNat_and_exp,hexp,htop]
      omega
    rw [BitVec.toNat_sub_of_le hle,toNat_and_exp,hexp,htop]
    omega
  exact ⟨hindex,hnonneg,by dsimp only; omega,⟨2045 - e,by omega,by omega,hexponent⟩,
    ⟨signOf x,signOf_lt x,toNat_and_sign x⟩⟩

theorem and_implicit_eq_zero {x : BitVec 64} (h : x.toNat < 2^53) :
    x &&& 0x0010000000000000#64 = 0 ↔ x.toNat < 2^52 := by
  have hbit : (x &&& 0x0010000000000000#64).toNat = 0 ↔ x.toNat < 2^52 := by
    rw [toNat_and_implicit]
    omega
  rw [← hbit]
  exact BitVec.toNat_inj.symm

/-- The loop ends when the mantissa has reached bit 52, `k` rounds later. -/
theorem normalizeMantissa_eq (fuel : ℕ) {e : ℤ} {m : BitVec 64} (h0 : 0 < m.toNat)
    (hm : m.toNat < 2^52) (hfuel : 2^52 ≤ m.toNat*2^fuel) :
    ∃ (k : ℕ) (m' : BitVec 64), 0 < k ∧ 2^52 ≤ m'.toNat ∧ m'.toNat < 2^53 ∧ m'.toNat = m.toNat*2^k ∧
      normalizeMantissa fuel (BitVec.ofInt 64 (e*2^52),m) =
        some (BitVec.ofInt 64 ((e - k)*2^52),m') := by
  induction fuel generalizing e m with
  | zero => omega
  | succ fuel ih =>
    have hsub : BitVec.ofInt 64 (e*2^52) - 0x0010000000000000#64 =
        BitVec.ofInt 64 ((e - 1)*2^52) := by
      rw [show (0x0010000000000000#64) = BitVec.ofInt 64 (2^52) from rfl,ofInt_sub]
      congr 1
      omega
    have hshift : (m <<< 1).toNat = m.toNat*2 := by
      rw [BitVec.toNat_shiftLeft,Nat.shiftLeft_eq]
      omega
    have hbody : normalizeBody (BitVec.ofInt 64 (e*2^52),m) =
        (BitVec.ofInt 64 ((e - 1)*2^52),m <<< 1) := by
      rw [normalizeBody,hsub]
    rw [normalizeMantissa,hbody]
    dsimp only
    by_cases hlow : (m <<< 1).toNat < 2^52
    · rw [if_pos ((and_implicit_eq_zero (by omega)).mpr hlow)]
      have hnext : 2^52 ≤ (m <<< 1).toNat*2^fuel := by
        rw [hshift,Nat.mul_assoc,← Nat.pow_succ']
        exact hfuel
      obtain ⟨k,m',hk,hl,hu,heq,hrun⟩ := ih (e := e - 1) (by omega) hlow hnext
      refine ⟨k + 1,m',by omega,hl,hu,?_,?_⟩
      · rw [heq,hshift,Nat.mul_assoc,← Nat.pow_succ']
      · rw [hrun]
        push_cast
        rw [Int.sub_sub,Int.add_comm]
    · rw [if_neg fun h => hlow ((and_implicit_eq_zero (by omega)).mp h)]
      exact ⟨1,m <<< 1,by omega,by omega,by omega,by omega,rfl⟩

theorem rsqrt_denormal {fuel : ℕ} (hfuel : 52 ≤ fuel) {m : BitVec 64} (h0 : 0 < m.toNat)
    (hm : m.toNat < 2^52) : ∃ s, normalizeMantissa fuel (0#64,m) = some s ∧
      (rsqrtTable (s.1 + 0x0010000000000000#64) (s.2 &&& 0x000FFFFFFFFFFFFF#64)).InRange := by
  have hpow : 2^52 ≤ m.toNat*2^fuel :=
    (Nat.pow_le_pow_right (by decide) hfuel).trans (Nat.le_mul_of_pos_left _ h0)
  obtain ⟨k,m',hk,hl,hu,heq,hrun⟩ := normalizeMantissa_eq fuel (e := 0) h0 hm hpow
  have hk52 : k ≤ 52 := by
    by_contra hgt
    have h53 : 2^53 ≤ m.toNat*2^k :=
      (Nat.pow_le_pow_right (by decide) (by omega)).trans (Nat.le_mul_of_pos_left _ h0)
    omega
  refine ⟨_,hrun,?_⟩
  have hexp : BitVec.ofInt 64 ((0 - (k : ℤ))*2^52) + 0x0010000000000000#64 =
      BitVec.ofInt 64 ((1 - (k : ℤ))*2^52) := by
    rw [show (0x0010000000000000#64) = BitVec.ofInt 64 (2^52) from rfl,← BitVec.ofInt_add]
    congr 1
    omega
  have hfrac : (m' &&& 0x000FFFFFFFFFFFFF#64).toNat < 2^52 := by
    rw [toNat_and_frac]
    exact fracOf_lt m'
  dsimp only
  rw [hexp]
  exact rsqrtTable_inRange (by omega) (by omega) hfrac

/-- The root ends, and what it takes from the table is in range. -/
theorem rsqrt_ends {fuel : ℕ} (hfuel : 52 ≤ fuel) (x : BitVec 64) :
    ∃ estimate, ppcApproxRsqrt fuel x = some estimate ∧
      ∀ t, estimate = .table t → t.InRange := by
  have hvalue (bits : BitVec 64) : ∃ estimate, some (Estimate.value bits) = some estimate ∧
      ∀ t, estimate = .table t → t.InRange := ⟨_,rfl,fun t ht => Estimate.noConfusion ht⟩
  have htable (t : TableStep) (ht : t.InRange) : ∃ estimate,
      some (Estimate.table t) = some estimate ∧
      ∀ t, estimate = .table t → t.InRange := ⟨_,rfl,fun u hu => by
    rw [← Estimate.table.inj hu]
    exact ht⟩
  unfold ppcApproxRsqrt
  dsimp only
  split
  · exact hvalue _
  · next hzero =>
    split
    · split
      · exact hvalue _
      · exact hvalue _
    · next htop =>
      split
      · exact hvalue _
      · split
        · next hexp =>
          have hfrac : 0 < (x &&& 0x000FFFFFFFFFFFFF#64).toNat := by
            refine Nat.pos_of_ne_zero fun h => hzero ⟨BitVec.eq_of_toNat_eq h,hexp⟩
          have hlt : (x &&& 0x000FFFFFFFFFFFFF#64).toNat < 2^52 := by
            rw [toNat_and_frac]
            exact fracOf_lt x
          obtain ⟨s,hs,hrange⟩ := rsqrt_denormal hfuel hfrac hlt
          rw [hexp]
          rw [show normalizeMantissa fuel (0,x &&& 0x000FFFFFFFFFFFFF#64) = some s from hs]
          exact htable _ hrange
        · next hexp =>
          have htop' : expOf x ≠ 2047 := fun h => htop (and_exp_eq_top.mpr h)
          have hexp' := expOf_lt x
          have hfrac := fracOf_lt x
          refine htable _ ?_
          rw [and_exp_eq]
          exact rsqrtTable_inRange (by omega) (by omega) (by rw [toNat_and_frac]; exact hfrac)

theorem reciprocal_inRange (x : BitVec 64) {t : TableStep}
    (h : ppcApproxReciprocal x = .table t) : t.InRange := by
  unfold ppcApproxReciprocal at h
  dsimp only at h
  split at h
  · exact Estimate.noConfusion h
  split at h
  · split at h <;> exact Estimate.noConfusion h
  split at h
  · exact Estimate.noConfusion h
  next hlow =>
  split at h
  · exact Estimate.noConfusion h
  next hhigh =>
  rw [BitVec.lt_def,toNat_and_exp] at hlow
  rw [ge_iff_le,BitVec.le_def,toNat_and_exp] at hhigh
  have hl : (895#64 <<< 52).toNat = 895*2^52 := by decide
  have hu : (1149#64 <<< 52).toNat = 1149*2^52 := by decide
  rw [← Estimate.table.inj h]
  exact reciprocalTable_inRange rfl (by omega) (by omega)

/-- Both estimates end for every pattern. Where they take the table, the index is inside it, and
the mantissa and the exponent they build are the fields of a normal number. -/
theorem estimates_in_range (x : BitVec 64) (fuel : ℕ) (hfuel : 52 ≤ fuel) :
    (∃ estimate, ppcApproxRsqrt fuel x = some estimate) ∧
    (∀ t, ppcApproxRsqrt fuel x = some (.table t) → t.InRange ∧ t.Assembles) ∧
    (∀ t, ppcApproxReciprocal x = .table t → t.InRange ∧ t.Assembles) := by
  obtain ⟨estimate,hrun,hrange⟩ := rsqrt_ends hfuel x
  refine ⟨⟨estimate,hrun⟩,fun t ht => ?_,fun t ht => ?_⟩
  · have h := hrange t (Option.some.inj (hrun.symm.trans ht))
    exact ⟨h,assembles h⟩
  · have h := reciprocal_inRange x ht
    exact ⟨h,assembles h⟩

/-- The smallest denormal takes all rounds of the loop; the reciprocal is that of three. -/
theorem estimates_in_range_denormal :
    (∃ t, ppcApproxRsqrt 52 1#64 = some (.table t) ∧ t.InRange ∧ t.Assembles) ∧
    ∃ t, ppcApproxReciprocal 0x4008000000000000#64 = .table t ∧ t.InRange ∧ t.Assembles :=
  ⟨⟨_,rfl,(estimates_in_range 1#64 52 le_rfl).2.1 _ rfl⟩,
    ⟨_,rfl,(estimates_in_range 0x4008000000000000#64 52 le_rfl).2.2 _ rfl⟩⟩

end Estimates

end DolRecomp
