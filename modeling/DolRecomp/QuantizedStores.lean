import DolRecomp.BigEndian
import DolRecomp.FloatValues
import DolRecomp.LlvmMemory
import DolRecomp.PairedTransfers

/-!
# Quantised stores

The runtime scales a lane as a double and truncates it. The inline path of the LLVM backend narrows
it to single precision first and scales then, with the instructions that round to nearest.
-/

namespace DolRecomp

namespace QuantizedStores

open DoubleFields FloatRounding FloatValues FloatValue

def psqQuantizeInt (value : FloatValue) (minValue maxValue : ℤ) (scale : ℤ) : ℤ :=
  match value with
  | .nan => maxValue
  | .infinite negative => if negative then minValue else maxValue
  | value =>
    let scaled := (value.ldexp scale).trunc
    if scaled.le minValue then minValue
    else if scaled.ge maxValue then maxValue
    else scaled.toInt

/-- The bytes of a store, the most significant one first. -/
def guestBytes (width : ℕ) (value : BitVec 32) : List (BitVec 8) :=
  (List.range width).map fun i => (value >>> (8*(width - 1 - i))).truncate 8

def psqStoreValue (type : BitVec 3) (scale : ℤ) (value : BitVec 64) : List (BitVec 8) :=
  let quantized (minValue maxValue : ℤ) : BitVec 32 :=
    BitVec.ofInt 32 (psqQuantizeInt (doubleValue value) minValue maxValue scale)
  match type.toNat with
  | 0 =>
    let single := toSingle value
    guestBytes 4 (if Runtime.f32IsDenormal single then 0 else single)
  | 4 => guestBytes 1 (quantized 0 255)
  | 5 => guestBytes 2 (quantized 0 65535)
  | 6 => guestBytes 1 (quantized (-128) 127)
  | 7 => guestBytes 2 (quantized (-32768) 32767)
  | _ => []

/-- The type of a store. -/
def gqrType (gqr : BitVec 32) : BitVec 3 := (gqr &&& 7#32).truncate 3

def ppcPsqStore (gqr ea : BitVec 32) (w : Bool) (lanes : BitVec 64 × BitVec 64) :
    List (BitVec 32 × List (BitVec 8)) :=
  let scale := (Runtime.gqrScale (gqr >>> 8)).toInt
  let type := gqrType gqr
  let size := Runtime.psqTypeSize type
  (ea,psqStoreValue type scale lanes.1) ::
    if w then [] else [(ea + BitVec.ofNat 32 size,psqStoreValue type scale lanes.2)]

/-- A lane as the generated code holds it: a double, or a single with what `fp_denormal_safe_` says
of it. -/
inductive SourceLane
  | f64 (bits : BitVec 64)
  | f32 (denormalSafe : Bool) (bits : BitVec 32)

/-- What is read of a lane: `pairF32` or `pairF64`. -/
def SourceLane.read (type : BitVec 3) : SourceLane → BitVec 32 ⊕ BitVec 64
  | .f64 bits => .inr bits
  | .f32 denormalSafe bits =>
    if type = 0 ∨ denormalSafe then .inl bits
    else .inr (SingleConversion.extendPSQFloat bits)

/-- Both lanes of a register are held the same way. -/
inductive SourcePair
  | pairF64 (lanes : BitVec 64 × BitVec 64)
  | pairF32 (denormalSafe : Bool) (lanes : BitVec 32 × BitVec 32)

def SourcePair.lanes : SourcePair → SourceLane × SourceLane
  | .pairF64 lanes => (.f64 lanes.1,.f64 lanes.2)
  | .pairF32 denormalSafe lanes => (.f32 denormalSafe lanes.1,.f32 denormalSafe lanes.2)

def truncatePSQFloat (value : BitVec 32 ⊕ BitVec 64) : BitVec 32 :=
  let bits := value.elim id toSingle
  let exponent := bits &&& 0x7f800000#32
  let fraction := bits &&& 0x007fffff#32
  if exponent = 0 ∧ fraction ≠ 0 then 0 else bits

/-- The largest magnitude of a result with this sign. -/
def limit (negative : Bool) (minValue maxValue : ℤ) : ℤ :=
  if negative then -minValue else maxValue

def signedInt (negative : Bool) (n : ℤ) : ℤ := if negative then -n else n

def clamp (value : FloatValue) (minValue maxValue : ℤ) : ℤ :=
  if value.le minValue then minValue else if value.ge maxValue then maxValue else value.toInt

section
variable {minValue maxValue : ℤ} {negative : Bool} {a : ℚ} {f : Format}

theorem clamp_finite (hmin : minValue ≤ 0) (hmax : 0 < maxValue) (ha : 0 ≤ a) :
    clamp (.finite negative a) minValue maxValue =
      signedInt negative (min ⌊a⌋ (limit negative minValue maxValue)) := by
  have hfloor : 0 ≤ ⌊a⌋ := Int.floor_nonneg.mpr ha
  cases negative with
  | false =>
    have hle : FloatValue.le (.finite false a) minValue = true ↔ a ≤ minValue := decide_eq_true_iff
    have hge : FloatValue.ge (.finite false a) maxValue = true ↔ maxValue ≤ ⌊a⌋ :=
      decide_eq_true_iff.trans Int.le_floor.symm
    rw [clamp]
    show _ = min ⌊a⌋ maxValue
    split_ifs with h h'
    · have hzero : ⌊a⌋ ≤ minValue := Int.cast_le.mp ((Int.floor_le a).trans (hle.mp h))
      omega
    · have := hge.mp h'
      omega
    · have := mt hge.mpr h'
      show ⌊a⌋ = _
      omega
  | true =>
    have hle : FloatValue.le (.finite true a) minValue = true ↔ -minValue ≤ ⌊a⌋ := by
      rw [Int.le_floor,Int.cast_neg]
      exact decide_eq_true_iff.trans neg_le
    have hge : ¬FloatValue.ge (.finite true a) maxValue = true := by
      intro h
      have hneg : (maxValue : ℚ) ≤ -a := decide_eq_true_iff.mp h
      have hpos : (0 : ℚ) < maxValue := by exact_mod_cast hmax
      linarith
    rw [clamp,if_neg hge]
    show _ = -min ⌊a⌋ (-minValue)
    split_ifs with h
    · have := hle.mp h
      omega
    · have := mt hle.mpr h
      show -⌊a⌋ = _
      omega

theorem clamp_infinite : clamp (.infinite negative) minValue maxValue =
    signedInt negative (limit negative minValue maxValue) := by
  cases negative with
  | false => rfl
  | true => exact (neg_neg minValue).symm

theorem clamp_trunc (hmin : minValue ≤ 0) (hmax : 0 < maxValue) (ha : 0 ≤ a) :
    clamp (rounded f negative a).trunc minValue maxValue =
      clamp (rounded f negative a) minValue maxValue := by
  have hround : 0 ≤ f.round a := round_nonneg ha
  rw [rounded]
  split_ifs
  · rfl
  · have hfloor : (0 : ℚ) ≤ (⌊f.round a⌋ : ℤ) := Int.cast_nonneg (Int.floor_nonneg.mpr hround)
    rw [clamp_finite hmin hmax hround,trunc,clamp_finite hmin hmax hfloor,Int.floor_intCast]

/-- An infinity stands for a magnitude beyond every limit. -/
theorem clamp_rounded (hmin : minValue ≤ 0) (hmax : 0 < maxValue) (ha : 0 ≤ a)
    (hlimit : (limit negative minValue maxValue : ℚ) ≤ 2^f.top) :
    clamp (rounded f negative a) minValue maxValue =
      signedInt negative (min ⌊f.round a⌋ (limit negative minValue maxValue)) := by
  rw [rounded]
  split_ifs with h
  · rw [clamp_infinite,min_eq_right (Int.le_floor.mpr (hlimit.trans h))]
  · exact clamp_finite hmin hmax (round_nonneg ha)

end

theorem gqrScale_range (value : BitVec 32) :
    -32 ≤ (Runtime.gqrScale value).toInt ∧ (Runtime.gqrScale value).toInt ≤ 31 := by
  rw [Runtime.gqrScale,BitVec.toInt_signExtend_of_le (by decide)]
  have hlow := BitVec.le_toInt (value.truncate 6)
  have hhigh := BitVec.toInt_lt (x := value.truncate 6)
  have hpow : (2 : ℤ)^(6 - 1) = 32 := rfl
  rw [hpow] at hlow hhigh
  exact ⟨hlow,Int.le_of_lt_add_one hhigh⟩

section
variable {minValue maxValue : ℤ} {negative : Bool} {a : ℚ} {s : ℤ}

end

section
variable {minValue maxValue : ℤ} {negative : Bool} {a : ℚ}

theorem quantizeInt_finite (hmin : minValue ≤ 0) (hmax : 0 < maxValue)
    (hlimit : limit negative minValue maxValue ≤ 2^16) {k : ℕ} {j : ℤ} (hk : k ≤ 2^53)
    (scale : ℤ) : psqQuantizeInt (.finite negative (k*2^j)) minValue maxValue scale =
      signedInt negative (min ⌊(k : ℚ)*2^j*2^scale⌋ (limit negative minValue maxValue)) := by
  have hnonneg : 0 ≤ (k : ℚ)*2^j*2^scale := by positivity
  have htop : (limit negative minValue maxValue : ℚ) ≤ 2^double.top := by
    have hcast : (limit negative minValue maxValue : ℚ) ≤ 2^16 := by exact_mod_cast hlimit
    refine hcast.trans ?_
    rw [← zpow_natCast]
    exact zpow_le_zpow_right₀ one_le_two (by decide)
  have hfloor : ⌊double.round ((k : ℚ)*2^j*2^scale)⌋ = ⌊(k : ℚ)*2^j*2^scale⌋ := by
    rw [mul_assoc,← zpow_add₀ two_ne_zero]
    exact floor_round (by decide) hk (by decide)
  show clamp (rounded double negative _).trunc minValue maxValue = _
  rw [clamp_trunc hmin hmax hnonneg,clamp_rounded hmin hmax hnonneg htop,hfloor]

end

theorem guestBytes_one_iff (x y : BitVec 32) :
    guestBytes 1 x = guestBytes 1 y ↔ x.toNat % 2^8 = y.toNat % 2^8 := by
  show [(x >>> 0).truncate 8] = [(y >>> 0).truncate 8] ↔ _
  rw [List.cons_eq_cons,and_iff_left rfl,BitVec.toNat_eq]
  rfl

theorem guestBytes_two_iff (x y : BitVec 32) :
    guestBytes 2 x = guestBytes 2 y ↔ x.toNat % 2^16 = y.toNat % 2^16 := by
  have hbyte (z : BitVec 32) : ((z >>> 8).truncate 8).toNat = z.toNat/2^8 % 2^8 := by
    rw [BitVec.truncate_eq_setWidth,BitVec.toNat_setWidth,BitVec.toNat_ushiftRight,
      Nat.shiftRight_eq_div_pow]
  show [(x >>> 8).truncate 8,(x >>> 0).truncate 8] = [(y >>> 8).truncate 8,(y >>> 0).truncate 8] ↔ _
  rw [List.cons_eq_cons,List.cons_eq_cons,and_iff_left rfl,BitVec.toNat_eq,BitVec.toNat_eq,hbyte,
    hbyte]
  show _ ∧ x.toNat % 2^8 = y.toNat % 2^8 ↔ _
  omega

/-- A store of the generated code puts these bytes into memory. -/
theorem endianStore_guestBytes (bytes : ℕ → BitVec 8) (offset : ℕ) {width : ℕ} (hw : width ≤ 4)
    (value : BitVec 32) : LlvmMemory.endianStore bytes offset width (value.zeroExtend 64) =
      fun n => if offset ≤ n then (guestBytes width value)[n - offset]?.getD (bytes n)
        else bytes n := by
  rw [LlvmMemory.endianStore_eq bytes offset width (by omega)]
  funext n
  by_cases hin : offset ≤ n ∧ n < offset + width
  · have hindex : n - offset < width := by omega
    have hshift : offset + width - 1 - n = width - 1 - (n - offset) := by omega
    have hbyte : ((value.zeroExtend 64) >>> (8*(width - 1 - (n - offset)))).truncate 8 =
        (value >>> (8*(width - 1 - (n - offset)))).truncate 8 := by
      refine BitVec.eq_of_toNat_eq ?_
      simp only [BitVec.truncate_eq_setWidth,BitVec.toNat_setWidth,BitVec.toNat_ushiftRight]
      rw [Nat.mod_eq_of_lt (value.isLt.trans (by decide))]
    rw [Runtime.writeBe_inside bytes offset width _ hin.1 hin.2,if_pos hin.1,hshift,hbyte,guestBytes,
      List.getElem?_map,List.getElem?_range hindex]
    rfl
  · rw [Runtime.writeBe_outside bytes offset width _ (by omega)]
    split
    · have hout : ¬ n - offset < (guestBytes width value).length := by
        rw [guestBytes,List.length_map,List.length_range]
        omega
      rw [List.getElem?_eq_none (not_lt.mp hout)]
      rfl
    · rfl

/-- The least and the greatest integer of a quantised type. -/
def storeRange (type : BitVec 3) : ℤ × ℤ :=
  if type = 4 then (0,255) else if type = 5 then (0,65535)
  else if type = 6 then (-128,127) else (-32768,32767)

section
variable {minValue maxValue : ℤ} {width : ℕ} {negative : Bool}

end

theorem valid_cases {type : BitVec 3} (h : Runtime.psqTypeSize type ≠ 0) :
    type = 0 ∨ type = 4 ∨ type = 5 ∨ type = 6 ∨ type = 7 := by
  have hlt := type.isLt
  simp only [BitVec.toNat_eq]
  generalize hn : type.toNat = n at hlt
  rw [Runtime.psqTypeSize,hn] at h
  interval_cases n <;> simp at h ⊢

theorem guestBytes_four_iff (x y : BitVec 32) : guestBytes 4 x = guestBytes 4 y ↔ x = y := by
  refine ⟨fun h => BitVec.eq_of_toNat_eq ?_,fun h => by rw [h]⟩
  have hbyte (z : BitVec 32) (n : ℕ) : ((z >>> n).truncate 8).toNat = z.toNat/2^n % 2^8 := by
    rw [BitVec.truncate_eq_setWidth,BitVec.toNat_setWidth,BitVec.toNat_ushiftRight,
      Nat.shiftRight_eq_div_pow]
  have hx := x.isLt
  have hy := y.isLt
  have hlist : [(x >>> 24).truncate 8,(x >>> 16).truncate 8,(x >>> 8).truncate 8,
      (x >>> 0).truncate 8] = [(y >>> 24).truncate 8,(y >>> 16).truncate 8,(y >>> 8).truncate 8,
      (y >>> 0).truncate 8] := h
  simp only [List.cons.injEq,and_true,BitVec.toNat_eq,hbyte] at hlist
  omega

theorem truncate_eq (value : BitVec 32 ⊕ BitVec 64) : truncatePSQFloat value =
    if Runtime.f32IsDenormal (value.elim id toSingle) then 0 else value.elim id toSingle := by
  rw [truncatePSQFloat,Runtime.f32IsDenormal]
  simp only [Bool.and_eq_true,beq_iff_eq,bne_iff_ne]

theorem f32IsDenormal_iff {bits : BitVec 32} :
    Runtime.f32IsDenormal bits = true ↔ singleExp bits = 0 ∧ singleFrac bits ≠ 0 := by
  have hexp : (bits &&& 0x7F800000#32).toNat = singleExp bits*2^23 :=
    (BitVec.toNat_and _ _).trans (and_field bits.toNat 8 23)
  have hfrac : (bits &&& 0x007FFFFF#32).toNat = singleFrac bits := toNat_fracField bits
  rw [Runtime.f32IsDenormal,Bool.and_eq_true,beq_iff_eq,bne_iff_ne,ne_eq,← BitVec.toNat_inj,
    ← BitVec.toNat_inj,hexp,hfrac]
  show singleExp bits*2^23 = 0 ∧ ¬singleFrac bits = 0 ↔ _
  omega

/-- A single that is stored as it is differs from the runtime's only for a signalling NaN. -/
theorem truncate_single_iff (bits : BitVec 32) :
    truncatePSQFloat (.inr (SingleConversion.toDouble bits)) = truncatePSQFloat (.inl bits) ↔
      ¬Signalling bits := by
  have hnat := toNat_toSingle_toDouble bits
  rw [truncate_eq,truncate_eq]
  show (if Runtime.f32IsDenormal (toSingle (SingleConversion.toDouble bits)) then 0
      else toSingle (SingleConversion.toDouble bits)) =
    (if Runtime.f32IsDenormal bits then 0 else bits) ↔ _
  by_cases h : Signalling bits
  · rw [if_pos h] at hnat
    have hsplit := toNat_single bits
    obtain ⟨hexp,hfrac,hlow⟩ := h
    have hquiet : singleExp (toSingle (SingleConversion.toDouble bits)) ≠ 0 := by
      rw [singleExp,hnat]
      omega
    rw [if_neg fun hd => hquiet (f32IsDenormal_iff.mp hd).1,
      if_neg fun hd => absurd (f32IsDenormal_iff.mp hd).1 (by omega)]
    refine iff_of_false (fun heq => ?_) (not_not.mpr ⟨hexp,hfrac,hlow⟩)
    rw [heq] at hnat
    omega
  · rw [if_neg h,Nat.add_zero] at hnat
    rw [BitVec.eq_of_toNat_eq hnat]
    exact iff_of_true rfl h

theorem psqStoreValue_zero (scale : ℤ) (value : BitVec 64) :
    psqStoreValue 0 scale value = guestBytes 4 (truncatePSQFloat (.inr value)) :=
  congrArg (guestBytes 4) (truncate_eq (.inr value)).symm

/-- The devices of the runtime with the conversions as they are here. -/
def quantizing (dev : Devices) : Devices :=
  { dev with
    toSingle := toSingle
    quantizeInt := fun value minValue maxValue scale => BitVec.ofInt 64
      (psqQuantizeInt (doubleValue value) minValue.toInt maxValue.toInt scale.toInt) }

def accessBytes (access : MemAccess) : BitVec 32 × List (BitVec 8) :=
  (access.ea,guestBytes access.width (access.value.truncate 32))

section
variable {dev : Devices} {cpu : CPUState}

theorem guestBytes_byte (n : ℤ) :
    guestBytes 1 ((((BitVec.ofInt 64 n).truncate 8).zeroExtend 64).truncate 32) =
      guestBytes 1 (BitVec.ofInt 32 n) := by
  rw [guestBytes_one_iff]
  simp only [BitVec.truncate_eq_setWidth,BitVec.toNat_setWidth,BitVec.toNat_ofInt]
  omega

theorem guestBytes_half (n : ℤ) :
    guestBytes 2 ((((BitVec.ofInt 64 n).truncate 16).zeroExtend 64).truncate 32) =
      guestBytes 2 (BitVec.ofInt 32 n) := by
  rw [guestBytes_two_iff]
  simp only [BitVec.truncate_eq_setWidth,BitVec.toNat_setWidth,BitVec.toNat_ofInt]
  omega

theorem store_access {type : BitVec 3} (h : Runtime.psqTypeSize type ≠ 0) (ea scale : BitVec 32)
    (value : BitVec 64) : ∃ access : MemAccess,
      (Runtime.psqStoreValue (quantizing dev) cpu ea type scale value).history =
        access :: cpu.history ∧
      accessBytes access = (ea,psqStoreValue type scale.toInt value) := by
  rcases valid_cases h with rfl | rfl | rfl | rfl | rfl
  · refine ⟨_,Smc.memWrite_history ea _ 4,congrArg (Prod.mk ea) ?_⟩
    show guestBytes 4 ((BitVec.zeroExtend 64 _).truncate 32) = guestBytes 4 _
    rw [BitVec.truncate_eq_setWidth,BitVec.setWidth_setWidth_of_le _ (by decide),
      BitVec.setWidth_eq]
    rfl
  · exact ⟨_,Smc.memWrite_history ea _ 1,congrArg (Prod.mk ea) (guestBytes_byte _)⟩
  · exact ⟨_,Smc.memWrite_history ea _ 2,congrArg (Prod.mk ea) (guestBytes_half _)⟩
  · exact ⟨_,Smc.memWrite_history ea _ 1,congrArg (Prod.mk ea) (guestBytes_byte _)⟩
  · exact ⟨_,Smc.memWrite_history ea _ 2,congrArg (Prod.mk ea) (guestBytes_half _)⟩

theorem storeType_eq (gqrIndex : BitVec 3) :
    Runtime.storeType cpu gqrIndex = gqrType (cpu.gqr gqrIndex) := by
  have hmask (x : ℕ) : x &&& 7 = x % 2^3 := Nat.and_two_pow_sub_one_eq_mod x 3
  rw [Runtime.storeType,gqrType]
  refine BitVec.eq_of_toNat_eq ?_
  simp only [BitVec.truncate_eq_setWidth,BitVec.toNat_setWidth,BitVec.toNat_and]
  rw [show (7#32).toNat = 7 from rfl,hmask]
  omega

theorem psqStore_writes {frS : BitVec 5} {ea cia : BitVec 32} {w indexed : Bool}
    {gqrIndex : BitVec 3}
    (h : (Runtime.psqStore (quantizing dev) cpu frS ea w gqrIndex indexed cia).1 = true) :
    ∃ new, (Runtime.psqStore (quantizing dev) cpu frS ea w gqrIndex indexed cia).2.history =
        new ++ cpu.history ∧
      new.reverse.map accessBytes =
        ppcPsqStore (cpu.gqr gqrIndex) ea w (cpu.fpr frS,cpu.ps1 frS) := by
  by_cases hok : (Runtime.psqCheckEnabled cpu indexed cia).1 = true ∧
      (Runtime.psqAccessIsValid cpu (Runtime.storeType cpu gqrIndex) ea cia).1 = true
  · have hsize : Runtime.psqTypeSize (Runtime.storeType cpu gqrIndex) ≠ 0 :=
      (Smc.psqAccessIsValid_iff.mp hok.2).1
    rw [Runtime.psqStore_valid hok.1 hok.2]
    dsimp only
    rw [ppcPsqStore,← storeType_eq]
    generalize Runtime.storeType cpu gqrIndex = type at hsize
    obtain ⟨first,hfirst,hbytes⟩ := @store_access dev cpu type hsize ea
      (Runtime.storeScale cpu gqrIndex) (cpu.fpr frS)
    cases w with
    | true => exact ⟨[first],hfirst,congrArg (fun b => [b]) hbytes⟩
    | false =>
      have hps1 := (@Runtime.psqStoreValue_frame (quantizing dev) cpu ea type
        (Runtime.storeScale cpu gqrIndex) (cpu.fpr frS)).1.ps1
      rw [if_neg Bool.false_ne_true,hps1]
      obtain ⟨second,hsecond,hbytes'⟩ := @store_access dev
        (Runtime.psqStoreValue (quantizing dev) cpu ea type (Runtime.storeScale cpu gqrIndex)
          (cpu.fpr frS)) type hsize (Runtime.laneAddress type ea)
        (Runtime.storeScale cpu gqrIndex) (cpu.ps1 frS)
      refine ⟨[second,first],by rw [hsecond,hfirst]; rfl,?_⟩
      show [accessBytes first,accessBytes second] = _
      rw [hbytes,hbytes']
      rfl
  · exact absurd (Runtime.psqStore_stopped frS w hok).1 (by rw [h]; exact Bool.noConfusion)

end

end QuantizedStores

end DolRecomp
