import DolRecomp.QuantizedStores

/-!
# Quantised loads and stores

What a quantised load brings into a lane and a store of the same type and scale puts
back are the bytes that were there: an integer under a power of two is exact in single
precision. Without quantisation the store loses denormals and signalling NaNs.
-/

namespace DolRecomp

namespace QuantizedStores

open DoubleFields FloatRounding FloatValues FloatValue

/-- The integer that a load reads of the bytes of an integer type. -/
def psqInteger (type : BitVec 3) (raw : BitVec 32) : ℤ :=
  match type.toNat with
  | 4 => (raw.truncate 8).toNat
  | 5 => (raw.truncate 16).toNat
  | 6 => (raw.truncate 8).toInt
  | 7 => (raw.truncate 16).toInt
  | _ => 0

/-- The pattern of a value that is rounded to single precision. -/
def singlePattern : FloatValue → BitVec 32
  | .nan => 0x7FC00000
  | .infinite negative => BitVec.ofNat 32 (negative.toNat*2^31 + 255*2^23)
  | .finite negative magnitude => BitVec.ofNat 32 (negative.toNat*2^31 + singleMagnitude magnitude)

/-- `(f64)(f32)ldexp((f64)n, -scale)` -/
def scaledSingle (n scale : ℤ) : BitVec 64 :=
  SingleConversion.toDouble (singlePattern ((ofInt n).ldexp (-scale)))

/-- `psq_load_value`, of the bytes that are read. -/
def psqLoadValue (type : BitVec 3) (scale : ℤ) (raw : BitVec 32) : BitVec 64 :=
  if type = 0 then SingleConversion.extendF32Bits raw else scaledSingle (psqInteger type raw) scale

/-- The devices of the runtime with the conversions of loads and stores as they are here. -/
def converting (dev : Devices) : Devices :=
  quantizing { dev with scaledSingle := fun n scale => scaledSingle n.toInt scale.toInt }

/-- The pattern of a single that a store without quantisation writes as it is. -/
def Kept (raw : BitVec 32) : Prop := ¬Signalling raw ∧ ¬(singleExp raw = 0 ∧ singleFrac raw ≠ 0)

theorem rounded_exact {f : Format} (hp : 17 ≤ f.precision) (hu : f.unit ≤ -33) (ht : 50 ≤ f.top)
    (negative : Bool) {k : ℕ} (hk : k ≤ 2^16) {j : ℤ} (hlow : -33 ≤ j) (hhigh : j ≤ 33) :
    rounded f negative (k*2^j) = .finite negative (k*2^j) := by
  have hbits : k ≤ 2^f.precision := hk.trans (Nat.pow_le_pow_right (by decide) (by omega))
  have hround : f.round ((k : ℚ)*2^j) = k*2^j := round_eq_self (by omega) hbits (hu.trans hlow)
  have hlt : (k : ℚ)*2^j < 2^f.top := by
    calc (k : ℚ)*2^j ≤ 2^16*2^j :=
          mul_le_mul_of_nonneg_right (by exact_mod_cast hk) (pow_pos_two j).le
      _ = 2^(((16 : ℕ) : ℤ) + j) := by rw [zpow_add₀ two_ne_zero,zpow_natCast]
      _ < 2^f.top := zpow_lt_zpow_right₀ one_lt_two (by omega)
  rw [rounded,hround,if_neg (not_le.mpr hlt)]

/-- An integer of 16 bits times a power of two is a single. -/
theorem exists_single (negative : Bool) {k : ℕ} (hk : k ≤ 2^16) {j : ℤ} (hlow : -33 ≤ j)
    (hhigh : j ≤ 33) : ∃ p : BitVec 32, singleValue p = .finite negative (k*2^j) ∧
      singleSign p = negative.toNat := by
  have hneg : negative.toNat ≤ 1 := Bool.toNat_le negative
  by_cases hk0 : k = 0
  · rw [hk0,Nat.cast_zero,zero_mul]
    cases negative with
    | false => exact ⟨0#32,by decide +kernel,by decide⟩
    | true => exact ⟨0x80000000#32,by decide +kernel,by decide⟩
  obtain ⟨s,hs,htop,hbelow⟩ : ∃ s ≤ 23, 2^23 ≤ k*2^s ∧ k*2^s < 2^24 := by
    have hle := Nat.pow_log_le_self 2 hk0
    have hlt := Nat.lt_pow_succ_log_self one_lt_two k
    have hlog : Nat.log 2 k ≤ 16 :=
      (Nat.pow_le_pow_iff_right one_lt_two).mp (hle.trans hk)
    refine ⟨23 - Nat.log 2 k,Nat.sub_le _ _,?_,?_⟩
    · calc 2^23 = 2^Nat.log 2 k*2^(23 - Nat.log 2 k) := by rw [← pow_add]; congr 1; omega
        _ ≤ _ := Nat.mul_le_mul_right _ hle
    · calc k*2^(23 - Nat.log 2 k) < 2^(Nat.log 2 k + 1)*2^(23 - Nat.log 2 k) :=
            Nat.mul_lt_mul_of_pos_right hlt (by positivity)
        _ = 2^24 := by rw [← pow_add]; congr 1; omega
  obtain ⟨e,he⟩ : ∃ e : ℕ, (e : ℤ) = j - s + 150 := ⟨(j - s + 150).toNat,by omega⟩
  generalize hm : k*2^s = mantissa at htop hbelow
  have hp : (BitVec.ofNat 32 (negative.toNat*2^31 + e*2^23 + (mantissa - 2^23))).toNat =
      negative.toNat*2^31 + e*2^23 + (mantissa - 2^23) := by
    rw [BitVec.toNat_ofNat]
    exact Nat.mod_eq_of_lt (by omega)
  generalize BitVec.ofNat 32 (negative.toNat*2^31 + e*2^23 + (mantissa - 2^23)) = p at hp
  have hexp : singleExp p = e := by
    rw [singleExp,hp]
    omega
  have hfrac : singleFrac p = mantissa - 2^23 := by
    rw [singleFrac,hp]
    omega
  have hsign : singleSign p = negative.toNat := by
    rw [singleSign,hp]
    omega
  have hvalue : ((2^(single.precision - 1) + (mantissa - 2^23) : ℕ) : ℚ)*2^(single.unit + e - 1) =
      k*2^j := by
    have hnat : 2^(single.precision - 1) + (mantissa - 2^23) = k*2^s := by
      rw [hm]
      exact Nat.add_sub_of_le htop
    have hunit : single.unit + e - 1 = j - s := by
      show (-149 : ℤ) + e - 1 = _
      omega
    rw [hnat,hunit,Nat.cast_mul,Nat.cast_pow,Nat.cast_ofNat,mul_assoc,← zpow_natCast,
      ← zpow_add₀ two_ne_zero,add_sub_cancel]
  refine ⟨p,?_,hsign⟩
  have hbool : decide (negative.toNat = 1) = negative := by cases negative <;> rfl
  rw [singleValue,hexp,hfrac,hsign,hbool,valueOf,if_neg (by omega),if_neg (by omega),hvalue]

theorem singlePattern_value {negative : Bool} {p : BitVec 32} {a : ℚ}
    (h : singleValue p = .finite negative a) (hsign : singleSign p = negative.toNat) :
    singlePattern (.finite negative a) = p := by
  refine BitVec.eq_of_toNat_eq ?_
  have hsplit := toNat_single p
  have hlt := p.isLt
  rw [singlePattern,singleMagnitude_value h,← hsign,BitVec.toNat_ofNat,← Nat.add_assoc,← hsplit]
  exact Nat.mod_eq_of_lt hlt

theorem scaledSingle_value {n scale : ℤ} (hn : |n| ≤ 2^16) (hlow : -32 ≤ scale)
    (hhigh : scale ≤ 31) :
    doubleValue (scaledSingle n scale) = .finite (n < 0) ((n.natAbs : ℕ)*2^(-scale)) := by
  have hk : n.natAbs ≤ 2^16 := by
    rw [← Int.natCast_natAbs] at hn
    exact_mod_cast hn
  have habs : |(n : ℚ)| = ((n.natAbs : ℕ) : ℚ) := by
    rw [← Int.cast_abs,← Int.natCast_natAbs,Int.cast_natCast]
  obtain ⟨p,hp,hsign⟩ := exists_single (n < 0) hk (show -33 ≤ -scale by omega) (by omega)
  rw [scaledSingle,ofInt,habs,ldexp,rounded_exact (by decide) (by decide) (by decide) _ hk
    (by omega) (by omega),singlePattern_value hp hsign,doubleValue_toDouble,hp]

theorem quantize_loaded {n scale minValue maxValue : ℤ} (hmin : minValue ≤ n)
    (hmax : n ≤ maxValue) (hbelow : minValue ≤ 0) (habove : 0 < maxValue)
    (hlow : -(2^16) ≤ minValue) (hhigh : maxValue ≤ 2^16) (hslow : -32 ≤ scale)
    (hshigh : scale ≤ 31) :
    psqQuantizeInt (doubleValue (scaledSingle n scale)) minValue maxValue scale = n := by
  have habs : |n| ≤ 2^16 := abs_le.mpr ⟨by omega,by omega⟩
  rw [scaledSingle_value habs hslow hshigh]
  have hk : n.natAbs ≤ 2^53 := by omega
  have hlimit : limit (decide (n < 0)) minValue maxValue ≤ 2^16 := by
    unfold limit
    split <;> omega
  rw [quantizeInt_finite hbelow habove hlimit hk]
  have hfloor : ⌊((n.natAbs : ℕ) : ℚ)*2^(-scale)*2^scale⌋ = n.natAbs := by
    rw [mul_assoc,← zpow_add₀ two_ne_zero,neg_add_cancel,zpow_zero,mul_one,Int.floor_natCast]
  rw [hfloor]
  unfold limit signedInt
  by_cases hneg : n < 0
  · rw [decide_eq_true hneg,if_pos rfl,if_pos rfl]
    omega
  · rw [decide_eq_false hneg,if_neg Bool.false_ne_true,if_neg Bool.false_ne_true]
    omega

theorem guestBytes_congr {width : ℕ} (x y : BitVec 32)
    (h : ∀ i < 8*width, x.getLsbD i = y.getLsbD i) : guestBytes width x = guestBytes width y := by
  refine List.map_congr_left fun i hi => ?_
  have hlt := List.mem_range.mp hi
  refine BitVec.eq_of_getLsbD_eq fun j hj => ?_
  simp only [BitVec.truncate_eq_setWidth,BitVec.getLsbD_setWidth,BitVec.getLsbD_ushiftRight]
  rw [h _ (by omega)]

theorem guestBytes_integer {type : BitVec 3} (h : Runtime.psqTypeSize type ≠ 0) (hint : type ≠ 0)
    (raw : BitVec 32) : guestBytes (Runtime.psqTypeSize type)
      (BitVec.ofInt 32 (psqInteger type raw)) = guestBytes (Runtime.psqTypeSize type) raw := by
  have hunsigned {w : ℕ} (x : BitVec w) :
      BitVec.ofInt 32 (x.toNat : ℤ) = x.setWidth 32 := BitVec.eq_of_toNat_eq (by simp)
  have hsigned {w : ℕ} (x : BitVec w) : BitVec.ofInt 32 x.toInt = x.signExtend 32 := rfl
  rcases (valid_cases h).resolve_left hint with rfl | rfl | rfl | rfl
  · refine guestBytes_congr _ _ fun i (hi : i < 8) => ?_
    show (BitVec.ofInt 32 ((raw.truncate 8 : BitVec 8).toNat : ℤ)).getLsbD i = _
    rw [hunsigned]
    simp [hi,show i < 32 by omega]
  · refine guestBytes_congr _ _ fun i (hi : i < 16) => ?_
    show (BitVec.ofInt 32 ((raw.truncate 16 : BitVec 16).toNat : ℤ)).getLsbD i = _
    rw [hunsigned]
    simp [hi,show i < 32 by omega]
  · refine guestBytes_congr _ _ fun i (hi : i < 8) => ?_
    show (BitVec.ofInt 32 (raw.truncate 8 : BitVec 8).toInt).getLsbD i = _
    rw [hsigned,BitVec.getLsbD_signExtend]
    simp [hi,show i < 32 by omega]
  · refine guestBytes_congr _ _ fun i (hi : i < 16) => ?_
    show (BitVec.ofInt 32 (raw.truncate 16 : BitVec 16).toInt).getLsbD i = _
    rw [hsigned,BitVec.getLsbD_signExtend]
    simp [hi,show i < 32 by omega]

theorem psqInteger_range {type : BitVec 3} (h : Runtime.psqTypeSize type ≠ 0) (hint : type ≠ 0)
    (raw : BitVec 32) : (storeRange type).1 ≤ psqInteger type raw ∧
      psqInteger type raw ≤ (storeRange type).2 := by
  rcases (valid_cases h).resolve_left hint with rfl | rfl | rfl | rfl
  · have hlt := (raw.truncate 8 : BitVec 8).isLt
    exact ⟨Int.natCast_nonneg _,Int.ofNat_le.mpr (Nat.le_of_lt_succ hlt)⟩
  · have hlt := (raw.truncate 16 : BitVec 16).isLt
    exact ⟨Int.natCast_nonneg _,Int.ofNat_le.mpr (Nat.le_of_lt_succ hlt)⟩
  · exact ⟨BitVec.le_toInt (raw.truncate 8 : BitVec 8),
      Int.le_of_lt_add_one (BitVec.toInt_lt (x := (raw.truncate 8 : BitVec 8)))⟩
  · exact ⟨BitVec.le_toInt (raw.truncate 16 : BitVec 16),
      Int.le_of_lt_add_one (BitVec.toInt_lt (x := (raw.truncate 16 : BitVec 16)))⟩

theorem single_round_trip_iff (raw : BitVec 32) :
    truncatePSQFloat (.inr (SingleConversion.toDouble raw)) = raw ↔ Kept raw := by
  have hiff := truncate_single_iff raw
  rw [truncate_eq (.inl raw),Sum.elim_inl,id] at hiff
  by_cases hd : singleExp raw = 0 ∧ singleFrac raw ≠ 0
  · rw [if_pos (f32IsDenormal_iff.mpr hd)] at hiff
    have hs : ¬Signalling raw := fun h => by
      have := h.1
      omega
    rw [hiff.mpr hs]
    refine iff_of_false (fun h0 => hd.2 ?_) fun hk => hk.2 hd
    rw [← h0]
    rfl
  · rw [if_neg fun h => hd (f32IsDenormal_iff.mp h)] at hiff
    rw [hiff]
    exact ⟨fun h => ⟨h,hd⟩,fun h => h.1⟩

/-- A lane that was loaded is stored back unless it was a denormal or a signalling NaN. -/
theorem loaded_lane_iff {type : BitVec 3} (h : Runtime.psqTypeSize type ≠ 0) {scale : ℤ}
    (hlow : -32 ≤ scale) (hhigh : scale ≤ 31) (raw : BitVec 32) :
    psqStoreValue type scale (psqLoadValue type scale raw) =
      guestBytes (Runtime.psqTypeSize type) raw ↔ (type = 0 → Kept raw) := by
  by_cases hint : type = 0
  · rw [psqLoadValue,if_pos hint]
    subst hint
    rw [SingleConversion.extendF32Bits_eq,psqStoreValue_zero]
    show guestBytes 4 _ = guestBytes 4 raw ↔ _
    rw [guestBytes_four_iff,single_round_trip_iff]
    exact ⟨fun hk _ => hk,fun hk => hk rfl⟩
  · rw [psqLoadValue,if_neg hint]
    have hbytes := guestBytes_integer h hint raw
    obtain ⟨hmin,hmax⟩ := psqInteger_range h hint raw
    refine iff_of_true (Eq.trans ?_ hbytes) fun h0 => absurd h0 hint
    rcases (valid_cases h).resolve_left hint with rfl | rfl | rfl | rfl
    all_goals
      have hq := quantize_loaded hmin hmax (by decide) (by decide) (by decide) (by decide)
        hlow hhigh
      exact congrArg (fun n => guestBytes _ (BitVec.ofInt 32 n)) hq

section
variable {dev : Devices} {host : Host} {cpu : CPUState}

theorem toInt_zeroExtend_low {w : ℕ} (hw : w < 32) (v : BitVec 64) :
    ((v.truncate w : BitVec w).zeroExtend 32).toInt =
      (((v.truncate 32 : BitVec 32).truncate w : BitVec w).toNat : ℤ) := by
  have hlt := (v.truncate w : BitVec w).isLt
  have hpow : 2^w < 2^32 := Nat.pow_lt_pow_right one_lt_two hw
  have hhalf : 2^w ≤ 2^31 := Nat.pow_le_pow_right two_pos (by omega)
  simp only [BitVec.truncate_eq_setWidth] at hlt ⊢
  rw [BitVec.setWidth_setWidth_of_le _ hw.le,BitVec.toInt_eq_toNat_of_lt]
  · rw [BitVec.toNat_setWidth_of_le hw.le]
  · rw [BitVec.toNat_setWidth_of_le hw.le]
    omega

theorem toInt_signExtend_low {w : ℕ} (hw : w ≤ 32) (v : BitVec 64) :
    ((v.truncate w : BitVec w).signExtend 32).toInt =
      ((v.truncate 32 : BitVec 32).truncate w : BitVec w).toInt := by
  simp only [BitVec.truncate_eq_setWidth]
  rw [BitVec.toInt_signExtend_of_le hw,BitVec.setWidth_setWidth_of_le _ hw]

theorem load_access {type : BitVec 3} (h : Runtime.psqTypeSize type ≠ 0) (ea scale : BitVec 32) :
    ∃ access : MemAccess,
      (Runtime.psqLoadValue (converting dev) host cpu ea type scale).2.history =
        access :: cpu.history ∧
      access.ea = ea ∧ access.width = Runtime.psqTypeSize type ∧
      (Runtime.psqLoadValue (converting dev) host cpu ea type scale).1 =
        psqLoadValue type scale.toInt (access.value.truncate 32) := by
  rcases valid_cases h with rfl | rfl | rfl | rfl | rfl
  · exact ⟨_,rfl,rfl,rfl,rfl⟩
  · exact ⟨_,rfl,rfl,rfl,congrArg (scaledSingle · _) (toInt_zeroExtend_low (by decide) _)⟩
  · exact ⟨_,rfl,rfl,rfl,congrArg (scaledSingle · _) (toInt_zeroExtend_low (by decide) _)⟩
  · exact ⟨_,rfl,rfl,rfl,congrArg (scaledSingle · _) (toInt_signExtend_low (by decide) _)⟩
  · exact ⟨_,rfl,rfl,rfl,congrArg (scaledSingle · _) (toInt_signExtend_low (by decide) _)⟩

variable {fr : BitVec 5} {ea cia : BitVec 32} {w indexed : Bool} {gqrIndex : BitVec 3}

/-- A load that returns true has read both lanes. -/
theorem psqLoad_reads
    (h : (Runtime.psqLoad (converting dev) host cpu fr ea w gqrIndex indexed cia).1 = true) :
    ∃ first second : MemAccess,
      let type := Runtime.loadType cpu gqrIndex
      let scale := (Runtime.loadScale cpu gqrIndex).toInt
      let cpu' := (Runtime.psqLoad (converting dev) host cpu fr ea w gqrIndex indexed cia).2
      Runtime.psqTypeSize type ≠ 0 ∧
      cpu'.history = (if w then [first] else [second,first]) ++ cpu.history ∧
      cpu'.gqr = cpu.gqr ∧ (first.ea = ea ∧ first.width = Runtime.psqTypeSize type) ∧
      (second.ea = Runtime.laneAddress type ea ∧ second.width = Runtime.psqTypeSize type) ∧
      cpu'.fpr fr = psqLoadValue type scale (first.value.truncate 32) ∧
      (w = false → cpu'.ps1 fr = psqLoadValue type scale (second.value.truncate 32)) := by
  by_cases hok : (Runtime.psqCheckEnabled cpu indexed cia).1 = true ∧
      (Runtime.psqAccessIsValid cpu (Runtime.loadType cpu gqrIndex) ea cia).1 = true
  · have hsize : Runtime.psqTypeSize (Runtime.loadType cpu gqrIndex) ≠ 0 :=
      (Smc.psqAccessIsValid_iff.mp hok.2).1
    rw [Runtime.psqLoad_valid hok.1 hok.2]
    simp only [Runtime.psqLoadValue_setFpr]
    generalize Runtime.loadType cpu gqrIndex = type at hsize ⊢
    generalize Runtime.loadScale cpu gqrIndex = scale
    obtain ⟨first,hfirst,hea,hwidth,hvalue⟩ := @load_access dev host cpu type hsize ea scale
    obtain ⟨history,hstate⟩ := @Runtime.psqLoadValue_state (converting dev) host cpu ea type scale
    rw [hstate] at hfirst ⊢
    obtain ⟨second,hsecond,hea',hwidth',hvalue'⟩ := @load_access dev host { cpu with history }
      type hsize (Runtime.laneAddress type ea) scale
    obtain ⟨history',hstate'⟩ := @Runtime.psqLoadValue_state (converting dev) host
      { cpu with history } (Runtime.laneAddress type ea) type scale
    rw [hstate'] at hsecond ⊢
    refine ⟨first,second,hsize,?_,?_,⟨hea,hwidth⟩,⟨hea',hwidth'⟩,?_,fun hw => ?_⟩
    · cases w with
      | true => exact hfirst
      | false => exact hsecond.trans (congrArg (second :: ·) hfirst)
    · cases w <;> rfl
    · rw [← hvalue]
      cases w <;> exact Function.update_self ..
    · subst hw
      rw [← hvalue']
      exact Function.update_self ..
  · exact absurd (Runtime.psqLoad_stopped fr w hok).1 (by rw [h]; exact Bool.noConfusion)

/-- A quantised load and a quantised store of one register copy the bytes of the lanes, exactly
unless they are a denormal or a signalling NaN that is not quantised. -/
theorem psq_copies_iff (dev : Devices) (host : Host) (cpu : CPUState) (fr : BitVec 5)
    (ea ea' cia cia' : BitVec 32) (w indexed indexed' : Bool) (gqrIndex : BitVec 3)
    (htype : Runtime.loadType cpu gqrIndex = Runtime.storeType cpu gqrIndex)
    (hscale : Runtime.loadScale cpu gqrIndex = Runtime.storeScale cpu gqrIndex)
    (hload : (Runtime.psqLoad (converting dev) host cpu fr ea w gqrIndex indexed cia).1 = true)
    (hstore : (Runtime.psqStore (converting dev)
      (Runtime.psqLoad (converting dev) host cpu fr ea w gqrIndex indexed cia).2
      fr ea' w gqrIndex indexed' cia').1 = true) :
    ∃ loads stores,
      let cpu' := (Runtime.psqLoad (converting dev) host cpu fr ea w gqrIndex indexed cia).2
      cpu'.history = loads ++ cpu.history ∧
      (Runtime.psqStore (converting dev) cpu' fr ea' w gqrIndex indexed' cia').2.history =
        stores ++ cpu'.history ∧
      (stores.reverse.map accessBytes = loads.reverse.map (fun access =>
          (access.ea - ea + ea',guestBytes access.width (access.value.truncate 32))) ↔
        (Runtime.storeType cpu gqrIndex = 0 →
          ∀ access ∈ loads, Kept (access.value.truncate 32))) := by
  obtain ⟨first,second,hsize,hhistory,hgqr,⟨hea,hwidth⟩,⟨hea',hwidth'⟩,hfpr,hps1⟩ :=
    psqLoad_reads hload
  generalize (Runtime.psqLoad (converting dev) host cpu fr ea w gqrIndex indexed cia).2 = cpu'
    at hstore hhistory hgqr hfpr hps1 ⊢
  obtain ⟨stores,hnew,hbytes⟩ := psqStore_writes hstore
  refine ⟨_,stores,hhistory,hnew,?_⟩
  have hmoved : Runtime.laneAddress (Runtime.loadType cpu gqrIndex) ea - ea + ea' =
      ea' + BitVec.ofNat 32 (Runtime.psqTypeSize (Runtime.loadType cpu gqrIndex)) := by
    rw [Runtime.laneAddress,BitVec.add_comm ea,BitVec.add_sub_cancel,BitVec.add_comm]
  have hself : ea - ea + ea' = ea' := by rw [BitVec.sub_self,BitVec.zero_add]
  obtain ⟨hlow,hhigh⟩ := gqrScale_range (cpu.gqr gqrIndex >>> 8)
  rw [htype] at hsize hwidth hwidth' hea' hfpr hps1 hmoved
  rw [hscale] at hfpr hps1
  have hfirst := loaded_lane_iff hsize hlow hhigh (first.value.truncate 32)
  have hsecond := loaded_lane_iff hsize hlow hhigh (second.value.truncate 32)
  rw [hbytes,hgqr,hfpr,ppcPsqStore,← storeType_eq]
  cases w with
  | true =>
    simp only [if_true,List.reverse_singleton,List.map_cons,List.map_nil,List.mem_singleton,
      forall_eq,hea,hwidth,hself,List.cons.injEq,Prod.mk.injEq,true_and,and_true]
    exact hfirst
  | false =>
    rw [hps1 rfl]
    simp only [Bool.false_eq_true,if_false,List.reverse_cons,List.reverse_nil,List.nil_append,
      List.singleton_append,List.map_cons,List.map_nil,List.mem_cons,List.not_mem_nil,or_false,
      forall_eq_or_imp,forall_eq,hea,hea',hwidth,hwidth',hself,hmoved,List.cons.injEq,
      Prod.mk.injEq,true_and,and_true]
    exact (and_congr hfirst hsecond).trans
      ⟨fun h h0 => ⟨h.2 h0,h.1 h0⟩,fun h => ⟨fun h0 => (h h0).2,fun h0 => (h h0).1⟩⟩

/-- A processor that loads and stores unsigned bytes with seven places behind the point. -/
def bytesCpu : CPUState := { cpuInit with hid2 := 0xA0000000, gqr := fun _ => 0x07040704 }

theorem psq_copies_bytes :
    ∃ loads stores,
      let cpu' := (Runtime.psqLoad (converting noDevices) {} bytesCpu 1 0x80001000 false 0 false
        0x80003100).2
      cpu'.history = loads ++ bytesCpu.history ∧
      (Runtime.psqStore (converting noDevices) cpu' 1 0x80002000 false 0 false
        0x80003104).2.history = stores ++ cpu'.history ∧
      (stores.reverse.map accessBytes = loads.reverse.map (fun access =>
          (access.ea - 0x80001000 + 0x80002000,
            guestBytes access.width (access.value.truncate 32))) ↔
        (Runtime.storeType bytesCpu 0 = 0 →
          ∀ access ∈ loads, Kept (access.value.truncate 32))) :=
  psq_copies_iff noDevices {} bytesCpu 1 0x80001000 0x80002000 0x80003100 0x80003104 false false
    false 0 (by decide) (by decide) (by decide) (by decide)

end

end QuantizedStores

end DolRecomp
