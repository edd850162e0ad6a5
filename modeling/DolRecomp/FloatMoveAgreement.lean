import DolRecomp.Agreement

/-!
# The two backends agree on floating-point moves but for the paired signs

The lowering changes the sign of both lanes in double precision. The emitted
statements take them through single precision and back.
-/

namespace DolRecomp

open Builder Emitter

theorem normalizeLoop_exp (fuel : ℕ) (frac exp : BitVec 64) :
    ∃ k ≤ fuel, (normalizeLoop fuel frac exp).2 = exp - BitVec.ofNat 64 k := by
  induction fuel generalizing frac exp with
  | zero => exact ⟨0,le_rfl,by simp [normalizeLoop]⟩
  | succ fuel ih =>
    rw [normalizeLoop]
    split
    · obtain ⟨k,hk,he⟩ := ih (frac <<< 1) (exp - 1)
      refine ⟨k + 1,Nat.succ_le_succ hk,?_⟩
      rw [he,BitVec.sub_sub,BitVec.add_comm,BitVec.ofNat_add]
      rfl
    · exact ⟨1,Nat.succ_le_succ (Nat.zero_le _),rfl⟩

theorem exp_and (x : BitVec 64) :
    ((x &&& 0x7FFFFFFF#64) >>> 23) &&& 0xFF#64 = (x >>> 23) &&& 0xFF#64 := by
  rw [BitVec.ushiftRight_and_distrib,BitVec.and_assoc]
  rfl

/-- The sign goes over as it is; the rest depends on the other bits. -/
theorem f32FromBits_sign (y : BitVec 32) : f32FromBits y =
    ((y.zeroExtend 64 &&& 0x80000000#64) <<< 32) ||| f32FromBits (y &&& 0x7FFFFFFF#32) := by
  have hx : (y &&& 0x7FFFFFFF#32).zeroExtend 64 = y.zeroExtend 64 &&& 0x7FFFFFFF#64 := by
    rw [BitVec.zeroExtend,BitVec.setWidth_and]
    rfl
  have hsplit : ∀ x : BitVec 64, (x &&& 0xC0000000#64) <<< 32 =
      ((x &&& 0x80000000#64) <<< 32) |||
        (((x &&& 0x7FFFFFFF#64) &&& 0xC0000000#64) <<< 32) := fun x => by
    rw [← BitVec.shiftLeft_or_distrib,BitVec.and_assoc,← BitVec.and_or_distrib_left]
    rfl
  have hlow : ∀ x : BitVec 64,
      (x &&& 0x7FFFFFFF#64) &&& 0x3FFFFFFF#64 = x &&& 0x3FFFFFFF#64 := fun x => by
    rw [BitVec.and_assoc]
    rfl
  have hfrac : ∀ x : BitVec 64,
      (x &&& 0x7FFFFFFF#64) &&& 0x007FFFFF#64 = x &&& 0x007FFFFF#64 := fun x => by
    rw [BitVec.and_assoc]
    rfl
  have hzero : ∀ x : BitVec 64,
      ((x &&& 0x7FFFFFFF#64) &&& 0x80000000#64) <<< 32 = 0#64 := fun x => by
    rw [BitVec.and_assoc,show (0x7FFFFFFF#64 &&& 0x80000000#64) = 0#64 from rfl,BitVec.and_zero,
      BitVec.zero_shiftLeft]
  simp only [f32FromBits,hx,exp_and,hlow,hfrac,hzero,BitVec.zero_or]
  generalize y.zeroExtend 64 = x
  split
  · rw [hsplit x]
    simp only [BitVec.or_assoc]
  · split
    · simp only [BitVec.or_assoc]
    · rw [hsplit x]
      simp only [BitVec.or_assoc]

theorem f32FromBits_top (y : BitVec 32) (hy : y.getLsbD 31 = false) :
    (f32FromBits y).getLsbD 63 = false := by
  have hx : ∀ n, 31 ≤ n → (y.zeroExtend 64).getLsbD n = false := fun n hn => by
    rcases Nat.eq_or_lt_of_le hn with rfl | hlt
    · simpa using hy
    · simp [BitVec.getLsbD_of_ge y n (by omega)]
  have hc : ∀ m : BitVec 64, ((y.zeroExtend 64 &&& m) <<< 32).getLsbD 63 = false := fun m => by
    rw [BitVec.getLsbD_shiftLeft,BitVec.getLsbD_and,hx 31 le_rfl]
    simp
  have hw : ((y.zeroExtend 64 &&& 0x3FFFFFFF#64) <<< 29).getLsbD 63 = false := by
    rw [BitVec.getLsbD_shiftLeft,BitVec.getLsbD_and,hx 34 (by omega)]
    simp
  have hz : ∀ e : BitVec 64, e.toNat < 4 →
      ((e <<< 61) ||| (e <<< 60) ||| (e <<< 59)).getLsbD 63 = false := fun e he => by
    have hbit : ∀ k, 2 ≤ k → e.getLsbD k = false := fun k hk => by
      have hpow : 2^2 ≤ 2^k := Nat.pow_le_pow_right (by omega) hk
      rw [← BitVec.testBit_toNat]
      exact Nat.testBit_lt_two_pow (he.trans_le hpow)
    simp only [BitVec.getLsbD_or,BitVec.getLsbD_shiftLeft,hbit _ (show 2 ≤ 63 - 61 by decide),
      hbit _ (show 2 ≤ 63 - 60 by decide),hbit _ (show 2 ≤ 63 - 59 by decide),Bool.and_false,
      Bool.or_false]
  simp only [f32FromBits]
  split
  · rw [BitVec.getLsbD_or,BitVec.getLsbD_or,hc,hw,hz]
    · rfl
    · split <;> decide
  · split
    · rw [BitVec.getLsbD_or,BitVec.getLsbD_or,hc]
      obtain ⟨k,hk,he⟩ := normalizeLoop_exp 23 (y.zeroExtend 64 &&& 0x007FFFFF#64) (1023 - 126)
      have hexp : ∀ k ≤ 23, ((1023 - 126 : BitVec 64) - BitVec.ofNat 64 k).getLsbD 11 = false := by
        decide
      rw [he,BitVec.getLsbD_shiftLeft,BitVec.getLsbD_shiftLeft,BitVec.getLsbD_and]
      rw [show 63 - 52 = 11 from rfl,hexp k hk]
      simp
    · rw [BitVec.getLsbD_or,BitVec.getLsbD_or,hc,hw,hz]
      · rfl
      · rw [BitVec.toNat_ushiftRight,BitVec.toNat_and,Nat.shiftRight_eq_div_pow]
        have := Nat.and_le_right (n := ((y.zeroExtend 64 >>> 23)).toNat) (m := (0xFF#64).toNat)
        have h255 : (0xFF#64).toNat = 255 := rfl
        omega

theorem f32FromBits_low (y : BitVec 32) {n : ℕ} (hn : n < 63) : (f32FromBits y).getLsbD n =
    (f32FromBits (y &&& 0x7FFFFFFF#32)).getLsbD n := by
  have hbits : ∀ n < 31, (0x80000000#64).getLsbD n = false := by decide
  rw [f32FromBits_sign,BitVec.getLsbD_or,BitVec.getLsbD_shiftLeft,BitVec.getLsbD_and,
    hbits (n - 32) (by omega)]
  simp

theorem f32FromBits_sign_bit (y : BitVec 32) : (f32FromBits y).getLsbD 63 = y.getLsbD 31 := by
  have htop : (y &&& 0x7FFFFFFF#32).getLsbD 31 = false := by
    rw [BitVec.getLsbD_and,show (0x7FFFFFFF#32).getLsbD 31 = false from rfl,Bool.and_false]
  rw [f32FromBits_sign,BitVec.getLsbD_or,f32FromBits_top _ htop]
  simp

theorem f32ToBits_sign_bit (x : BitVec 64) : (f32ToBits x).getLsbD 31 = x.getLsbD 63 := by
  have hdirect : ((((x >>> 32) &&& 0xC0000000#64) ||| ((x >>> 29) &&& 0x3FFFFFFF#64)).truncate
      32).getLsbD 31 = x.getLsbD 63 := by simp
  simp only [f32ToBits]
  split
  · exact hdirect
  next hbig =>
    split
    · generalize ((x >>> 52) &&& 0x7FF#64).truncate 32 = exp at hbig
      have hle : ¬ 896#32 < exp := fun h => hbig (.inl h)
      have hshift : 1 ≤ (905#32 - exp).toNat := by bv_omega
      replace hshift : 1 ≤ ((905 : BitVec 32) - exp).toNat := hshift
      rw [BitVec.getLsbD_or,BitVec.getLsbD_ushiftRight,
        BitVec.getLsbD_of_ge _ (((905 : BitVec 32) - exp).toNat + 31) (by omega)]
      simp
    · exact hdirect

/-- A change of the sign alone is made in double precision exactly when the rest survives single
precision. -/
theorem f32FromBits_eq_iff {y t : BitVec 32} {x z : BitVec 64}
    (hlow : y &&& 0x7FFFFFFF#32 = t &&& 0x7FFFFFFF#32) (hy : y.getLsbD 31 = z.getLsbD 63)
    (ht : t.getLsbD 31 = x.getLsbD 63) (hz : ∀ n < 63, z.getLsbD n = x.getLsbD n) :
    f32FromBits y = z ↔ f32FromBits t = x := by
  have key : ∀ {y : BitVec 32} {z : BitVec 64}, y.getLsbD 31 = z.getLsbD 63 →
      (f32FromBits y = z ↔ ∀ n < 63, (f32FromBits (y &&& 0x7FFFFFFF#32)).getLsbD n = z.getLsbD n) :=
    fun {y z} hy => by
    constructor
    · rintro rfl n hn
      exact (f32FromBits_low y hn).symm
    · intro h
      refine BitVec.eq_of_getLsbD_eq fun n hn => ?_
      rcases Nat.lt_or_ge n 63 with hlt | hge
      · exact (f32FromBits_low y hlt).trans (h n hlt)
      · obtain rfl : n = 63 := by omega
        exact (f32FromBits_sign_bit y).trans hy
  rw [key hy,key ht,hlow]
  exact forall₂_congr fun n hn => by rw [hz n hn]

/-- The lane comes back unchanged from single precision. -/
def Single (x : BitVec 64) : Prop := f32FromBits (f32ToBits x) = x

theorem mask_low (n : ℕ) (hn : n < 32) :
    (0x7FFFFFFF#32).getLsbD n = !(0x80000000#32).getLsbD n := by
  revert n
  decide

theorem signBit64_low (n : ℕ) (hn : n < 63) : signBit64.getLsbD n = false := by
  revert n
  decide

theorem not_signBit64_low (n : ℕ) (hn : n < 63) : (~~~signBit64).getLsbD n = true := by
  revert n
  decide

theorem lane_neg (x : BitVec 64) :
    f32FromBits (f32ToBits x ^^^ 0x80000000#32) = x ^^^ signBit64 ↔ Single x := by
  refine f32FromBits_eq_iff (BitVec.eq_of_getLsbD_eq fun n hn => ?_) ?_ (f32ToBits_sign_bit x)
    fun n hn => ?_
  · rw [BitVec.getLsbD_and,BitVec.getLsbD_and,BitVec.getLsbD_xor,mask_low n hn]
    cases (0x80000000#32).getLsbD n <;> simp
  · rw [BitVec.getLsbD_xor,BitVec.getLsbD_xor,f32ToBits_sign_bit]
    rfl
  · rw [BitVec.getLsbD_xor,signBit64_low n hn,Bool.xor_false]

theorem lane_abs (x : BitVec 64) :
    f32FromBits (f32ToBits x &&& 0x7FFFFFFF#32) = x &&& ~~~signBit64 ↔ Single x := by
  refine f32FromBits_eq_iff ?_ ?_ (f32ToBits_sign_bit x) fun n hn => ?_
  · rw [BitVec.and_assoc,BitVec.and_self]
  · rw [BitVec.getLsbD_and,BitVec.getLsbD_and,f32ToBits_sign_bit]
    rfl
  · rw [BitVec.getLsbD_and,not_signBit64_low n hn,Bool.and_true]

theorem lane_nabs (x : BitVec 64) :
    f32FromBits (f32ToBits x ||| 0x80000000#32) = (x &&& ~~~signBit64) ^^^ signBit64 ↔
      Single x := by
  refine f32FromBits_eq_iff (BitVec.eq_of_getLsbD_eq fun n hn => ?_) ?_ (f32ToBits_sign_bit x)
    fun n hn => ?_
  · rw [BitVec.getLsbD_and,BitVec.getLsbD_and,BitVec.getLsbD_or,mask_low n hn]
    cases (0x80000000#32).getLsbD n <;> simp
  · rw [BitVec.getLsbD_or,BitVec.getLsbD_xor,BitVec.getLsbD_and,f32ToBits_sign_bit]
    cases x.getLsbD 63 <;> rfl
  · rw [BitVec.getLsbD_xor,BitVec.getLsbD_and,signBit64_low n hn,not_signBit64_low n hn,
      Bool.and_true,Bool.xor_false]

def scalarMoveOps : List PPCOpcode := [.fmr,.fneg,.fabs,.fnabs]

def pairSignOps : List PPCOpcode := [.psNeg,.psAbs,.psNabs]

def pairMoveOps : List PPCOpcode :=
  pairSignOps ++ [.psMr,.psMerge00,.psMerge01,.psMerge10,.psMerge11]

/-- What the operators of the lowering make of one lane. -/
def moveLane (op : PPCOpcode) (x : BitVec 64) : BitVec 64 :=
  match op with
  | .fneg | .psNeg => x ^^^ signBit64
  | .fabs | .psAbs => x &&& ~~~signBit64
  | .fnabs | .psNabs => (x &&& ~~~signBit64) ^^^ signBit64
  | _ => x

variable (m : Machine) (i : PPCInst) (s : Point)

/-- The lanes that a paired move writes. -/
def movePair (cpu : CPUState) : BitVec 64 × BitVec 64 :=
  match i.op with
  | .psMerge00 => (cpu.fpr i.rA,cpu.fpr i.rB)
  | .psMerge01 => (cpu.fpr i.rA,cpu.ps1 i.rB)
  | .psMerge10 => (cpu.ps1 i.rA,cpu.fpr i.rB)
  | .psMerge11 => (cpu.ps1 i.rA,cpu.ps1 i.rB)
  | op => (moveLane op (cpu.fpr i.rB),moveLane op (cpu.ps1 i.rB))

namespace IRState

def setFpr (st : IRState) (r : BitVec 5) (v : BitVec 64) : IRState :=
  { st with cpu := st.cpu.setFpr r v }

def setPs1 (st : IRState) (r : BitVec 5) (v : BitVec 64) : IRState :=
  { st with cpu := st.cpu.setPs1 r v }

def recordCr1 (i : PPCInst) (st : IRState) : IRState :=
  if i.rc then st.setCrField 1 ((st.cpu.fpscr >>> 28) &&& 0xF#32) else st

@[simp] theorem readSlot_fpr (st : IRState) (r : BitVec 5) :
    st.readSlot (.fpr r) = .f64 (st.cpu.fpr r) := rfl

@[simp] theorem readSlot_ps1 (st : IRState) (r : BitVec 5) :
    st.readSlot (.ps1 r) = .f64 (st.cpu.ps1 r) := rfl

@[simp] theorem readSlot_fpscr (st : IRState) : st.readSlot .fpscr = .i32 st.cpu.fpscr := rfl

@[simp] theorem writeSlot_fpr (st : IRState) (r : BitVec 5) (v : BitVec 64) :
    st.writeSlot (.fpr r) (.f64 v) = some (st.setFpr r v) := rfl

@[simp] theorem writeSlot_ps1 (st : IRState) (r : BitVec 5) (v : BitVec 64) :
    st.writeSlot (.ps1 r) (.f64 v) = some (st.setPs1 r v) := rfl

theorem commit_setFpr (st : IRState) (r : BitVec 5) (v : BitVec 64) :
    (st.setFpr r v).commit = st.commit.setFpr r v := by cases st; rfl

theorem commit_setPs1 (st : IRState) (r : BitVec 5) (v : BitVec 64) :
    (st.setPs1 r v).commit = st.commit.setPs1 r v := by cases st; rfl

theorem commit_recordCr1 (i : PPCInst) (st : IRState) :
    (st.recordCr1 i).commit = Emitter.recordCr1 i st.commit := by
  unfold recordCr1 Emitter.recordCr1
  split
  · have h : ((st.cpu.fpscr >>> 28) &&& 0xF#32) &&& 0xF#32 = (st.cpu.fpscr >>> 28) &&& 0xF#32 := by
      rw [BitVec.and_assoc,BitVec.and_self]
    rw [commit_setCrField st 1 h]
    have hshift : ((st.cpu.fpscr >>> 28) &&& 0xF#32) <<< 24 =
        (st.cpu.fpscr >>> 4) &&& 0x0F000000#32 := by
      have hbits : ∀ n < 32, (0x0F000000#32).getLsbD n =
          (decide (24 ≤ n) && (0xF#32).getLsbD (n - 24)) := by decide
      refine BitVec.eq_of_getLsbD_eq fun n hn => ?_
      rw [BitVec.getLsbD_shiftLeft,BitVec.getLsbD_and,BitVec.getLsbD_and,BitVec.getLsbD_ushiftRight,
        BitVec.getLsbD_ushiftRight,hbits n hn]
      by_cases h24 : 24 ≤ n
      · rw [show 28 + (n - 24) = 4 + n by omega]
        simp [hn,h24]
      · simp [h24,Nat.lt_of_not_le h24]
    show ({ st.commit with
      cr := (st.commit.cr &&& 0xF0FFFFFF#32) ||| (((st.cpu.fpscr >>> 28) &&& 0xF#32) <<< 24) } :
        CPUState) = _
    rw [hshift]
    rfl
  · rfl

end IRState

@[simp] theorem evalUnary_sign (op : DolIROp) (h : op = .fneg ∨ op = .fabs) (x : BitVec 64) :
    evalUnary op .f64 (.f64 x) = (signOp op x).map .f64 := by
  rcases h with rfl | rfl <;> rfl

@[simp] theorem evalUnary_signs (op : DolIROp) (h : op = .fneg ∨ op = .fabs)
    (x y : BitVec 64) : evalUnary op .v2f64 (.v2f64 x y) =
      (signOp op x).bind fun x => (signOp op y).map fun y => .v2f64 x y := by
  rcases h with rfl | rfl <;> rfl

@[simp] theorem evalUnary_vectorExtract (lane : ℕ) (x y : BitVec 64) :
    evalUnary (.vectorExtract lane) .f64 (.v2f64 x y) = [x,y][lane]?.map .f64 := rfl

@[simp] theorem evalBinary_vectorBuild (x y : BitVec 64) :
    evalBinary .vectorBuild .v2f64 (.f64 x) (.f64 y) = some (.v2f64 x y) := rfl

@[simp] theorem evalBinary_vectorShuffle (left right : ℕ) (a b c d : BitVec 64) :
    evalBinary (.vectorShuffle left right) .v2f64 (.v2f64 a b) (.v2f64 c d) =
      match [a,b,c,d][left]?, [a,b,c,d][right]? with
      | some x, some y => some (.v2f64 x y)
      | _, _ => none := rfl

theorem effect_recordCr1 : effect m (Builder.recordCr1 i) i s =
    .next ((),s.st.recordCr1 i) := by
  cases h : i.rc with
  | false => simp [Builder.recordCr1,IRState.recordCr1,h]
  | true =>
    simp [Builder.recordCr1,IRState.recordCr1,h,setCr1FromFpscr,writeCrField,intOp_lshr,
      BitVec.and_assoc]

theorem effect_lowerMove (v : DolIRValue) (x : BitVec 64) (hv : s.env v = some (.f64 x)) :
    effect m (lowerMove i v) i s = .next (true,(s.st.setFpr i.rD x).recordCr1 i) := by
  simp [lowerMove,hv,effect_recordCr1]

theorem effect_lowerPairMove (v : DolIRValue) (x y : BitVec 64) (hlt : v < s.next)
    (hv : s.env v = some (.v2f64 x y)) :
    effect m (lowerPairMove i v) i s =
      .next (true,((s.st.setFpr i.rD x).setPs1 i.rD y).recordCr1 i) := by
  have h0 : v ≠ s.next := Nat.ne_of_lt hlt
  simp [lowerPairMove,setPair,vectorLane,hv,h0,effect_recordCr1]

theorem lowerFloat_move (ho : i.op ∈ scalarMoveOps) : effect m (lowerFloat i) i s =
    .next (true,(s.st.setFpr i.rD (moveLane i.op (s.st.cpu.fpr i.rB))).recordCr1 i) := by
  simp only [scalarMoveOps,List.mem_cons,List.not_mem_nil,or_false] at ho
  rcases ho with ho | ho | ho | ho <;>
    simp [lowerFloat,ho,moveLane,effect_lowerMove,signOp]

def pairPoint (reg : BitVec 5) : Point :=
  ((s.push (.f64 (s.st.cpu.fpr reg))).push (.f64 (s.st.cpu.ps1 reg))).push
    (.v2f64 (s.st.cpu.fpr reg) (s.st.cpu.ps1 reg))

theorem run_pairValue (reg : BitVec 5) :
    run m (pairValue reg) i s = .next (s.next + 2,pairPoint s reg) := by
  simp [pairValue,pairPoint]

theorem lowerPaired_move (ho : i.op ∈ pairMoveOps) : effect m (lowerPaired i) i s =
    .next (true,((s.st.setFpr i.rD (movePair i s.st.cpu).1).setPs1 i.rD
      (movePair i s.st.cpu).2).recordCr1 i) := by
  simp only [pairMoveOps,pairSignOps,List.cons_append,List.nil_append,List.mem_cons,
    List.not_mem_nil,or_false] at ho
  rcases ho with ho | ho | ho | ho | ho | ho | ho | ho <;>
    (simp [lowerPaired,ho,movePair,moveLane,run_pairValue,pairPoint,signOp]
     exact effect_lowerPairMove m i _ _ _ _ (by simp) (by simp))

theorem ppcFpAvailable_fst (cpu : CPUState) (cia : BitVec 32) :
    (Runtime.ppcFpAvailable cpu cia).1 = decide (cpu.msr &&& Runtime.ppcMsrFp ≠ 0) := by
  unfold Runtime.ppcFpAvailable
  by_cases h : cpu.msr &&& Runtime.ppcMsrFp ≠ 0
  · rw [if_pos h,decide_eq_true h]
  · rw [if_neg h,decide_eq_false h]

theorem fpAvailable_run (address : BitVec 32) : m.execOp s.st
    (built (.helperCall .fpAvailable) .i1 (address.zeroExtend 64) i) [] =
    if s.st.cpu.msr &&& Runtime.ppcMsrFp ≠ 0 then .next (some (.i1 true),s.st)
    else .exit (Runtime.ppcFpAvailable (s.st.materialize i.address) i.address).2 := by
  have hmsr : (s.st.materialize i.address).msr = s.st.cpu.msr := by
    rcases s.st with ⟨⟩
    rfl
  show (if (Runtime.ppcFpAvailable (s.st.materialize i.address) i.address).1 then
    Exec.next (some (Value.i1 true),s.st)
    else .exit (Runtime.ppcFpAvailable (s.st.materialize i.address) i.address).2) = _
  rw [ppcFpAvailable_fst,hmsr]
  by_cases hfp : s.st.cpu.msr &&& Runtime.ppcMsrFp ≠ 0
  · rw [if_pos hfp,if_pos (decide_eq_true hfp)]
  · rw [if_neg hfp,decide_eq_false hfp,if_neg Bool.false_ne_true]

/-- An instruction that uses the floating-point unit leaves native code where it is not available,
and falls through elsewhere. -/
theorem runBlock_float (chunk : ChunkRange) (index : ℕ) {st : IRState}
    (hd : i.embeddedData = false) (hf : ppcOpUsesFpu i.op = true)
    (hc : lowerControl chunk i = pure none)
    (h : ∀ s', s'.st = s.st → effect m (lowerInstruction i) i s' = .next (true,st)) :
    runBlock m i chunk index s = if s.st.cpu.msr &&& Runtime.ppcMsrFp ≠ 0 then
      .next (st.materialize (i.address + 4))
    else .exit (Runtime.ppcFpAvailable (s.st.materialize i.address) i.address).2 := by
  have hcall : run m (dolirAppend (.helperCall .fpAvailable) .i1 [] (i.address.zeroExtend 64)) i s =
      if s.st.cpu.msr &&& Runtime.ppcMsrFp ≠ 0 then .next (s.next,s.push (.i1 true))
      else .exit (Runtime.ppcFpAvailable (s.st.materialize i.address) i.address).2 := by
    rw [run_value _ _ _ _ _ _ _ (by decide),operands_nil]
    show (m.execOp s.st (built (.helperCall .fpAvailable) .i1 (i.address.zeroExtend 64) i) [] >>=
      _) = _
    rw [fpAvailable_run]
    split <;> rfl
  by_cases hfp : s.st.cpu.msr &&& Runtime.ppcMsrFp ≠ 0
  · obtain ⟨s',hrun,hst⟩ := run_of_effect m i (s.push (.i1 true)) (h _ rfl)
    rw [if_pos hfp] at hcall ⊢
    simp only [runBlock,lowerBlock,hd,hf,hc,Bool.false_eq_true,if_false,if_true,run_bind,run_pure,
      Exec.next_bind,hcall,hrun,Machine.execTerminator,normalFallthrough,hst]
  · rw [if_neg hfp] at hcall ⊢
    simp only [runBlock,lowerBlock,hd,hf,Bool.false_eq_true,if_false,if_true,run_bind,hcall]
    rfl

def floatMoveOps : List PPCOpcode := scalarMoveOps ++ pairMoveOps

/-- The state that the lowering of a move leaves behind. -/
def movedState (st : IRState) : IRState :=
  if i.op ∈ scalarMoveOps then
    (st.setFpr i.rD (moveLane i.op (st.cpu.fpr i.rB))).recordCr1 i
  else ((st.setFpr i.rD (movePair i st.cpu).1).setPs1 i.rD (movePair i st.cpu).2).recordCr1 i

theorem lowerInstruction_float (h1 : lowerInteger i = pure false) (h2 : lowerMemory i = pure false)
    (h3 : lowerFloatMemory i = pure false) (h4 : lowerPsq i = pure false) {st : IRState}
    (h : effect m (lowerFloat i) i s = .next (true,st)) :
    effect m (lowerInstruction i) i s = .next (true,st) := by
  obtain ⟨s',hrun,hst⟩ := run_of_effect m i s h
  simp only [lowerInstruction,h1,h2,h3,h4,effect_bind,run_pure,Exec.next_bind,Bool.false_eq_true,
    if_false,hrun,if_true,effect_pure,hst]

theorem lowerInstruction_move (ho : i.op ∈ floatMoveOps) :
    effect m (lowerInstruction i) i s = .next (true,movedState i s.st) := by
  have hno : ∀ op ∈ floatMoveOps, i.op = op → lowerInteger i = pure false ∧
      lowerMemory i = pure false ∧ lowerFloatMemory i = pure false ∧ lowerPsq i = pure false ∧
      (op ∈ pairMoveOps → lowerFloat i = pure false) := by
    intro op hop h
    simp only [floatMoveOps,scalarMoveOps,pairMoveOps,pairSignOps,List.cons_append,List.nil_append,
      List.mem_cons,List.not_mem_nil,or_false] at hop
    rcases hop with rfl | rfl | rfl | rfl | rfl | rfl | rfl | rfl | rfl | rfl | rfl | rfl
    all_goals
      refine ⟨by simp only [lowerInteger,h],by simp only [lowerMemory,memoryForm,h],
        by simp only [lowerFloatMemory,floatMemoryForm,h,reduceCtorEq,if_false],
        by simp only [lowerPsq,psqForm,h],fun hp => ?_⟩
      first | exact absurd hp (by decide) | simp only [lowerFloat,exactFloatOf,h]
  obtain ⟨h1,h2,h3,h4,h5⟩ := hno i.op ho rfl
  by_cases hs : i.op ∈ scalarMoveOps
  · rw [movedState,if_pos hs]
    exact lowerInstruction_float m i s h1 h2 h3 h4 (lowerFloat_move m i s hs)
  · have hp : i.op ∈ pairMoveOps := (List.mem_append.mp ho).resolve_left hs
    obtain ⟨s',hrun,hst⟩ := run_of_effect m i s (lowerPaired_move m i s hp)
    simp only [lowerInstruction,h1,h2,h3,h4,h5 hp,effect_bind,run_pure,Exec.next_bind,
      Bool.false_eq_true,if_false,hrun,if_true,effect_pure,hst,movedState,if_neg hs]

theorem floatMoveOps_plain (ho : i.op ∈ floatMoveOps) (chunk : ChunkRange) :
    ppcOpUsesFpu i.op = true ∧ lowerControl chunk i = pure none ∧
      ∀ cfg cpu, emitStatements cfg i cpu = .next (emitFloatMove i cpu) := by
  have hf : ∀ op ∈ floatMoveOps, ppcOpUsesFpu op = true := by decide
  refine ⟨hf _ ho,?_,?_⟩
  · unfold lowerControl
    split
    case h_7 => rfl
    all_goals rename_i hop; exact absurd (hop ▸ ho) (by decide)
  · intro cfg cpu
    simp only [floatMoveOps,scalarMoveOps,pairMoveOps,pairSignOps,List.cons_append,
      List.nil_append,List.mem_cons,List.not_mem_nil,or_false] at ho
    repeat' obtain ho | ho := ho
    all_goals simp only [emitStatements,ho]

def emitLane (op : PPCOpcode) (x : BitVec 64) : BitVec 64 :=
  match op with
  | .psNeg => f32FromBits (f32ToBits x ^^^ 0x80000000#32)
  | .psAbs => f32FromBits (f32ToBits x &&& 0x7FFFFFFF#32)
  | .psNabs => f32FromBits (f32ToBits x ||| 0x80000000#32)
  | _ => x

theorem emitLane_eq_iff {op : PPCOpcode} (ho : op ∈ pairSignOps) (x : BitVec 64) :
    moveLane op x = emitLane op x ↔ Single x := by
  simp only [pairSignOps,List.mem_cons,List.not_mem_nil,or_false] at ho
  rw [eq_comm]
  rcases ho with rfl | rfl | rfl
  · exact lane_neg x
  · exact lane_abs x
  · exact lane_nabs x

def emitPair (cpu : CPUState) : BitVec 64 × BitVec 64 :=
  if i.op ∈ pairSignOps then (emitLane i.op (cpu.fpr i.rB),emitLane i.op (cpu.ps1 i.rB))
  else movePair i cpu

theorem emitFloatMove_pair (ho : i.op ∈ pairMoveOps) (cpu : CPUState) : emitFloatMove i cpu =
    Emitter.recordCr1 i ((cpu.setFpr i.rD (emitPair i cpu).1).setPs1 i.rD (emitPair i cpu).2) := by
  simp only [pairMoveOps,pairSignOps,List.cons_append,List.nil_append,List.mem_cons,
    List.not_mem_nil,or_false] at ho
  rcases ho with ho | ho | ho | ho | ho | ho | ho | ho
  all_goals
    simp only [emitFloatMove,emitPair,movePair,pairSignOps,emitLane,moveLane,emitPairedSign,
      emitPsMerge,ho]
    rfl

theorem or_signBit64 (x : BitVec 64) :
    x ||| 0x8000000000000000#64 = (x &&& ~~~signBit64) ^^^ signBit64 := by
  refine BitVec.eq_of_getLsbD_eq fun n hn => ?_
  show _ = ((x &&& ~~~0x8000000000000000#64) ^^^ 0x8000000000000000#64).getLsbD n
  rw [BitVec.getLsbD_or,BitVec.getLsbD_xor,BitVec.getLsbD_and,BitVec.getLsbD_not]
  cases x.getLsbD n <;> cases (0x8000000000000000#64).getLsbD n <;> simp [hn]

theorem emitFloatMove_scalar (ho : i.op ∈ scalarMoveOps) (cpu : CPUState) : emitFloatMove i cpu =
    Emitter.recordCr1 i (cpu.setFpr i.rD (moveLane i.op (cpu.fpr i.rB))) := by
  simp only [scalarMoveOps,List.mem_cons,List.not_mem_nil,or_false] at ho
  rcases ho with ho | ho | ho | ho
  all_goals simp only [emitFloatMove,moveLane,ho]
  · rfl
  · rfl
  · rw [or_signBit64]

theorem recordCr1_lanes (cpu : CPUState) : (Emitter.recordCr1 i cpu).fpr = cpu.fpr ∧
    (Emitter.recordCr1 i cpu).ps1 = cpu.ps1 := by
  unfold Emitter.recordCr1
  split <;> exact ⟨rfl,rfl⟩

theorem movePair_eq_iff (cpu : CPUState) :
    movePair i cpu = emitPair i cpu ↔
      (i.op ∉ pairSignOps ∨ (Single (cpu.fpr i.rB) ∧ Single (cpu.ps1 i.rB))) := by
  by_cases hs : i.op ∈ pairSignOps
  · have hm : movePair i cpu = (moveLane i.op (cpu.fpr i.rB),moveLane i.op (cpu.ps1 i.rB)) := by
      simp only [pairSignOps,List.mem_cons,List.not_mem_nil,or_false] at hs
      rcases hs with hs | hs | hs <;> simp only [movePair,hs]
    rw [hm,emitPair,if_pos hs,Prod.mk.injEq,emitLane_eq_iff hs,emitLane_eq_iff hs]
    simp [hs]
  · simp [emitPair,hs]

/-- Committed, a lowered move is the emitted one exactly when the lanes are. -/
theorem movedState_eq_iff (ho : i.op ∈ floatMoveOps) (st : IRState) (pc : BitVec 32) :
    (movedState i st).materialize pc = { emitFloatMove i st.commit with pc } ↔
      (i.op ∉ pairSignOps ∨ (Single (st.commit.fpr i.rB) ∧ Single (st.commit.ps1 i.rB))) := by
  have hfpr : st.commit.fpr = st.cpu.fpr := by rcases st with ⟨⟩; rfl
  have hps1 : st.commit.ps1 = st.cpu.ps1 := by rcases st with ⟨⟩; rfl
  by_cases hs : i.op ∈ scalarMoveOps
  · have hno : i.op ∉ pairSignOps := by
      have : ∀ op ∈ scalarMoveOps, op ∉ pairSignOps := by decide
      exact this _ hs
    simp only [hno,not_false_eq_true,true_or,iff_true]
    rw [IRState.materialize,movedState,if_pos hs,IRState.commit_recordCr1,IRState.commit_setFpr,
      emitFloatMove_scalar i hs,hfpr]
  · have hp : i.op ∈ pairMoveOps := (List.mem_append.mp ho).resolve_left hs
    have hmove : movePair i st.cpu = movePair i st.commit := by
      unfold movePair
      rw [hfpr,hps1]
    rw [← movePair_eq_iff i,IRState.materialize,movedState,if_neg hs,IRState.commit_recordCr1,
      IRState.commit_setPs1,IRState.commit_setFpr,emitFloatMove_pair i hp,hmove]
    constructor
    · intro h
      have h1 := congrArg (fun cpu : CPUState => cpu.fpr i.rD) h
      have h2 := congrArg (fun cpu : CPUState => cpu.ps1 i.rD) h
      simp only [recordCr1_lanes,CPUState.setPs1,CPUState.setFpr,Function.update_self] at h1 h2
      exact Prod.ext h1 h2
    · intro h
      rw [h]

/-- Executed as a block and as emitted statements, an instruction ends in one state. -/
def MoveAgrees (cfg : EmitConfig) (block : DolIRBlock) (cpu : CPUState) : Prop :=
  (m.execBlock block cpu).result = some ((emitInstruction cfg i cpu).nextState i.address)

theorem runBlock_move (cfg : EmitConfig) (chunk : ChunkRange) (index : ℕ)
    (hd : i.embeddedData = false) (ho : i.op ∈ floatMoveOps) :
    (runBlock m i chunk index s).result =
        some ((emitInstruction cfg i s.st.commit).nextState i.address) ↔
      (s.st.commit.msr &&& Runtime.ppcMsrFp = 0 ∨ i.op ∉ pairSignOps ∨
        (Single (s.st.commit.fpr i.rB) ∧ Single (s.st.commit.ps1 i.rB))) := by
  obtain ⟨hf,hc,he⟩ := floatMoveOps_plain i ho chunk
  have hmsr : s.st.commit.msr = s.st.cpu.msr := by rcases s.st with ⟨⟩; rfl
  have hemit : emitInstruction cfg i s.st.commit =
      if (Runtime.ppcFpAvailable s.st.commit i.address).1 then .next (emitFloatMove i
        (Runtime.ppcFpAvailable s.st.commit i.address).2)
      else .ret (Runtime.ppcFpAvailable s.st.commit i.address).2 := by
    rw [emitInstruction,hd,hf,if_neg Bool.false_ne_true,if_pos rfl]
    simp only [he]
  have hrun := runBlock_float m i s chunk index hd hf hc fun s' hs =>
    (hs ▸ lowerInstruction_move m i s' ho)
  rw [hrun,hemit,ppcFpAvailable_fst,hmsr]
  by_cases hfp : s.st.cpu.msr &&& Runtime.ppcMsrFp ≠ 0
  · have hcpu : (Runtime.ppcFpAvailable s.st.commit i.address).2 = s.st.commit := by
      unfold Runtime.ppcFpAvailable
      rw [hmsr,if_pos hfp]
    rw [if_pos hfp,if_pos (decide_eq_true hfp),hcpu,← movedState_eq_iff i ho s.st (i.address + 4)]
    simp only [Exec.result,CFlow.nextState,Option.some.injEq]
    exact (or_iff_right hfp).symm
  · rw [if_neg hfp,decide_eq_false hfp,if_neg Bool.false_ne_true]
    simp only [Exec.result,CFlow.nextState,Option.some.injEq]
    refine iff_of_true ?_ (.inl (not_not.mp hfp))
    unfold Runtime.ppcFpAvailable
    have hmat : (s.st.materialize i.address).msr = s.st.cpu.msr := hmsr
    rw [hmat,hmsr,if_neg hfp,if_neg hfp]
    rfl

theorem execBlock_move (cfg : EmitConfig) (insts : List PPCInst) (guestStart : BitVec 32)
    (k : ℕ) (raw address : BitVec 32) (hk : insts[k]? = some (ppcDecode raw address))
    (ho : (ppcDecode raw address).op ∈ floatMoveOps) :
    ∃ block, (buildFunction insts guestStart).blocks[k]? = some block ∧
      ∀ cpu, MoveAgrees m (ppcDecode raw address) cfg block cpu ↔
        (cpu.msr &&& Runtime.ppcMsrFp = 0 ∨ (ppcDecode raw address).op ∉ pairSignOps ∨
          (Single (cpu.fpr (ppcDecode raw address).rB) ∧
            Single (cpu.ps1 (ppcDecode raw address).rB))) := by
  obtain ⟨block,next,h,hb,hrun⟩ := execBlock_built m (ppcDecode raw address) insts guestStart k hk
  refine ⟨block,hb,fun cpu => ?_⟩
  have hc : (start next h cpu).st.commit = cpu := commit_load cpu
  have := runBlock_move m (ppcDecode raw address) (start next h cpu) cfg
    (chunkRange insts guestStart) k (ppcDecode_embeddedData raw address) ho
  rw [hc] at this
  rw [MoveAgrees,hrun]
  exact this

/-- A floating-point move leaves the same state in both backends, except that the statements of
the paired sign instructions take each lane through single precision. -/
theorem float_move_agreement (cfg : EmitConfig) (insts : List PPCInst) (guestStart : BitVec 32)
    (k : ℕ) (raw address : BitVec 32) (hk : insts[k]? = some (ppcDecode raw address))
    (ho : (ppcDecode raw address).op ∈ floatMoveOps) (cpu : CPUState) :
    ∃ block, (buildFunction insts guestStart).blocks[k]? = some block ∧
      (MoveAgrees m (ppcDecode raw address) cfg block cpu ↔
        (cpu.msr &&& Runtime.ppcMsrFp = 0 ∨ (ppcDecode raw address).op ∉ pairSignOps ∨
          (Single (cpu.fpr (ppcDecode raw address).rB) ∧
            Single (cpu.ps1 (ppcDecode raw address).rB)))) := by
  obtain ⟨block,hb,h⟩ := execBlock_move m cfg insts guestStart k raw address hk ho
  exact ⟨block,hb,h cpu⟩

/-- The first lane of `f2` is one, and floating point is on. -/
def oneInLane : CPUState :=
  { cpuInit.setFpr 2 0x3FF0000000000000#64 with msr := 0x2000 }

/-- `ps_neg f1,f2` of singles. -/
theorem float_move_agreement_psNeg :
    ∃ block, (buildFunction [ppcDecode 0x10201050 0x80003100] 0x80003100).blocks[0]? = some block ∧
      MoveAgrees { host := {} } (ppcDecode 0x10201050 0x80003100) (.single {}) block
        oneInLane := by
  obtain ⟨block,hb,hagree⟩ := float_move_agreement { host := {} } (.single {})
    [ppcDecode 0x10201050 0x80003100] 0x80003100 0 _ _ rfl (by decide) oneInLane
  exact ⟨block,hb,hagree.mpr (.inr (.inr ⟨by unfold Single; decide,by unfold Single; decide⟩))⟩

/-- The first lane of `f2` is the double after one; single precision has no room for it. -/
def pastOne : CPUState :=
  { cpuInit.setFpr 2 0x3FF0000000000001#64 with msr := 0x2000 }

/-- `ps_neg f1,f2`: the emitted statements round to one. -/
theorem float_move_disagreement_psNeg :
    ∃ block, (buildFunction [ppcDecode 0x10201050 0x80003100] 0x80003100).blocks[0]? = some block ∧
      ¬MoveAgrees { host := {} } (ppcDecode 0x10201050 0x80003100) (.single {}) block pastOne := by
  obtain ⟨block,hb,hagree⟩ := execBlock_move { host := {} } (.single {})
    [ppcDecode 0x10201050 0x80003100] 0x80003100 0 0x10201050 0x80003100 rfl (by decide)
  refine ⟨block,hb,fun h => ?_⟩
  rcases (hagree pastOne).mp h with h | h | h
  · exact absurd h (by decide)
  · exact absurd h (by decide)
  · exact absurd h.1 (by unfold Single; decide)

end DolRecomp
