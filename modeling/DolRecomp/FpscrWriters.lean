import DolRecomp.FloatMoveAgreement
import DolRecomp.FpHelpers

/-!
# Writers of the FPSCR

Which of them leave the summary bits right. The statements of `mtfsb0` and `mtfsb1` in the emitted C
change a bit and work nothing out.
-/

namespace DolRecomp

open Builder Emitter

namespace Fpscr

def fpscrOps : List PPCOpcode := [.mtfsb0,.mtfsb1,.mcrfs,.mtfsfi,.mtfsf]

section

variable (m : Machine) (i : PPCInst)

@[simp] theorem writeSlot_fpscr (st : IRState) (v : BitVec 32) : st.writeSlot .fpscr (.i32 v) =
    some { st with cpu := { st.cpu with fpscr := v } } := rfl

@[simp] theorem evalUnary_bitcast (x : BitVec 64) :
    evalUnary .bitcast .i64 (.f64 x) = some (.i64 x) := rfl

theorem run_fpscrUpdated (s : Point) : run m Builder.fpscrUpdated i s =
    .next ((),s.withSt { s.st with cpu := Runtime.ppcFpscrControlUpdated s.st.cpu }) := by
  rw [Builder.fpscrUpdated,helper,run_bind',run_void,operands_nil]
  rfl

/-- `mtfsb0` or `mtfsb1`, by the descriptor of the call. -/
def fpscrBitOp (cpu : CPUState) (imm : BitVec 64) : CPUState :=
  if imm.getLsbD 8 then Runtime.ppcMtfsb1Op cpu (imm.truncate 5)
  else Runtime.ppcMtfsb0Op cpu (imm.truncate 5)

theorem run_fpscrBit (s : Point) (imm : BitVec 64) : run m (helper .fpscrBit [] imm) i s =
    .next ((),s.withSt { s.st with cpu := fpscrBitOp s.st.cpu imm }) := by
  rw [helper,run_bind',run_void,operands_nil]
  rfl

/-- The FPSCR that the lowering leaves: its summary is right, whatever it was. -/
structure LoweredFpscr (i : PPCInst) (cpu : CPUState) (y : BitVec 32) : Prop where
  consistent : Consistent y
  mtfsb1 : i.op = .mtfsb1 → y = (Runtime.ppcMtfsb1Op cpu i.rD).fpscr
  mcrfs : i.op = .mcrfs → y = Runtime.fpscrUpdated
    (cpu.fpscr &&& ~~~((0xF#32 <<< Builder.crFieldShift i.crfS) &&& 0x83F80700#32))

theorem lowered_fpscrBit (cpu : CPUState) (ho : i.op = .mtfsb0 ∨ i.op = .mtfsb1) :
    LoweredFpscr i cpu (fpscrBitOp cpu (i.rD.zeroExtend 64 |||
      ((BitVec.ofBool (i.op = .mtfsb1)).zeroExtend 64 <<< 8))).fpscr := by
  refine ⟨?_,fun h => ?_,fun h => ?_⟩
  · unfold fpscrBitOp
    split <;> exact consistent_fpscrUpdated _
  · have hbit : (i.rD.zeroExtend 64 ||| (1#64 <<< 8)).getLsbD 8 = true := by
      rw [BitVec.getLsbD_or,show (1#64 <<< 8).getLsbD 8 = true from rfl,Bool.or_true]
    have hlow : (i.rD.zeroExtend 64 ||| (1#64 <<< 8)).truncate 5 = i.rD := by
      refine BitVec.eq_of_getLsbD_eq fun n hn => ?_
      simp [hn]
    rw [decide_eq_true h,show (BitVec.ofBool true).zeroExtend 64 = 1#64 from rfl,fpscrBitOp,
      if_pos hbit,hlow]
  · rcases ho with ho | ho <;> rw [ho] at h <;> cases h

theorem recordCr1_fpscr (st : IRState) : (st.recordCr1 i).cpu.fpscr = st.cpu.fpscr := by
  unfold IRState.recordCr1
  split <;> rfl

/-- The lowering has the summary worked out, whatever it was. -/
theorem lowerFloat_fpscr (ho : i.op ∈ fpscrOps) (st : IRState) :
    ∃ st', (∀ s : Point, s.st = st → effect m (lowerFloat i) i s = .next (true,st')) ∧
      LoweredFpscr i st.cpu st'.cpu.fpscr := by
  simp only [fpscrOps,List.mem_cons,List.not_mem_nil,or_false] at ho
  rcases ho with ho | ho | ho | ho | ho
  · refine ⟨_,fun s hs => by simp [lowerFloat,ho,hs,run_fpscrBit,effect_recordCr1]; rfl,?_⟩
    rw [recordCr1_fpscr]
    simpa [ho] using lowered_fpscrBit i st.cpu (.inl ho)
  · refine ⟨_,fun s hs => by simp [lowerFloat,ho,hs,run_fpscrBit,effect_recordCr1]; rfl,?_⟩
    rw [recordCr1_fpscr]
    have hlow := lowered_fpscrBit i st.cpu (.inr ho)
    rw [ho] at hlow
    exact hlow
  · have hlt : (BitVec.ofNat 32 (Builder.crFieldShift i.crfS)).toNat < 32 := by
      rw [BitVec.toNat_ofNat,Builder.crFieldShift]
      omega
    refine ⟨_,fun s hs => by
      simp [lowerFloat,ho,hs,run_fpscrUpdated,writeCrField,intOp_lshr _ _ hlt]
      rfl,?_⟩
    exact ⟨consistent_fpscrUpdated _,fun h => (by rw [ho] at h; cases h),fun _ => rfl⟩
  · refine ⟨_,fun s hs => by
      simp [lowerFloat,ho,hs,run_fpscrUpdated,insertMasked,effect_recordCr1]
      rfl,?_⟩
    rw [recordCr1_fpscr]
    exact ⟨consistent_fpscrUpdated _,fun h => (by rw [ho] at h; cases h),
      fun h => (by rw [ho] at h; cases h)⟩
  · refine ⟨_,fun s hs => by
      simp [lowerFloat,ho,hs,run_fpscrUpdated,insertMasked,effect_recordCr1]
      rfl,?_⟩
    rw [recordCr1_fpscr]
    exact ⟨consistent_fpscrUpdated _,fun h => (by rw [ho] at h; cases h),
      fun h => (by rw [ho] at h; cases h)⟩

theorem fpscrOps_plain (ho : i.op ∈ fpscrOps) (chunk : ChunkRange) :
    ppcOpUsesFpu i.op = true ∧ lowerControl chunk i = pure none ∧
      ∀ cfg cpu, emitStatements cfg i cpu = .next (emitFpscr i cpu) := by
  have hf : ∀ op ∈ fpscrOps, ppcOpUsesFpu op = true := by decide
  refine ⟨hf _ ho,?_⟩
  simp only [fpscrOps,List.mem_cons,List.not_mem_nil,or_false] at ho
  rcases ho with ho | ho | ho | ho | ho <;>
    exact ⟨by simp only [lowerControl,ho],fun cfg cpu => by simp only [emitStatements,ho]⟩

theorem lowerInstruction_fpscr (ho : i.op ∈ fpscrOps) (st : IRState) :
    ∃ st', (∀ s : Point, s.st = st → effect m (lowerInstruction i) i s = .next (true,st')) ∧
      LoweredFpscr i st.cpu st'.cpu.fpscr := by
  obtain ⟨st',heffect,hcons⟩ := lowerFloat_fpscr m i ho st
  refine ⟨st',fun s hs => ?_,hcons⟩
  simp only [fpscrOps,List.mem_cons,List.not_mem_nil,or_false] at ho
  refine lowerInstruction_float m i s ?_ ?_ ?_ ?_ (heffect s hs)
  · rcases ho with ho | ho | ho | ho | ho <;> simp only [lowerInteger,ho]
  · rcases ho with ho | ho | ho | ho | ho <;> simp only [lowerMemory,memoryForm,ho]
  · rcases ho with ho | ho | ho | ho | ho <;>
      simp only [lowerFloatMemory,floatMemoryForm,ho,reduceCtorEq,if_false]
  · rcases ho with ho | ho | ho | ho | ho <;> simp only [lowerPsq,psqForm,ho]

theorem ppcFpAvailable_fpscr (cpu : CPUState) (cia : BitVec 32) :
    (Runtime.ppcFpAvailable cpu cia).2.fpscr = cpu.fpscr := by
  unfold Runtime.ppcFpAvailable
  by_cases h : cpu.msr &&& Runtime.ppcMsrFp ≠ 0
  · rw [if_pos h]
  · rw [if_neg h]
    simp only [Runtime.ppcTakeException]

theorem runBlock_fpscr (chunk : ChunkRange) (index : ℕ) (s : Point) (hd : i.embeddedData = false)
    (ho : i.op ∈ fpscrOps) :
    ∃ cpu, (runBlock m i chunk index s).result = some cpu ∧
      if s.st.cpu.msr &&& Runtime.ppcMsrFp ≠ 0 then LoweredFpscr i s.st.cpu cpu.fpscr
      else cpu.fpscr = s.st.cpu.fpscr := by
  obtain ⟨hf,hcontrol,-⟩ := fpscrOps_plain i ho chunk
  obtain ⟨st',heffect,hcons⟩ := lowerInstruction_fpscr m i ho s.st
  rw [runBlock_float m i s chunk index hd hf hcontrol heffect]
  by_cases hfp : s.st.cpu.msr &&& Runtime.ppcMsrFp ≠ 0
  · simp only [if_pos hfp]
    exact ⟨_,rfl,hcons⟩
  · simp only [if_neg hfp]
    refine ⟨_,rfl,?_⟩
    rw [ppcFpAvailable_fpscr]
    rfl

end

/-- The statements of `mtfsb0` and `mtfsb1` leave VX or FEX behind. -/
def Stale (i : PPCInst) (x : BitVec 32) : Prop :=
  i.rD ≠ 1 ∧ i.rD ≠ 2 ∧
    ((i.op = .mtfsb0 ∧ StaleClear x (31 - i.rD.toNat)) ∨
      (i.op = .mtfsb1 ∧ StaleSet x (31 - i.rD.toNat)))

theorem emitRecordCr1_fpscr (i : PPCInst) (cpu : CPUState) :
    (Emitter.recordCr1 i cpu).fpscr = cpu.fpscr := by
  unfold Emitter.recordCr1
  split <;> rfl

theorem bitMask_getLsbD (b : BitVec 5) (n : ℕ) :
    (0x80000000#32 >>> b.toNat).getLsbD n = decide (n = 31 - b.toNat) := by
  have hb := b.isLt
  rw [BitVec.getLsbD_ushiftRight,BitVec.getLsbD,show (0x80000000#32).toNat = 2^31 from rfl,
    Nat.testBit_two_pow]
  exact decide_eq_decide.mpr ⟨fun h => by omega,fun h => by omega⟩

theorem and_not_bit (x : BitVec 32) (b : BitVec 5) (n : ℕ) :
    (x &&& ~~~(0x80000000#32 >>> b.toNat)).getLsbD n =
      (x.getLsbD n && !decide (n = 31 - b.toNat)) := by
  rw [BitVec.getLsbD_and,BitVec.getLsbD_not,bitMask_getLsbD]
  by_cases hn : n < 32
  · rw [decide_eq_true hn,Bool.true_and]
  · rw [BitVec.getLsbD_of_ge x n (by omega),Bool.false_and,Bool.false_and]

theorem consistent_emitMtfsb_iff (i : PPCInst) {cpu : CPUState} (hc : Consistent cpu.fpscr)
    (ho : i.op = .mtfsb0 ∨ i.op = .mtfsb1) :
    Consistent (emitMtfsb i cpu).fpscr ↔ ¬Stale i cpu.fpscr := by
  unfold emitMtfsb Stale
  by_cases hd : i.rD ≠ 1 ∧ i.rD ≠ 2
  · have hb := i.rD.isLt
    have hvx : 31 - i.rD.toNat ≠ vxBit := fun h => hd.2 (BitVec.eq_of_toNat_eq
      (show i.rD.toNat = 2 by rw [vxBit] at h; omega))
    have hfex : 31 - i.rD.toNat ≠ fexBit := fun h => hd.1 (BitVec.eq_of_toNat_eq
      (show i.rD.toNat = 1 by rw [fexBit] at h; omega))
    rw [if_pos hd]
    rcases ho with ho | ho
    · rw [consistent_clear_iff hc hvx hfex fun n => by
        rw [if_pos ho]
        exact and_not_bit _ _ n]
      exact not_congr ⟨fun h => ⟨hd.1,hd.2,.inl ⟨ho,h⟩⟩,fun h =>
        h.2.2.elim And.right fun h => absurd (ho.symm.trans h.1) (by decide)⟩
    · rw [consistent_set_iff hc hvx hfex fun n => by
        rw [if_neg (by rw [ho]; decide),BitVec.getLsbD_or,bitMask_getLsbD]]
      exact not_congr ⟨fun h => ⟨hd.1,hd.2,.inr ⟨ho,h⟩⟩,fun h =>
        h.2.2.elim (fun h => absurd (ho.symm.trans h.1) (by decide)) And.right⟩
  · rw [if_neg hd]
    exact iff_of_true hc fun h => hd ⟨h.1,h.2.1⟩

theorem consistent_emitFpscr_iff (i : PPCInst) {cpu : CPUState} (hc : Consistent cpu.fpscr)
    (ho : i.op ∈ fpscrOps) : Consistent (emitFpscr i cpu).fpscr ↔ ¬Stale i cpu.fpscr := by
  simp only [fpscrOps,List.mem_cons,List.not_mem_nil,or_false] at ho
  have hbit : i.op = .mtfsb0 ∨ i.op = .mtfsb1 →
      (Consistent (emitFpscr i cpu).fpscr ↔ ¬Stale i cpu.fpscr) := by
    intro ho
    have heq : emitFpscr i cpu = Emitter.recordCr1 i (emitMtfsb i cpu) := by
      unfold emitFpscr
      rcases ho with ho | ho <;> rw [ho]
    rw [heq,emitRecordCr1_fpscr]
    exact consistent_emitMtfsb_iff i hc ho
  have hother : i.op ≠ .mtfsb0 → i.op ≠ .mtfsb1 → ¬Stale i cpu.fpscr :=
    fun h0 h1 h => h.2.2.elim (fun h => h0 h.1) fun h => h1 h.1
  rcases ho with ho | ho | ho | ho | ho
  · exact hbit (.inl ho)
  · exact hbit (.inr ho)
  all_goals
    refine iff_of_true ?_ (hother (by rw [ho]; decide) (by rw [ho]; decide))
    unfold emitFpscr
    rw [ho]
  · exact consistent_fpscrUpdated _
  · show Consistent (Emitter.recordCr1 i (emitMtfsfi i cpu)).fpscr
    rw [emitRecordCr1_fpscr]
    exact consistent_fpscrUpdated _
  · show Consistent (Emitter.recordCr1 i (emitMtfsf i cpu)).fpscr
    rw [emitRecordCr1_fpscr]
    exact consistent_fpscrUpdated _

/-- The block of an instruction that was lowered for the LLVM backend. -/
theorem execBlock_fpscr (m : Machine) (insts : List PPCInst) (guestStart : BitVec 32) (k : ℕ)
    (i : PPCInst) (hk : insts[k]? = some i) (hd : i.embeddedData = false) (ho : i.op ∈ fpscrOps)
    (cpu : CPUState) :
    ∃ cpu', ((buildFunction insts guestStart).blocks[k]?.bind fun block =>
        (m.execBlock block cpu).result) = some cpu' ∧
      if cpu.msr &&& Runtime.ppcMsrFp ≠ 0 then LoweredFpscr i cpu cpu'.fpscr
      else cpu'.fpscr = cpu.fpscr := by
  obtain ⟨block,next,h,hb,hrun⟩ := execBlock_built m i insts guestStart k hk
  obtain ⟨cpu',hresult,hfpscr⟩ := runBlock_fpscr m i (chunkRange insts guestStart) k
    (start next h cpu) hd ho
  refine ⟨cpu',?_,hfpscr⟩
  rw [hb,Option.bind_some,hrun,hresult]

/-- Something that writes the FPSCR: an instruction as emitted C, an instruction of a block that
was built for the LLVM backend, or a helper that either of them calls. -/
inductive Writer
  | emitted (raw address : BitVec 32)
  | lowered (insts : List PPCInst) (guestStart : BitVec 32) (k : ℕ) (raw address : BitVec 32)
  | helper (call : ArithmeticHelper)

def Writer.Valid : Writer → Prop
  | .emitted raw address => (ppcDecode raw address).op ∈ fpscrOps
  | .lowered insts _ k raw address =>
    insts[k]? = some (ppcDecode raw address) ∧ (ppcDecode raw address).op ∈ fpscrOps
  | .helper _ => True

def Writer.run (m : Machine) (cfg : EmitConfig) (F : FloatOps) (cpu : CPUState) :
    Writer → Option CPUState
  | .emitted raw address =>
    some ((emitInstruction cfg (ppcDecode raw address) cpu).nextState address)
  | .lowered insts guestStart k _ _ =>
    (buildFunction insts guestStart).blocks[k]?.bind fun block => (m.execBlock block cpu).result
  | .helper call => some (call.run F cpu)

/-- The emitted C of `mtfsb0` or `mtfsb1`, where a change of the bit changes a summary. -/
def Writer.Stale (cpu : CPUState) : Writer → Prop
  | .emitted raw address =>
    cpu.msr &&& Runtime.ppcMsrFp ≠ 0 ∧ Fpscr.Stale (ppcDecode raw address) cpu.fpscr
  | _ => False

theorem emitInstruction_fpscr (cfg : EmitConfig) (i : PPCInst) (cpu : CPUState)
    (hd : i.embeddedData = false) (ho : i.op ∈ fpscrOps) :
    ((emitInstruction cfg i cpu).nextState i.address).fpscr =
      if cpu.msr &&& Runtime.ppcMsrFp ≠ 0 then (emitFpscr i cpu).fpscr else cpu.fpscr := by
  obtain ⟨hf,-,hstatements⟩ := fpscrOps_plain i ho (chunkRange [] 0)
  have hcpu := ppcFpAvailable_fpscr cpu i.address
  rw [emitInstruction,hd,hf,if_neg Bool.false_ne_true,if_pos rfl]
  simp only [hstatements,ppcFpAvailable_fst]
  by_cases hfp : cpu.msr &&& Runtime.ppcMsrFp ≠ 0
  · have hsame : (Runtime.ppcFpAvailable cpu i.address).2 = cpu := by
      unfold Runtime.ppcFpAvailable
      rw [if_pos hfp]
    rw [if_pos hfp,if_pos (decide_eq_true hfp),hsame]
    rfl
  · rw [if_neg hfp,decide_eq_false hfp,if_neg Bool.false_ne_true]
    exact hcpu

/-- A writer leaves the summary bits right exactly when it is not the emitted C of `mtfsb0` or
`mtfsb1` with a bit that a summary depends on. -/
theorem fpscr_summary_iff (m : Machine) (cfg : EmitConfig) (F : FloatOps) (cpu : CPUState)
    (w : Writer) (hw : w.Valid) (hc : Consistent cpu.fpscr) :
    (∃ cpu', w.run m cfg F cpu = some cpu' ∧ Consistent cpu'.fpscr) ↔ ¬w.Stale cpu := by
  cases w with
  | emitted raw address =>
    have hfpscr := emitInstruction_fpscr cfg (ppcDecode raw address) cpu
      (ppcDecode_embeddedData raw address) hw
    rw [ppcDecode_address] at hfpscr
    simp only [Writer.run,Option.some.injEq,exists_eq_left',Writer.Stale,hfpscr]
    by_cases hfp : cpu.msr &&& Runtime.ppcMsrFp ≠ 0
    · rw [if_pos hfp,consistent_emitFpscr_iff _ hc hw]
      exact not_congr ⟨fun h => ⟨hfp,h⟩,And.right⟩
    · rw [if_neg hfp]
      exact iff_of_true hc fun h => hfp h.1
  | lowered insts guestStart k raw address =>
    refine iff_of_true ?_ not_false
    obtain ⟨cpu',hrun,hfpscr⟩ := execBlock_fpscr m insts guestStart k (ppcDecode raw address) hw.1
      (ppcDecode_embeddedData raw address) hw.2 cpu
    refine ⟨cpu',hrun,?_⟩
    split at hfpscr
    · exact hfpscr.consistent
    · rw [hfpscr]
      exact hc
  | helper call => exact iff_of_true ⟨_,rfl,consistent_helper F hc call⟩ not_false

def floatInit : CPUState := { cpuInit with msr := 0x2000 }

theorem consistent_zero : Consistent 0 := by
  refine ⟨?_,?_⟩ <;> simp

/-- What a host computes of `+0`, and how it converts the results. -/
def zeroOps : FloatOps where
  add _ _ := 0
  sub _ _ := 0
  mul _ _ := 0
  div _ _ := fpQuietNan
  fma _ _ _ := 0
  fmod _ _ := fpQuietNan
  trunc _ := 0
  ceil _ := 0
  floor _ := 0
  lt _ _ := false
  le _ _ := true
  eq _ _ := true
  toSingle x := if isInf x then 0x7F800000 else if isNan x then 0x7FC00000 else 0
  fromSingle x :=
    if x = 0x7F800000 then 0x7FF0000000000000 else if x = 0x7FC00000 then fpQuietNan else 0
  toWord _ := 0
  approxReciprocal _ := 0x7FF0000000000000
  approxRsqrt _ := 0x7FF0000000000000

theorem fpscr_summary_iff_mtfsb1 :
    (∃ cpu', (Writer.emitted 0xFCE0004C 0x80003100).run { host := {} } (.single {}) zeroOps
      floatInit = some cpu' ∧ Consistent cpu'.fpscr) ↔
      ¬(Writer.emitted 0xFCE0004C 0x80003100).Stale floatInit :=
  fpscr_summary_iff { host := {} } (.single {}) zeroOps floatInit (.emitted 0xFCE0004C 0x80003100)
    (show (ppcDecode 0xFCE0004C 0x80003100).op ∈ fpscrOps by decide) consistent_zero

/-- The emitted C of `mtfsb1 7` sets VXSNAN and leaves VX clear. -/
theorem fpscr_summary_stale : (ppcDecode 0xFCE0004C 0x80003100).op = .mtfsb1 ∧
    Consistent floatInit.fpscr ∧
    ∃ cpu', (Writer.emitted 0xFCE0004C 0x80003100).run { host := {} } (.single {}) zeroOps
      floatInit = some cpu' ∧ cpu'.fpscr = 0x01000000 ∧ ¬Consistent cpu'.fpscr := by
  have hop : (ppcDecode 0xFCE0004C 0x80003100).op = .mtfsb1 := by decide
  have hfpscr : ((emitInstruction (.single {}) (ppcDecode 0xFCE0004C 0x80003100)
      floatInit).nextState 0x80003100).fpscr = 0x01000000 := by
    have h := emitInstruction_fpscr (.single {}) (ppcDecode 0xFCE0004C 0x80003100) floatInit
      (ppcDecode_embeddedData _ _) (by rw [hop]; decide)
    rw [ppcDecode_address] at h
    rw [h]
    decide
  refine ⟨hop,consistent_zero,_,rfl,hfpscr,fun h => ?_⟩
  rw [hfpscr] at h
  have := h.1
  revert this
  decide

end Fpscr

end DolRecomp
