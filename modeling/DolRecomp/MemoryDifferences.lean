import DolRecomp.MemoryAgreement
import DolRecomp.PairedTransfers

/-!
# Where the two backends differ on guest memory

The lowering swaps a halfword at the width of a word, and the runtime helpers check what the
emitted statements do not.
-/

namespace DolRecomp

open Builder Emitter

variable (m : Machine) (i : PPCInst) (s : Point)

/-- Executed as a block and as emitted statements, an instruction ends in one state. -/
def BlockAgrees (cfg : EmitConfig) (block : DolIRBlock) (cpu : CPUState) : Prop :=
  (m.execBlock block cpu).result = some ((emitInstruction cfg i cpu).nextState i.address)

theorem getLsbD_bswap16 (h : BitVec 16) {n : ℕ} (hn : n < 16) :
    (bswap16 h).getLsbD n = h.getLsbD ((n + 8) % 16) := by
  simp only [bswap16,BitVec.getLsbD_append,BitVec.getLsbD_extractLsb']
  interval_cases n <;> simp

theorem bswap16_injective {a b : BitVec 16} (h : bswap16 a = bswap16 b) : a = b := by
  refine BitVec.eq_of_getLsbD_eq fun n hn => ?_
  have hbit := congrArg (·.getLsbD ((n + 8) % 16)) h
  simp only [getLsbD_bswap16 _ (Nat.mod_lt _ (by decide : 0 < 16))] at hbit
  have hk : ((n + 8) % 16 + 8) % 16 = n := by omega
  rwa [hk] at hbit

/-- The low half of a swapped word is the swapped high half. -/
theorem truncate_bswap32 (v : BitVec 32) :
    (bswap32 v).truncate 16 = bswap16 (v.extractLsb' 16 16) := by
  refine BitVec.eq_of_getLsbD_eq fun n hn => ?_
  rw [getLsbD_bswap16 _ hn]
  simp only [bswap32,BitVec.truncate_eq_setWidth,BitVec.getLsbD_setWidth,BitVec.getLsbD_append,
    BitVec.getLsbD_extractLsb']
  interval_cases n <;> simp

/-- A halfword that is swapped as a word ends in the high half. -/
theorem bswap32_half_eq_iff (h : BitVec 16) :
    bswap32 (h.zeroExtend 32) = (bswap16 h).zeroExtend 32 ↔ h = 0 := by
  constructor
  · intro heq
    refine bswap16_injective ?_
    have hlow := congrArg (·.truncate 16) heq
    simp only [truncate_bswap32] at hlow
    have hz : (h.zeroExtend 32).extractLsb' 16 16 = 0 := by
      refine BitVec.eq_of_getLsbD_eq fun n hn => ?_
      simp [hn]
    rw [hz] at hlow
    refine Eq.trans ?_ hlow.symm
    simp
  · rintro rfl
    rfl

theorem runBlock_lowered {chunk : ChunkRange} (hp : PlainMemory i chunk) (index : ℕ)
    (hd : i.embeddedData = false) {s' : Point}
    (hrun : run m (lowerMemory i) i s = .next (true, s')) :
    runBlock m i chunk index s = .next (s'.st.materialize (i.address + 4)) := by
  obtain ⟨hf,hc,hi,-⟩ := hp
  refine runBlock_fallthrough m i chunk index s hd hf hc ?_
  rw [lowerInstruction,effect_bind,hi,run_pure,Exec.next_bind,if_neg Bool.false_ne_true,
    effect_bind,hrun,Exec.next_bind,if_pos rfl,effect_pure]

theorem runBlock_left {chunk : ChunkRange} (hp : PlainMemory i chunk) (index : ℕ)
    (hd : i.embeddedData = false) {cpu : CPUState} (hrun : run m (lowerMemory i) i s = .exit cpu) :
    runBlock m i chunk index s = .exit cpu := by
  obtain ⟨hf,hc,hi,-⟩ := hp
  simp only [runBlock,lowerBlock,lowerInstruction,hd,hf,hc,hi,Bool.false_eq_true,if_false,run_bind,
    run_pure,Exec.next_bind,hrun,Exec.exit_bind]

theorem run_helper (h : DolIRHelper) (ops : List DolIRValue) (imm : BitVec 64) :
    run m (helper h ops imm) i s = Exec.ofOption (Machine.operands s.env ops) >>= fun args =>
      m.callHelper s.st h imm i.address args >>= fun x => .next ((), s.withSt x.2) := by
  rw [helper,run_bind',run_void,bind_assoc]
  congr 1
  funext args
  rw [bind_assoc]
  rfl

def halfOps : List PPCOpcode := [.lhbrx,.sthbrx]

def runtimeOps : List PPCOpcode := [.stwcx,.lswx]

theorem differing_plain (ho : i.op ∈ halfOps ++ runtimeOps) (chunk : ChunkRange) :
    PlainMemory i chunk := by
  simp only [halfOps,runtimeOps,List.cons_append,List.nil_append,List.mem_cons,List.not_mem_nil,
    or_false] at ho
  rcases ho with ho | ho | ho | ho
  all_goals exact ⟨by rw [ho]; rfl,by simp only [lowerControl,ho],by simp only [lowerInteger,ho],
    fun _ _ => by simp only [emitStatements,ho]⟩

/-- The halfword that `lhbrx` reads, or the two halves of the register of `sthbrx`. -/
def HalfAgrees (host : Host) (cpu : CPUState) : Prop :=
  if i.op = .lhbrx then Runtime.memValue host cpu (xformEa i false cpu) 2 = 0
  else (cpu.gpr i.rS).extractLsb' 16 16 = (cpu.gpr i.rS).truncate 16

theorem setGpr_eq_iff (cpu : CPUState) (reg : BitVec 5) (a b : BitVec 32) :
    cpu.setGpr reg a = cpu.setGpr reg b ↔ a = b := by
  refine ⟨fun h => ?_,fun h => h ▸ rfl⟩
  have := congrArg (fun c : CPUState => c.gpr reg) h
  simpa using this

theorem memWrite_eq_iff (cpu : CPUState) (ea : BitVec 32) (a b : BitVec 64) (width : ℕ) :
    Runtime.memWrite cpu ea a width = Runtime.memWrite cpu ea b width ↔ a = b := by
  refine ⟨fun h => ?_,fun h => h ▸ rfl⟩
  have := congrArg CPUState.history h
  rw [Smc.memWrite_history,Smc.memWrite_history] at this
  simpa using this

theorem half_memValue (host : Host) (cpu : CPUState) (ea : BitVec 32) :
    (Runtime.memValue host cpu ea 2).truncate 16 = 0 ↔ Runtime.memValue host cpu ea 2 = 0 := by
  refine ⟨fun h => BitVec.eq_of_getLsbD_eq fun n hn => ?_,fun h => h ▸ rfl⟩
  by_cases hlt : n < 16
  · have := congrArg (·.getLsbD n) h
    simpa [hlt] using this
  · rw [getLsbD_memValue host cpu ea (by decide) (by omega)]
    simp

/-- Both backends load a swapped halfword, from different ends of the register. -/
theorem formResult_lhbrx (cpu : CPUState) (ho : i.op = .lhbrx) :
    formResult m i { load := true, width := 2, reverse := true, indexed := true } cpu =
        emitLoadx i (memReadReversed16 m.host) false cpu ↔ HalfAgrees i m.host cpu := by
  let ea := xformEa i false cpu
  let half := (Runtime.memValue m.host cpu ea 2).truncate 16
  have hword : loadedWord m cpu ea 2 false = half.zeroExtend 32 :=
    (setWidth_memValue m.host cpu ea 2 (by decide)).symm
  have hl : formResult m i { load := true, width := 2, reverse := true, indexed := true } cpu =
      (Runtime.memRead m.host cpu ea 2).2.setGpr i.rD (bswap32 (loadedWord m cpu ea 2 false)) := rfl
  have hr : emitLoadx i (memReadReversed16 m.host) false cpu =
      (Runtime.memRead m.host cpu ea 2).2.setGpr i.rD ((bswap16 half).zeroExtend 32) := rfl
  rw [hl,hr,setGpr_eq_iff,hword,bswap32_half_eq_iff,HalfAgrees,if_pos ho]
  exact half_memValue m.host cpu ea

theorem formResult_sthbrx (cpu : CPUState) (ho : i.op = .sthbrx) :
    formResult m i { width := 2, reverse := true, indexed := true } cpu =
        emitStorex i (fun cpu ea v => Runtime.memWrite16 cpu ea (bswap16 (v.truncate 16)))
          false cpu ↔
      HalfAgrees i m.host cpu := by
  let ea := xformEa i false cpu
  let v := cpu.gpr i.rS
  have hl : formResult m i { width := 2, reverse := true, indexed := true } cpu =
      Runtime.memWrite cpu ea (Runtime.truncateWidth 2 ((bswap32 v).zeroExtend 64)) 2 := rfl
  have hr : emitStorex i (fun cpu ea v => Runtime.memWrite16 cpu ea (bswap16 (v.truncate 16))) false
      cpu = Runtime.memWrite cpu ea ((bswap16 (v.truncate 16)).zeroExtend 64) 2 := rfl
  have hz (a b : BitVec 16) : a.zeroExtend 64 = b.zeroExtend 64 ↔ a = b := by
    refine ⟨fun h => ?_,fun h => h ▸ rfl⟩
    have := congrArg (·.truncate 16) h
    simpa using this
  have hne : ¬i.op = .lhbrx := by
    rw [ho]
    decide
  rw [hl,hr,memWrite_eq_iff,truncateWidth_zeroExtend _ 2 (by decide)]
  show ((bswap32 v).truncate 16).zeroExtend 64 = _ ↔ _
  rw [hz,truncate_bswap32,HalfAgrees,if_neg hne]
  exact ⟨bswap16_injective,fun h => congrArg bswap16 h⟩

theorem withPc_eq_iff {a b : CPUState} (pc : BitVec 32) (h : a.pc = b.pc) :
    ({ a with pc } : CPUState) = { b with pc } ↔ a = b := by
  refine ⟨fun heq => ?_,fun heq => heq ▸ rfl⟩
  calc a = { ({ a with pc } : CPUState) with pc := a.pc } := rfl
    _ = { ({ b with pc } : CPUState) with pc := a.pc } :=
      congrArg (fun c : CPUState => { c with pc := a.pc }) heq
    _ = b := by rw [h]

/-- What a half row does, beside what its statements do. -/
theorem half_form (cfg : EmitConfig) (hh : cfg.host = m.host) (ho : i.op ∈ halfOps)
    (cpu : CPUState) : ∃ form cpu', memoryForm i.op = some form ∧
      emitMemory cfg i cpu = .next cpu' ∧ (formResult m i form cpu).pc = cpu'.pc ∧
      (formResult m i form cpu = cpu' ↔ HalfAgrees i m.host cpu) := by
  simp only [halfOps,List.mem_cons,List.not_mem_nil,or_false] at ho
  rcases ho with ho | ho
  · refine ⟨_,_,by rw [ho]; rfl,by simp only [emitMemory,ho,hh],?_,formResult_lhbrx m i cpu ho⟩
    rfl
  · refine ⟨_,_,by rw [ho]; rfl,by simp only [emitMemory,ho],?_,formResult_sthbrx m i cpu ho⟩
    have hpc (value : BitVec 64) :
        (Runtime.memWrite cpu (xformEa i false cpu) value 2).pc = cpu.pc :=
      (Runtime.memWrite_frame _ value 2).2.pc
    exact (hpc _).trans (hpc _).symm

theorem runBlock_half (cfg : EmitConfig) (hh : cfg.host = m.host) (ho : i.op ∈ halfOps)
    (hd : i.embeddedData = false) (chunk : ChunkRange) (index : ℕ) :
    (runBlock m i chunk index s).result =
        some ((emitInstruction cfg i s.st.commit).nextState i.address) ↔
      HalfAgrees i m.host s.st.commit := by
  have hp := differing_plain i (List.mem_append_left runtimeOps ho) chunk
  obtain ⟨form,cpu',hf,he,hpc,hiff⟩ := half_form m i cfg hh ho s.st.commit
  obtain ⟨s',hrun,hst⟩ := lowerMemory_row m i s hf
  rw [runBlock_lowered m i s hp index hd hrun,emitInstruction_plain i cfg _ hd hp.1,hp.2.2.2,he]
  simp only [Exec.result,CFlow.nextState_next,Option.some.injEq,IRState.materialize]
  rw [hst,withPc_eq_iff _ hpc,hiff]

theorem summaryOverflow_shift (xer : BitVec 32) :
    (xer >>> 3) &&& 0x10000000#32 = ((xer >>> 31) &&& 1#32) <<< 28 := by
  refine BitVec.eq_of_getLsbD_eq fun n hn => ?_
  interval_cases n <;> simp

theorem ppcStwcxOp_aligned (cpu : CPUState) (pc : BitVec 32)
    (ha : xformEa i false cpu &&& 3#32 = 0) :
    Runtime.ppcStwcxOp { cpu with pc } i.rS (xformEa i false cpu) pc =
      { emitStwcx i cpu with pc } := by
  rw [Runtime.ppcStwcxOp,if_neg (not_not.mpr ha),emitStwcx]
  generalize xformEa i false cpu = ea
  have hd : (cpu.reserveValid && decide (ea = cpu.reserveAddr)) =
      (cpu.reserveValid && ea == cpu.reserveAddr) := rfl
  have hstore : Runtime.memWrite32 { cpu with pc } ea (cpu.gpr i.rS) =
      { Runtime.memWrite32 cpu ea (cpu.gpr i.rS) with pc } := memWrite_withPc ea 4 cpu pc _
  dsimp only
  rw [hd]
  cases cpu.reserveValid && ea == cpu.reserveAddr
  · simp only [Bool.false_eq_true,if_false,BitVec.zero_or,summaryOverflow_shift]
    simp
  · rw [if_pos rfl,if_pos rfl,if_pos rfl,hstore]
    have hself : Runtime.memWrite32 cpu ea (cpu.gpr i.rS) =
        (Runtime.memWrite32 cpu ea (cpu.gpr i.rS)).onto cpu := memWrite_self ea 4 cpu _
    have hcr : (Runtime.memWrite32 cpu ea (cpu.gpr i.rS)).cr = cpu.cr := by rw [hself]; rfl
    have hxer : (Runtime.memWrite32 cpu ea (cpu.gpr i.rS)).xer = cpu.xer := by rw [hself]; rfl
    have hbits : (2#32 ||| (cpu.xer >>> 31 &&& 1#32)) <<< 28 =
        (2#32 <<< 28) ||| ((cpu.xer >>> 3) &&& 0x10000000#32) := by
      rw [summaryOverflow_shift,BitVec.shiftLeft_or_distrib]
    rw [hbits,hxer,hcr,BitVec.or_assoc]

theorem emitStwcx_exception (cpu : CPUState) : (emitStwcx i cpu).exception = cpu.exception := by
  unfold emitStwcx
  dsimp only
  split
  · exact (Runtime.memWrite_frame _ _ 4).2.exception
  · rfl

theorem lswByte_withPc (host : Host) (rD : BitVec 5) (ea pc : BitVec 32) (cpu : CPUState) (n : ℕ) :
    Runtime.lswByte host rD ea { cpu with pc } n =
      { Runtime.lswByte host rD ea cpu n with pc } := by
  by_cases h : n % 4 = 0
  · simp only [Runtime.lswByte,if_pos h]
    rfl
  · simp only [Runtime.lswByte,if_neg h]
    rfl

theorem lswBytes_withPc (host : Host) (rD : BitVec 5) (ea pc : BitVec 32) (count : ℕ)
    (cpu : CPUState) : Runtime.lswBytes host rD ea count { cpu with pc } =
      { Runtime.lswBytes host rD ea count cpu with pc } := by
  unfold Runtime.lswBytes
  induction List.range count generalizing cpu with
  | nil => rfl
  | cons n ns ih => rw [List.foldl_cons,List.foldl_cons,lswByte_withPc,ih]

theorem lswBytes_exception (host : Host) (rD : BitVec 5) (ea : BitVec 32) (count : ℕ)
    (cpu : CPUState) : (Runtime.lswBytes host rD ea count cpu).exception = cpu.exception := by
  unfold Runtime.lswBytes
  induction List.range count generalizing cpu with
  | nil => rfl
  | cons n ns ih =>
    rw [List.foldl_cons,ih]
    by_cases h : n % 4 = 0
    · simp only [Runtime.lswByte,if_pos h]
      rfl
    · simp only [Runtime.lswByte,if_neg h]
      rfl

/-- Both backends look for the address registers among the registers of the transfer. -/
theorem lswxOverlap_eq (cpu : CPUState) : lswxOverlap i cpu =
    (Runtime.wrappedRegisterRangeContains i.rD (((cpu.xer &&& 0x7F#32).toNat + 3)/4) i.rA ||
      Runtime.wrappedRegisterRangeContains i.rD (((cpu.xer &&& 0x7F#32).toNat + 3)/4) i.rB) := by
  rw [Bool.eq_iff_iff]
  simp only [lswxOverlap,lswxCount,Runtime.wrappedRegisterRangeContains,Bool.or_eq_true,
    List.any_eq_true,exists_or,and_or_left]

theorem ppcLswx_eq (host : Host) (cpu : CPUState) (pc : BitVec 32) :
    Runtime.ppcLswx host { cpu with pc } i.rD i.rA i.rB pc =
      if lswxOverlap i cpu then
        Runtime.ppcProgramException cpu Runtime.ppcProgramIllegal pc
      else { Runtime.lswBytes host i.rD (lswxEa i cpu) (lswxCount cpu) cpu with pc } := by
  have hea : (if i.rA ≠ 0 then cpu.gpr i.rA else 0) + cpu.gpr i.rB = lswxEa i cpu := by
    rw [lswxEa]
    split
    · exact BitVec.add_comm _ _
    · exact BitVec.zero_add _
  have ho := lswxOverlap_eq i cpu
  rw [Bool.eq_iff_iff,Bool.or_eq_true] at ho
  unfold Runtime.ppcLswx
  dsimp only
  by_cases h : lswxOverlap i cpu = true
  · rw [if_pos h,if_pos (ho.mp h)]
    rfl
  · rw [if_neg h,if_neg fun hn => h (ho.mpr hn)]
    refine Eq.trans ?_ (lswBytes_withPc host i.rD (lswxEa i cpu) pc (lswxCount cpu) cpu)
    rw [hea]
    rfl

/-- What a helper leaves goes back into native code, unless an exception is pending. -/
def afterHelper (cpu : CPUState) : Exec CPUState :=
  if cpu.exception = 0 then .next { cpu with pc := i.address + 4 } else .exit cpu

theorem runBlock_boundary {chunk : ChunkRange} (hp : PlainMemory i chunk) (index : ℕ)
    (hd : i.embeddedData = false) {cpu : CPUState} {s' : Point}
    (hrun : run m (lowerMemory i) i s =
      Machine.runtimeBoundary cpu >>= fun st => Exec.next (true, s'.withSt st)) :
    runBlock m i chunk index s = afterHelper i cpu := by
  rw [Machine.runtimeBoundary] at hrun
  rw [afterHelper]
  split
  · rename_i h
    rw [if_pos h,Exec.next_bind] at hrun
    rw [runBlock_lowered m i s hp index hd hrun,Point.withSt_st,IRState.materialize,commit_load]
  · rename_i h
    rw [if_neg h,Exec.exit_bind] at hrun
    exact runBlock_left m i s hp index hd hrun

theorem truncate_zeroExtend_reg (r : BitVec 5) : (r.zeroExtend 64).truncate 5 = r := by
  refine BitVec.eq_of_getLsbD_eq fun n hn => ?_
  simp [hn]

theorem run_lowerMemory_stwcx (ho : i.op = .stwcx) :
    ∃ s' : Point, run m (lowerMemory i) i s = Machine.runtimeBoundary (Runtime.ppcStwcxOp
        (s.st.materialize i.address) i.rS (xformEa i false s.st.commit) i.address) >>=
      fun st => Exec.next (true, s'.withSt st) := by
  obtain ⟨id,s1,hrun,hlt,henv,hst⟩ := run_effectiveAddress m i s true false
  let s2 := s1.push (.i32 (s.st.cpu.gpr i.rS))
  have hops : Machine.operands s2.env [id,s1.next] =
      some [.i32 (xformEa i false s.st.commit),.i32 (s.st.cpu.gpr i.rS)] := by
    rw [operands_cons,operands_cons,operands_nil,Point.push_env,if_neg (Nat.ne_of_lt hlt),henv,
      Point.push_env,if_pos rfl]
    rfl
  refine ⟨s2,?_⟩
  simp only [lowerMemory,memoryForm,ho]
  rw [run_bind,hrun,Exec.next_bind,run_bind,gpr,run_readSlot,Exec.next_bind,IRState.readSlot_gpr,
    hst,run_bind,run_helper]
  show (Exec.ofOption (Machine.operands s2.env [id,s1.next]) >>= _) >>= _ = _
  rw [hops,Exec.ofOption_some,Exec.next_bind]
  have hcall (v : BitVec 32) : m.callHelper s.st .storeConditional (i.rS.zeroExtend 64) i.address
      [.i32 (xformEa i false s.st.commit),.i32 v] =
      Machine.runtimeBoundary (Runtime.ppcStwcxOp (s.st.materialize i.address)
        ((i.rS.zeroExtend 64).truncate 5) (xformEa i false s.st.commit) i.address) >>=
        fun st => Exec.next (none, st) := rfl
  dsimp only
  rw [Point.push_st,hst,hcall,truncate_zeroExtend_reg,bind_assoc,bind_assoc]
  rfl

theorem lswxDescriptor_fields : (lswxDescriptor i).extractLsb' 0 5 = i.rD ∧
    (lswxDescriptor i).extractLsb' 8 5 = i.rA ∧ (lswxDescriptor i).extractLsb' 16 5 = i.rB := by
  refine ⟨BitVec.eq_of_getLsbD_eq fun n hn => ?_,BitVec.eq_of_getLsbD_eq fun n hn => ?_,
    BitVec.eq_of_getLsbD_eq fun n hn => ?_⟩
  all_goals
    simp only [lswxDescriptor,BitVec.getLsbD_extractLsb',BitVec.getLsbD_or,
      BitVec.getLsbD_shiftLeft,BitVec.getLsbD_setWidth]
    interval_cases n <;> simp

theorem run_lowerMemory_lswx (ho : i.op = .lswx) :
    run m (lowerMemory i) i s = Machine.runtimeBoundary (Runtime.ppcLswx m.host
        (s.st.materialize i.address) i.rD i.rA i.rB i.address) >>=
      fun st => Exec.next (true, s.withSt st) := by
  obtain ⟨hD,hA,hB⟩ := lswxDescriptor_fields i
  have hcall : m.callHelper s.st .lswx (lswxDescriptor i) i.address [] =
      Machine.runtimeBoundary (Runtime.ppcLswx m.host (s.st.materialize i.address)
        ((lswxDescriptor i).extractLsb' 0 5) ((lswxDescriptor i).extractLsb' 8 5)
        ((lswxDescriptor i).extractLsb' 16 5) i.address) >>= fun st => Exec.next (none, st) := rfl
  simp only [lowerMemory,memoryForm,ho]
  rw [run_bind,run_helper,operands_nil,Exec.ofOption_some,Exec.next_bind,hcall,hD,hA,hB,
    bind_assoc,bind_assoc]
  rfl

theorem exception_after_alignment (cpu : CPUState) (ea cia : BitVec 32) :
    (Runtime.ppcAlignmentException cpu ea cia).exception ≠ 0 := by
  intro h
  have hbit := congrArg (·.getLsbD 2) h
  simp [Runtime.ppcAlignmentException,Runtime.ppcTakeException,Runtime.ppcExcAlignment] at hbit

theorem exception_after_program (cpu : CPUState) (cause cia : BitVec 32) :
    (Runtime.ppcProgramException cpu cause cia).exception ≠ 0 := by
  intro h
  have hbit := congrArg (·.getLsbD 0) h
  simp [Runtime.ppcProgramException,Runtime.ppcTakeException,Runtime.ppcExcProgram] at hbit

theorem runBlock_stwcx (cfg : EmitConfig) (ho : i.op = .stwcx) (hd : i.embeddedData = false)
    (chunk : ChunkRange) (index : ℕ) (hx : s.st.commit.exception = 0) :
    (runBlock m i chunk index s).result =
        some ((emitInstruction cfg i s.st.commit).nextState i.address) ↔
      xformEa i false s.st.commit &&& 3#32 = 0 := by
  have hp := differing_plain i (by rw [ho]; decide) chunk
  obtain ⟨s',hrun⟩ := run_lowerMemory_stwcx m i s ho
  have he : emitMemory cfg i s.st.commit = .next (emitStwcx i s.st.commit) := by
    simp only [emitMemory,ho]
  rw [runBlock_boundary m i s hp index hd hrun,emitInstruction_plain i cfg _ hd hp.1,hp.2.2.2,he]
  by_cases ha : xformEa i false s.st.commit &&& 3#32 = 0
  · refine iff_of_true ?_ ha
    have hop := ppcStwcxOp_aligned i s.st.commit i.address ha
    have hcpu : (Runtime.ppcStwcxOp (s.st.materialize i.address) i.rS
        (xformEa i false s.st.commit) i.address).exception = 0 :=
      (congrArg CPUState.exception hop).trans ((emitStwcx_exception i s.st.commit).trans hx)
    rw [afterHelper,if_pos hcpu]
    exact congrArg (fun c : CPUState => some { c with pc := i.address + 4 }) hop
  · refine iff_of_false (fun h => ?_) ha
    have hop : Runtime.ppcStwcxOp (s.st.materialize i.address) i.rS (xformEa i false s.st.commit)
        i.address = Runtime.ppcAlignmentException (s.st.materialize i.address)
          (xformEa i false s.st.commit) i.address := if_pos ha
    rw [hop,afterHelper,if_neg (exception_after_alignment _ _ _)] at h
    refine exception_after_alignment (s.st.materialize i.address) (xformEa i false s.st.commit)
      i.address ?_
    rw [Option.some.inj h]
    exact (emitStwcx_exception i s.st.commit).trans hx

theorem runBlock_lswx (cfg : EmitConfig) (hh : cfg.host = m.host) (ho : i.op = .lswx)
    (hd : i.embeddedData = false) (chunk : ChunkRange) (index : ℕ)
    (hx : s.st.commit.exception = 0) :
    (runBlock m i chunk index s).result =
      some ((emitInstruction cfg i s.st.commit).nextState i.address) := by
  have hp := differing_plain i (by rw [ho]; decide) chunk
  have hrun := run_lowerMemory_lswx m i s ho
  have he : emitMemory cfg i s.st.commit = emitLswx cfg i s.st.commit := by
    simp only [emitMemory,ho]
  have hop := ppcLswx_eq i m.host s.st.commit i.address
  rw [runBlock_boundary m i s hp index hd hrun,emitInstruction_plain i cfg _ hd hp.1,hp.2.2.2,he,
    emitLswx]
  change Runtime.ppcLswx m.host (s.st.materialize i.address) i.rD i.rA i.rB i.address = _ at hop
  by_cases h : lswxOverlap i s.st.commit = true
  · rw [hop,if_pos h,if_pos h,afterHelper,if_neg (exception_after_program _ _ _)]
    rfl
  · have hz := (lswBytes_exception m.host i.rD (lswxEa i s.st.commit) (lswxCount s.st.commit)
      s.st.commit).trans hx
    rw [hop,if_neg h,if_neg h,afterHelper,hh]
    exact congrArg Exec.result (if_pos hz)

/-- The conditions under which an access of the two groups ends in one state. -/
def DifferingAgrees (host : Host) (cpu : CPUState) : Prop :=
  (i.op ∈ halfOps → HalfAgrees i host cpu) ∧
    (i.op = .stwcx → xformEa i false cpu &&& 3#32 = 0)

/-- With no exception pending, the remaining accesses agree except for a reversed halfword that is
not the same at both ends of the word, and for a conditional store that is not aligned. -/
theorem differing_agreement (cfg : EmitConfig) (hh : cfg.host = m.host) (insts : List PPCInst)
    (guestStart : BitVec 32) (k : ℕ) (raw address : BitVec 32)
    (hk : insts[k]? = some (ppcDecode raw address))
    (ho : (ppcDecode raw address).op ∈ halfOps ++ runtimeOps) (cpu : CPUState)
    (hx : cpu.exception = 0) :
    ∃ block, (buildFunction insts guestStart).blocks[k]? = some block ∧
      (BlockAgrees m (ppcDecode raw address) cfg block cpu ↔
        DifferingAgrees (ppcDecode raw address) m.host cpu) := by
  obtain ⟨block,next,h,hb,hrun⟩ := execBlock_built m (ppcDecode raw address) insts guestStart k hk
  refine ⟨block,hb,?_⟩
  have hd := ppcDecode_embeddedData raw address
  have hl : (start next h cpu).st.commit = cpu := commit_load cpu
  rw [BlockAgrees,hrun]
  generalize ppcDecode raw address = i at *
  have hhalf := runBlock_half m i (start next h cpu) cfg hh
  have hstwcx := runBlock_stwcx m i (start next h cpu) cfg
  have hlswx := runBlock_lswx m i (start next h cpu) cfg hh
  rw [hl] at hhalf hstwcx hlswx
  by_cases hmem : i.op ∈ halfOps
  · have hne : ¬i.op = .stwcx := fun heq => absurd (heq ▸ hmem) (by decide)
    rw [hhalf hmem hd (chunkRange insts guestStart) k,DifferingAgrees]
    exact ⟨fun hv => ⟨fun _ => hv,fun heq => absurd heq hne⟩,fun hv => hv.1 hmem⟩
  · have hrt := (List.mem_append.mp ho).resolve_left hmem
    simp only [runtimeOps,List.mem_cons,List.not_mem_nil,or_false] at hrt
    rcases hrt with hop | hop
    · rw [hstwcx hop hd (chunkRange insts guestStart) k hx,DifferingAgrees]
      exact ⟨fun hv => ⟨fun hm => absurd hm hmem,fun _ => hv⟩,fun hv => hv.2 hop⟩
    · refine iff_of_true (hlswx hop hd (chunkRange insts guestStart) k hx)
        ⟨fun hm => absurd hm hmem,fun heq => ?_⟩
      rw [hop] at heq
      cases heq

/-- The two halves of `r4` are the same. -/
def sameHalves : CPUState := (cpuInit.setGpr 4 0x12341234).setGpr 5 0x80001000

/-- `sthbrx r4,0,r5` from there. -/
theorem differing_agreement_sthbrx :
    ∃ block, (buildFunction [ppcDecode 0x7C802F2C 0x80003100] 0x80003100).blocks[0]? = some block ∧
      BlockAgrees { host := {} } (ppcDecode 0x7C802F2C 0x80003100) (.single {}) block sameHalves := by
  obtain ⟨block,hb,hagree⟩ := differing_agreement { host := {} } (.single {}) rfl
    [ppcDecode 0x7C802F2C 0x80003100] 0x80003100 0 _ _ rfl (by decide) sameHalves rfl
  exact ⟨block,hb,hagree.mpr ⟨fun _ => (by unfold HalfAgrees; decide),fun h => by cases h⟩⟩

end DolRecomp
