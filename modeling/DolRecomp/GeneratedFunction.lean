import DolRecomp.OutlinedLoops

/-!
# Generated functions

Control in a function that `emit_function` prints: its labels, its outlined loops,
the local returns and the calls of other chunks. A step runs the statements of one
instruction.
-/

namespace DolRecomp

/-- The instructions that are printed by the statements outside the model. -/
def LeftOver (i : PPCInst) : Prop :=
  ∀ cfg cpu, Emitter.emitStatements cfg i cpu = cfg.otherStatements i cpu

/-- The statements outside the model return, or go on and charge nothing; those that fall back to
the host return. -/
def PlainStatements (other : PPCInst → CPUState → CFlow) : Prop :=
  ∀ i, LeftOver i → ∀ cpu, (∃ cpu', other i cpu = .ret cpu') ∨
    CFunction.instructionUsesFallback i = false ∧
      ∃ cpu', other i cpu = .next cpu' ∧ cpu'.downcount = cpu.downcount

namespace Emitter

/-- How the statements of an instruction can end; only the host changes the cycle counter. -/
inductive Ends (cfg : EmitConfig) (i : PPCInst) (cpu : CPUState) : CFlow → Prop
  | next {cpu' : CPUState} (hd : cpu'.downcount = cpu.downcount) : Ends cfg i cpu (.next cpu')
  | goto {cpu' : CPUState} (hop : i.op = .b ∨ i.op = .bc) (hdata : i.embeddedData = false)
      (hlocal : branchTargetIsLocal cfg i.branchTarget = true)
      (hguard : i.branchTarget ≤ i.address → -loopCycleBudget < cpu'.downcount.toInt)
      (hd : cpu'.downcount = cpu.downcount) : Ends cfg i cpu (.goto i.branchTarget cpu')
  | dispatch {cpu' : CPUState} (hop : i.op = .bclr) (hdata : i.embeddedData = false)
      (hroute : cfg.routeLocalReturns = true) (hd : cpu'.downcount = cpu.downcount) :
      Ends cfg i cpu (.dispatch cpu')
  | call {cpu' : CPUState} (hop : i.op = .b ∨ i.op = .bc) (hdata : i.embeddedData = false)
      (hlk : i.lk = true) (henter : cfg.callEnter = true)
      (htarget : branchTargetIsLocal cfg i.branchTarget = false)
      (hlocal : branchTargetIsLocal cfg (i.address + 4) = true)
      (hchunk : chunkStartFor cfg i.branchTarget ≠ 0) (hpc : cpu'.pc = i.branchTarget)
      (hd : cpu'.downcount = cpu.downcount) :
      Ends cfg i cpu (.call (chunkStartFor cfg i.branchTarget) cpu')
  | ret (cpu' : CPUState) : Ends cfg i cpu (.ret cpu')

variable {cfg : EmitConfig} {i : PPCInst}

theorem foldl_downcount {step : CPUState → ℕ → CPUState}
    (h : ∀ cpu n, (step cpu n).downcount = cpu.downcount) (ns : List ℕ) (cpu : CPUState) :
    (ns.foldl step cpu).downcount = cpu.downcount := by
  induction ns generalizing cpu with
  | nil => rfl
  | cons n ns ih => rw [List.foldl_cons,ih,h]

theorem lswBytes_downcount (host : Host) (rD : BitVec 5) (ea : BitVec 32) (count : ℕ)
    (cpu : CPUState) : (Runtime.lswBytes host rD ea count cpu).downcount = cpu.downcount :=
  foldl_downcount (fun cpu n => by simp only [Runtime.lswByte]; split <;> rfl) _ _

theorem stswBytes_downcount (rS : BitVec 5) (ea : BitVec 32) (count : ℕ) (cpu : CPUState) :
    (stswBytes rS ea count cpu).downcount = cpu.downcount :=
  foldl_downcount (fun cpu n => by simp [stswByte,Runtime.memWrite8]) _ _

theorem emitDcbz_downcount (i : PPCInst) (cpu : CPUState) :
    (emitDcbz i cpu).downcount = cpu.downcount :=
  foldl_downcount (fun cpu n => by simp [Runtime.memWrite32]) _ _

theorem emitLmw_downcount (host : Host) (i : PPCInst) (cpu : CPUState) :
    (emitLmw host i cpu).downcount = cpu.downcount := by
  unfold emitLmw
  apply foldl_downcount
  intro cpu n
  rfl

theorem emitStmw_downcount (i : PPCInst) (cpu : CPUState) :
    (emitStmw i cpu).downcount = cpu.downcount :=
  foldl_downcount (fun cpu n => by simp [Runtime.memWrite32]) _ _

section

variable (cpu : CPUState)

theorem emitLoadAt_downcount {read : CPUState → BitVec 32 → BitVec 32 × CPUState}
    (h : ∀ ea, (read cpu ea).2.downcount = cpu.downcount) (ea : BitVec 32) (update : Bool) :
    (emitLoadAt i ea read update cpu).downcount = cpu.downcount := by
  rw [← h ea]
  cases update <;> rfl

theorem emitStoreAt_downcount {write : CPUState → BitVec 32 → BitVec 32 → CPUState}
    (h : ∀ ea value, (write cpu ea value).downcount = cpu.downcount) (ea : BitVec 32)
    (update : Bool) : (emitStoreAt i ea write update cpu).downcount = cpu.downcount := by
  rw [← h ea (cpu.gpr i.rS)]
  cases update <;> rfl

theorem emitStwcx_downcount : (emitStwcx i cpu).downcount = cpu.downcount := by
  unfold emitStwcx
  dsimp only
  split
  · exact Runtime.memWrite_downcount cpu _ _ 4
  · rfl

theorem memWrite_next {address : BitVec 32} {value : BitVec 64} {width : ℕ} :
    (Runtime.memWrite cpu address value width).downcount = cpu.downcount :=
  Runtime.memWrite_downcount cpu address value width

theorem emitMemory_ends
    (ho : (∀ cfg cpu, emitMemory cfg i cpu = cfg.otherStatements i cpu) →
      Ends cfg i cpu (cfg.otherStatements i cpu)) :
    Ends cfg i cpu (emitMemory cfg i cpu) := by
  have load : ∀ {read : CPUState → BitVec 32 → BitVec 32 × CPUState} {ea : BitVec 32}
      {update : Bool}, (∀ ea, (read cpu ea).2.downcount = cpu.downcount) →
      Ends cfg i cpu (.next (emitLoadAt i ea read update cpu)) :=
    fun h => .next (emitLoadAt_downcount cpu h _ _)
  have store : ∀ {write : CPUState → BitVec 32 → BitVec 32 → CPUState} {ea : BitVec 32}
      {update : Bool}, (∀ ea value, (write cpu ea value).downcount = cpu.downcount) →
      Ends cfg i cpu (.next (emitStoreAt i ea write update cpu)) :=
    fun h => .next (emitStoreAt_downcount cpu h _ _)
  unfold emitMemory
  dsimp only
  split
  case h_34 =>
    unfold emitLswx
    split
    · exact .ret _
    · exact .next (lswBytes_downcount _ _ _ _ _)
  case h_33 | h_35 | h_36 =>
    first
      | exact .next (lswBytes_downcount _ _ _ _ _)
      | exact .next (stswBytes_downcount _ _ _ _)
  case h_37 => exact .next rfl
  case h_38 => exact .next (emitStwcx_downcount cpu)
  case h_39 => exact .next (emitDcbz_downcount i cpu)
  case h_40 => exact .next (emitLmw_downcount _ i cpu)
  case h_41 => exact .next (emitStmw_downcount i cpu)
  case h_42 =>
    refine ho fun cfg cpu => ?_
    unfold emitMemory
    dsimp only
    split <;> first | rfl | contradiction
  all_goals
    simp only [emitLoad,emitLoadx,emitStore,emitStorex]
    first
      | exact load fun _ => rfl
      | exact store fun _ _ => memWrite_next cpu

end

theorem takeException_downcount (cpu : CPUState) (exception vector srr0 info : BitVec 32) :
    (Runtime.ppcTakeException cpu exception vector srr0 info).downcount = cpu.downcount := rfl

theorem programException_downcount (cpu : CPUState) (cause cia : BitVec 32) :
    (Runtime.ppcProgramException cpu cause cia).downcount = cpu.downcount := by
  rw [Runtime.ppcProgramException,takeException_downcount]

theorem emitSystem_ends (cpu : CPUState) : Ends cfg i cpu (emitSystem cfg i cpu) := by
  have hmftb : Ends cfg i cpu (emitMftb i cpu) := by
    unfold emitMftb
    dsimp only
    split
    · exact .ret _
    · refine .next ?_
      rw [CPUState.setGpr_downcount]
      unfold Runtime.ppcMftb
      split
      · rfl
      · split
        · rfl
        · exact programException_downcount cpu _ _
  unfold emitSystem
  split
  case h_9 =>
    unfold emitMfspr
    split
    all_goals first | exact .next rfl | exact hmftb | exact .ret _
  case h_10 =>
    unfold emitMtspr
    dsimp only
    split
    all_goals first | exact .next rfl | exact .ret _
  all_goals first | exact .next rfl | exact hmftb

theorem recordCr1_downcount (i : PPCInst) (cpu : CPUState) :
    (recordCr1 i cpu).downcount = cpu.downcount := by
  unfold recordCr1
  split <;> rfl

theorem emitFloatMove_downcount (i : PPCInst) (cpu : CPUState) :
    (emitFloatMove i cpu).downcount = cpu.downcount := by
  unfold emitFloatMove
  dsimp only
  rw [recordCr1_downcount]
  split <;> rfl

theorem emitFpscr_downcount (i : PPCInst) (cpu : CPUState) :
    (emitFpscr i cpu).downcount = cpu.downcount := by
  have hmtfsb : (emitMtfsb i cpu).downcount = cpu.downcount := by
    unfold emitMtfsb
    dsimp only
    split <;> rfl
  unfold emitFpscr
  split
  · rw [recordCr1_downcount,hmtfsb]
  · rw [recordCr1_downcount,hmtfsb]
  · rw [recordCr1_downcount]
    rfl
  · rfl
  · rw [recordCr1_downcount]
    rfl
  · rw [recordCr1_downcount]
    rfl

theorem emitDirectBranch_ends (hop : i.op = .b ∨ i.op = .bc) (hdata : i.embeddedData = false)
    {cpu cpu₀ : CPUState} (hd : cpu.downcount = cpu₀.downcount) :
    Ends cfg i cpu₀ (emitDirectBranch cfg i cpu) := by
  have hback : ∀ cpu : CPUState, cpu.downcount = cpu₀.downcount →
      branchTargetIsLocal cfg i.branchTarget = true → Ends cfg i cpu₀ (emitBackedge i cpu) := by
    intro cpu hd hlocal
    unfold emitBackedge
    split
    · exact .ret _
    next hb => exact .goto hop hdata hlocal (fun _ => by omega) hd
  unfold emitDirectBranch
  dsimp only
  by_cases hlocal : branchTargetIsLocal cfg i.branchTarget = true
  · by_cases hle : i.branchTarget ≤ i.address
    · simp only [hlocal,hle,decide_true,Bool.and_true,if_true]
      split
      · exact hback _ hd hlocal
      · split
        · exact hback _ hd hlocal
        · exact .ret _
    · simp only [hlocal,hle,decide_false,Bool.and_false,Bool.false_eq_true,if_true,if_false]
      split
      · exact .goto hop hdata hlocal (fun h => absurd h hle) hd
      · exact .goto hop hdata hlocal (fun h => absurd h hle) hd
  · rw [Bool.not_eq_true] at hlocal
    simp only [hlocal,Bool.false_and,Bool.false_eq_true,if_false]
    split
    next hlk =>
      unfold emitCrossChunkCall
      dsimp only
      split
      · exact .ret _
      next hchunk =>
        split
        · exact .ret _
        next hcont =>
          split
          next henter =>
            exact .call hop hdata hlk henter hlocal (by simpa using hcont) hchunk rfl hd
          next => exact .ret _
    next => exact .ret _

theorem emitDynamicBranch_ends {route : Bool} (hop : route = true → i.op = .bclr)
    (hdata : i.embeddedData = false) (hroute : route = true → cfg.routeLocalReturns = true)
    (target : BitVec 32) (cpu : CPUState) :
    Ends cfg i cpu (emitDynamicBranch i target route cpu) := by
  have hd := CFunction.emitBranchCondition_downcount i cpu
  unfold emitDynamicBranch
  dsimp only
  split
  · split
    next hr =>
      refine .dispatch (hop hr) hdata (hroute hr) ?_
      split <;> exact hd
    · exact .ret _
  · exact .next hd

theorem emitBranch_ends (hdata : i.embeddedData = false) (cpu : CPUState) :
    Ends cfg i cpu (emitBranch cfg i cpu) := by
  unfold emitBranch
  split
  next hop => exact emitDirectBranch_ends (.inl hop) hdata rfl
  next hop =>
    have hd := CFunction.emitBranchCondition_downcount i cpu
    dsimp only
    split
    · exact emitDirectBranch_ends (.inr hop) hdata hd
    · exact .next hd
  next hop => exact emitDynamicBranch_ends (fun _ => hop) hdata id _ cpu
  next hop =>
    exact emitDynamicBranch_ends (fun h => by cases h) hdata (fun h => by cases h) _ cpu
  next => exact .next rfl

theorem emitStatements_ends (ho : PlainStatements cfg.otherStatements)
    (hdata : i.embeddedData = false) (cpu : CPUState) :
    Ends cfg i cpu (emitStatements cfg i cpu) := by
  have integer : Ends cfg i cpu (.next (emitInteger i cpu)) := .next (emitInteger_downcount i cpu)
  have condition : Ends cfg i cpu (.next (emitConditionRegister i cpu)) :=
    .next (emitConditionRegister_downcount i cpu)
  have branch : Ends cfg i cpu (emitBranch cfg i cpu) := emitBranch_ends hdata cpu
  have trap : Ends cfg i cpu (emitTrap i cpu) := by
    unfold emitTrap
    generalize (if i.op = .twi then i.simm.signExtend 32 else cpu.gpr i.rB) = b
    dsimp only
    split
    · exact .ret _
    · exact .next rfl
  have system : Ends cfg i cpu (emitSystem cfg i cpu) := emitSystem_ends cpu
  have move : Ends cfg i cpu (.next (emitFloatMove i cpu)) := .next (emitFloatMove_downcount i cpu)
  have fpscr : Ends cfg i cpu (.next (emitFpscr i cpu)) := .next (emitFpscr_downcount i cpu)
  have memory (hs : ∀ cfg cpu, emitStatements cfg i cpu = emitMemory cfg i cpu) :
      Ends cfg i cpu (emitMemory cfg i cpu) := by
    refine emitMemory_ends cpu fun hleft => ?_
    obtain ⟨cpu',he⟩ | ⟨-,cpu',he,hd⟩ := ho i (fun cfg cpu => (hs cfg cpu).trans (hleft cfg cpu)) cpu
    · rw [he]
      exact .ret cpu'
    · rw [he]
      exact .next hd
  have same : Ends cfg i cpu (.next cpu) := .next rfl
  have ret : ∀ cpu', Ends cfg i cpu (.ret cpu') := .ret
  have fallback : Ends cfg i cpu (emitFallback cfg i cpu) := .ret _
  generalize hop : i.op = op
  cases op
  all_goals
    simp only [emitStatements,hop]
    with_reducible
     first
      | exact integer
      | exact condition
      | exact branch
      | exact trap
      | exact ret _
      | exact system
      | exact move
      | exact fpscr
      | exact same
      | exact fallback
      | exact memory fun cfg cpu => by simp only [emitStatements,hop]

theorem emitInstruction_ends (cfg : EmitConfig) (ho : PlainStatements cfg.otherStatements) (i : PPCInst)
    (cpu : CPUState) : Ends cfg i cpu (emitInstruction cfg i cpu) := by
  unfold emitInstruction
  by_cases hdata : i.embeddedData = true
  · rw [if_pos hdata]
    exact .next rfl
  · rw [if_neg hdata]
    rw [Bool.not_eq_true] at hdata
    have hs := emitStatements_ends ho hdata cpu
    split
    · by_cases hfp : cpu.msr &&& Runtime.ppcMsrFp ≠ 0
      · rw [Runtime.ppcFpAvailable,if_pos hfp]
        exact hs
      · rw [Runtime.ppcFpAvailable,if_neg hfp]
        exact .ret _
    · exact hs

/-- An instruction that falls back to the host returns. -/
theorem emitInstruction_fallback (cfg : EmitConfig) (ho : PlainStatements cfg.otherStatements)
    (hdata : i.embeddedData = false) (h : CFunction.instructionUsesFallback i = true)
    (cpu : CPUState) : ∃ cpu', emitInstruction cfg i cpu = .ret cpu' := by
  have hother (hleft : LeftOver i) : ∃ cpu', cfg.otherStatements i cpu = .ret cpu' := by
    obtain he | ⟨hf,-⟩ := ho i hleft cpu
    · exact he
    · rw [h] at hf
      cases hf
  have hfpu : ppcOpUsesFpu i.op = false := by
    unfold CFunction.instructionUsesFallback at h
    generalize i.op = op at h ⊢
    cases op <;> first | rfl | cases h
  rw [emitInstruction,if_neg (by simp [hdata]),if_neg (by simp [hfpu])]
  unfold CFunction.instructionUsesFallback at h
  split at h
  case h_6 hop =>
    simp only [emitStatements,hop,emitSystem]
    unfold emitMfspr
    split
    all_goals first | exact ⟨_,rfl⟩ | (rename_i hspr; simp [hspr] at h)
  case h_7 hop =>
    simp only [emitStatements,hop,emitSystem]
    unfold emitMtspr
    dsimp only
    split
    all_goals first | exact ⟨_,rfl⟩ | (rename_i hspr; simp [hspr] at h)
  case h_8 => cases h
  case h_5 hop =>
    simp only [emitStatements,hop]
    exact ⟨_,rfl⟩
  all_goals
    rename_i hop
    have hleft : LeftOver i := fun cfg cpu => by simp only [emitStatements,emitMemory,hop]
    rw [hleft]
    exact hother hleft

end Emitter

namespace Decoder

section

variable (raw : BitVec 32) (inst : PPCInst)

attribute [local simp] unknown decodeDRtRa decodeDRtRaUpdate decodeDFrtRaUpdate decodeDRsRa
  decodeDRsRaUpdate decodeXRtRaRb decodeXRtRaRbNorc decodeXRtRaRbUpdate decodeXFrtRaRbUpdate
  decodeXoRtRaRb decodeXRsRaRb decodeXRsRaRbNorc decodeXRsRaRbUpdate decodeAFrtFraFrbFrc
  decodeXFrtFrb decodeFcmp decodeCrLogical decodeMtfsb decodeXoRtRa decodePsqDRtRa
  decodePsqDRtRaUpdate decodePsqDRsRa decodePsqDRsRaUpdate decodePsqXRtRaRb decodePsqXRtRaRbNorc
  decodePsqXRtRaRbUpdate decodePsqXRsRaRb decodePsqXRsRaRbNorc decodePsqXRsRaRbUpdate
  decodeCacheForm decodeCompare decodeRotate decodeLogicalImmediate

@[simp] theorem lk_ite (c : Prop) [Decidable c] (a b : PPCInst) :
    (if c then a else b).lk = if c then a.lk else b.lk :=
  apply_ite PPCInst.lk c a b

theorem decodePaired_lk : (decodePaired raw inst).lk = inst.lk := by
  unfold decodePaired
  repeat' split
  all_goals simp

theorem decodeOverflowForm_lk : (decodeOverflowForm raw inst).lk = inst.lk := by
  unfold decodeOverflowForm
  split
  all_goals simp

theorem decodeExtended_lk : (decodeExtended raw inst).lk = inst.lk := by
  unfold decodeExtended
  split
  all_goals simp

theorem decodeSingle_lk : (decodeSingle raw inst).lk = inst.lk := by
  unfold decodeSingle
  split
  all_goals simp

theorem decodeDouble_lk : (decodeDouble raw inst).lk = inst.lk := by
  unfold decodeDouble
  repeat' split
  all_goals simp

/-- A linked instruction is a branch to a register. -/
def LinksRegister (inst : PPCInst) : Prop := inst.lk = true → inst.op = .bclr ∨ inst.op = .bcctr

theorem linksRegister_ite (c : Prop) [Decidable c] (a b : PPCInst) (ha : LinksRegister a)
    (hb : LinksRegister b) : LinksRegister (if c then a else b) := by
  split
  · exact ha
  · exact hb

theorem decodeBranchRegister_lk (hi : inst.lk = false) :
    LinksRegister (decodeBranchRegister raw inst) := by
  unfold decodeBranchRegister
  repeat' refine linksRegister_ite _ _ _ ?_ ?_
  all_goals
    intro h
    first
    | exact .inl rfl
    | exact .inr rfl
    | simp [hi] at h

/-- Only branches set the link register. -/
theorem ppcDecode_lk (address : BitVec 32) (h : (ppcDecode raw address).lk = true) :
    (ppcDecode raw address).op = .b ∨ (ppcDecode raw address).op = .bc ∨
      (ppcDecode raw address).op = .bclr ∨ (ppcDecode raw address).op = .bcctr := by
  unfold ppcDecode at h ⊢
  dsimp only at h ⊢
  split at h
  all_goals first
    | exact .inl rfl
    | exact .inr (.inl rfl)
    | exact .inr (.inr (decodeBranchRegister_lk raw { raw,address } rfl h))
    | (rw [decodePaired_lk] at h; cases h)
    | (rw [decodeSingle_lk] at h; cases h)
    | (rw [decodeDouble_lk] at h; cases h)
    | (simp at h; done)
    | (rw [lk_ite,decodeExtended_lk,decodeOverflowForm_lk] at h; simp at h)

end

end Decoder

namespace CFunction

/-- Where control is: at a label, at an instruction of an outlined loop, at `return_dispatch`,
in a call of another chunk with the label behind it, or back in the caller. -/
inductive Site
  | label (index : ℕ)
  | loop (first last index : ℕ)
  | dispatch
  | call (chunk continuation : BitVec 32)
  | returned
  deriving DecidableEq, Repr

structure FunctionState where
  site : Site
  cpu : CPUState

variable (f : CFunction)

/-- The label of an address; every instruction has one. -/
def labelIndex (address : BitVec 32) : Option ℕ :=
  f.insts.findIdx? fun i => i.address = address

/-- `switch (ctx->pc)`, at the start of the function. -/
def enter (cpu : CPUState) : FunctionState :=
  match f.labelIndex cpu.pc with
  | some index => ⟨.label index,cpu⟩
  | none => ⟨.returned,cpu⟩

/-- `goto label_%08X;`. A label outside the function would not compile. -/
def jump (address : BitVec 32) (cpu : CPUState) : FunctionState :=
  match f.labelIndex address with
  | some index => ⟨.label index,cpu⟩
  | none => ⟨.returned,{ cpu with pc := address }⟩

/-- The statements behind `return_dispatch_%08X`. -/
def returnDispatch (cpu : CPUState) : FunctionState :=
  if cpu.downcount.toInt ≤ -Emitter.loopCycleBudget then ⟨.returned,cpu⟩
  else
    match f.labelIndex cpu.pc with
    | some index => if f.returnTargets index then ⟨.label index,cpu⟩ else ⟨.returned,cpu⟩
    | none => ⟨.returned,cpu⟩

/-- Behind the statements of an instruction that has a label. -/
def afterStatements (index : ℕ) (i : PPCInst) : CFlow → FunctionState
  | .next cpu => ⟨.label (index + 1),cpu⟩
  | .goto address cpu => f.jump address cpu
  | .dispatch cpu => ⟨.dispatch,cpu⟩
  | .call chunk cpu => ⟨.call chunk (i.address + 4),cpu⟩
  | .ret cpu => ⟨.returned,cpu⟩

def addressAt (index : ℕ) : BitVec 32 := (f.insts[index]?.map PPCInst.address).getD 0

def afterLoop (last : ℕ) (cpu : CPUState) : FunctionState :=
  let continuation := f.addressAt last + 4
  if continuation < f.endAddress ∧ cpu.pc = continuation then f.jump continuation cpu
  else ⟨.returned,cpu⟩

/-- Behind the statements of an instruction of an outlined loop, whose only label is its first. -/
def afterLoopStatements (first last index : ℕ) (i : PPCInst) : CFlow → FunctionState
  | .next cpu =>
    if index = last then f.afterLoop last { cpu with pc := i.address + 4 }
    else ⟨.loop first last (index + 1),cpu⟩
  | .goto address cpu =>
    if f.labelIndex address = some first then ⟨.loop first last first,cpu⟩
    else ⟨.returned,{ cpu with pc := address }⟩
  | .dispatch cpu | .call _ cpu | .ret cpu => f.afterLoop last cpu

/-- A step of the function itself; it stands still in a call and when it has returned. -/
def run (s : FunctionState) : FunctionState :=
  match s.site with
  | .label index =>
    match f.insts[index]? with
    | none => ⟨.returned,{ s.cpu with pc := f.endAddress }⟩
    | some i =>
      match f.loopEnds index with
      | some last => ⟨.loop index last index,s.cpu⟩
      | none => f.afterStatements index i (f.inlineStatements index i s.cpu)
  | .loop first last index =>
    match f.insts[index]? with
    | none => ⟨.returned,s.cpu⟩
    | some i => f.afterLoopStatements first last index i (f.loopStatements first last index i s.cpu)
  | .dispatch => f.returnDispatch s.cpu
  | .call _ _ | .returned => s

section

variable {f} {index first last : ℕ} {i : PPCInst} {cpu : CPUState}

theorem run_label_end (hi : f.insts[index]? = none) :
    f.run ⟨.label index,cpu⟩ = ⟨.returned,{ cpu with pc := f.endAddress }⟩ := by
  simp only [run,hi]

theorem run_label_loop (hi : f.insts[index]? = some i) (hl : f.loopEnds index = some last) :
    f.run ⟨.label index,cpu⟩ = ⟨.loop index last index,cpu⟩ := by
  simp only [run,hi,hl]

theorem run_label (hi : f.insts[index]? = some i) (hl : f.loopEnds index = none) :
    f.run ⟨.label index,cpu⟩ = f.afterStatements index i (f.inlineStatements index i cpu) := by
  simp only [run,hi,hl]

theorem run_loop_end (hi : f.insts[index]? = none) :
    f.run ⟨.loop first last index,cpu⟩ = ⟨.returned,cpu⟩ := by
  simp only [run,hi]

theorem run_loop (hi : f.insts[index]? = some i) :
    f.run ⟨.loop first last index,cpu⟩ =
      f.afterLoopStatements first last index i (f.loopStatements first last index i cpu) := by
  simp only [run,hi]

end

/-- `if (ctx->pc == continuation) goto label;`, behind a call that has returned. -/
def resume (continuation : BitVec 32) (cpu : CPUState) : FunctionState :=
  if cpu.pc = continuation then f.jump continuation cpu else ⟨.returned,cpu⟩

/-- Consecutive decoded words; those that are no instruction may be embedded data. -/
structure FromWords : Prop where
  decoded : ∀ (k : ℕ) i, f.insts[k]? = some i → ∃ raw embeddedData,
    i = { ppcDecode raw (f.address + BitVec.ofNat 32 (4*k)) with embeddedData } ∧
    (embeddedData = true → i.op = .unknown)
  fits : f.address.toNat + 4*f.insts.length < 2^32

variable {f} in
theorem indexOf_eq {address : BitVec 32} {k : ℕ}
    (he : address.toNat = f.address.toNat + 4*k) : f.indexOf address = k := by
  have hle : f.address ≤ address := by
    rw [BitVec.le_def]
    omega
  rw [indexOf,BitVec.toNat_sub_of_le hle]
  omega

namespace FromWords

variable {f} (h : f.FromWords)

include h

theorem address {k : ℕ} {i : PPCInst} (hi : f.insts[k]? = some i) :
    i.address = f.address + BitVec.ofNat 32 (4*k) := by
  obtain ⟨raw,data,rfl,-⟩ := h.decoded k i hi
  exact ppcDecode_address raw _

theorem embeddedData : EmbeddedDataUnknown f.insts := by
  intro i hi hd
  obtain ⟨k,hk⟩ := List.mem_iff_getElem?.mp hi
  obtain ⟨raw,data,rfl,hu⟩ := h.decoded k i hk
  exact hu hd

theorem linked {k : ℕ} {i : PPCInst} (hi : f.insts[k]? = some i) (hlk : i.lk = true) :
    instructionEndsBlock i = true := by
  obtain ⟨raw,data,rfl,-⟩ := h.decoded k i hi
  have hop := Decoder.ppcDecode_lk raw _ hlk
  unfold instructionEndsBlock
  rcases hop with hop | hop | hop | hop <;> simp only [hop]

theorem address_toNat {k : ℕ} {i : PPCInst} (hi : f.insts[k]? = some i) :
    i.address.toNat = f.address.toNat + 4*k := by
  have hk := (List.getElem?_eq_some_iff.mp hi).1
  have := h.fits
  rw [h.address hi,BitVec.toNat_add,BitVec.toNat_ofNat]
  omega

theorem endAddress_toNat : f.endAddress.toNat = f.address.toNat + 4*f.insts.length := by
  have := h.fits
  rw [endAddress,BitVec.toNat_add,BitVec.toNat_ofNat]
  omega

theorem labelIndex_iff {address : BitVec 32} {k : ℕ} : f.labelIndex address = some k ↔
    k < f.insts.length ∧ address.toNat = f.address.toNat + 4*k := by
  rw [labelIndex,List.findIdx?_eq_some_iff_getElem]
  constructor
  · rintro ⟨hk,he,-⟩
    have hi : f.insts[k]? = some f.insts[k] := List.getElem?_eq_getElem hk
    refine ⟨hk,?_⟩
    rw [← of_decide_eq_true he]
    exact h.address_toNat hi
  · rintro ⟨hk,he⟩
    have hi : f.insts[k]? = some f.insts[k] := List.getElem?_eq_getElem hk
    refine ⟨hk,?_,fun j hj => ?_⟩
    · rw [decide_eq_true_eq,← BitVec.toNat_inj,he]
      exact h.address_toNat hi
    · have hj' : f.insts[j]? = some f.insts[j] := List.getElem?_eq_getElem (by omega)
      rw [decide_eq_true_eq,← BitVec.toNat_inj,he,h.address_toNat hj']
      omega

theorem contains_iff (address : BitVec 32) : f.contains address = true ↔
    ∃ k < f.insts.length, address.toNat = f.address.toNat + 4*k := by
  have hend := h.endAddress_toNat
  have hmod (hle : f.address ≤ address) : (address - f.address) &&& 3#32 = 0 ↔
      (address.toNat - f.address.toNat) % 4 = 0 := by
    rw [← BitVec.toNat_inj,BitVec.toNat_and,BitVec.toNat_sub_of_le hle,
      show (3#32).toNat = 2^2 - 1 by rfl,Nat.and_two_pow_sub_one_eq_mod]
    rfl
  rw [contains,decide_eq_true_eq,BitVec.lt_def,hend]
  constructor
  · rintro ⟨hle,hlt,h4⟩
    rw [hmod hle] at h4
    rw [BitVec.le_def] at hle
    exact ⟨(address.toNat - f.address.toNat)/4,by omega,by omega⟩
  · rintro ⟨k,hk,he⟩
    have hle : f.address ≤ address := by
      rw [BitVec.le_def]
      omega
    refine ⟨hle,by omega,?_⟩
    rw [hmod hle]
    omega

theorem jump_label (address : BitVec 32) (hc : f.contains address = true) (cpu : CPUState) :
    f.jump address cpu = ⟨.label (f.indexOf address),cpu⟩ ∧ f.indexOf address < f.insts.length ∧
      address.toNat = f.address.toNat + 4*f.indexOf address := by
  obtain ⟨k,hk,he⟩ := (h.contains_iff address).mp hc
  rw [indexOf_eq he,jump,h.labelIndex_iff.mpr ⟨hk,he⟩]
  exact ⟨rfl,hk,he⟩

end FromWords

end CFunction

end DolRecomp
