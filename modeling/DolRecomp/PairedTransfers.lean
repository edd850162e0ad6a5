import DolRecomp.WrittenBytes

/-!
# Paired-single loads and stores

The quantised accesses with what they return. The checks are made again between the two lanes.
-/

namespace DolRecomp

namespace Runtime

open Smc

section
variable (dev : Devices) (host : Host)

/-- `ppc_psq_load` with what it returns. -/
def psqLoad (cpu : CPUState) (frD : BitVec 5) (ea : BitVec 32) (w : Bool) (gqrIndex : BitVec 3)
    (indexed : Bool) (cia : BitVec 32) : Bool × CPUState :=
  let (enabled,cpu) := psqCheckEnabled cpu indexed cia
  if !enabled then (false,cpu)
  else
    let gqr := cpu.gqr gqrIndex
    let scale := gqrScale (gqr >>> 24)
    let type : BitVec 3 := (gqr >>> 16).truncate 3
    let (valid,cpu) := psqAccessIsValid cpu type ea cia
    if !valid then (false,cpu)
    else
      let (value,cpu) := psqLoadValue dev host cpu ea type scale
      let cpu := cpu.setFpr frD value
      if w then (true,cpu.setPs1 frD doubleOne)
      else
        let ps1Ea := ea + BitVec.ofNat 32 (psqTypeSize type)
        let (valid,cpu) := psqAccessIsValid cpu type ps1Ea cia
        if !valid then (false,cpu)
        else
          let (value,cpu) := psqLoadValue dev host cpu ps1Ea type scale
          (true,cpu.setPs1 frD value)

/-- `ppc_psq_store` with what it returns. -/
def psqStore (cpu : CPUState) (frS : BitVec 5) (ea : BitVec 32) (w : Bool) (gqrIndex : BitVec 3)
    (indexed : Bool) (cia : BitVec 32) : Bool × CPUState :=
  let (enabled,cpu) := psqCheckEnabled cpu indexed cia
  if !enabled then (false,cpu)
  else
    let gqr := cpu.gqr gqrIndex
    let scale := gqrScale (gqr >>> 8)
    let type : BitVec 3 := gqr.truncate 3
    let (valid,cpu) := psqAccessIsValid cpu type ea cia
    if !valid then (false,cpu)
    else
      let cpu := psqStoreValue dev cpu ea type scale (cpu.fpr frS)
      if w then (true,cpu)
      else
        let ps1Ea := ea + BitVec.ofNat 32 (psqTypeSize type)
        let (valid,cpu) := psqAccessIsValid cpu type ps1Ea cia
        if !valid then (false,cpu)
        else (true,psqStoreValue dev cpu ps1Ea type scale (cpu.ps1 frS))

variable (cpu : CPUState) (fr : BitVec 5) (ea : BitVec 32) (w : Bool) (gqrIndex : BitVec 3)
  (indexed : Bool) (cia : BitVec 32)

theorem psqLoad_state : (psqLoad dev host cpu fr ea w gqrIndex indexed cia).2 =
    ppcPsqLoad dev host cpu fr ea w gqrIndex indexed cia := by
  unfold psqLoad ppcPsqLoad
  dsimp only
  repeat' split
  all_goals rfl

theorem psqStore_state : (psqStore dev cpu fr ea w gqrIndex indexed cia).2 =
    ppcPsqStore dev cpu fr ea w gqrIndex indexed cia := by
  unfold psqStore ppcPsqStore
  dsimp only
  repeat' split
  all_goals rfl

end

/-- The registers of the transfers, and those that an exception writes. -/
structure SameRegisters (cpu cpu' : CPUState) : Prop where
  gpr : cpu'.gpr = cpu.gpr
  fpr : cpu'.fpr = cpu.fpr
  ps1 : cpu'.ps1 = cpu.ps1

structure SameMemory (cpu cpu' : CPUState) : Prop where
  ram : cpu'.ram = cpu.ram
  mem2 : cpu'.mem2 = cpu.mem2

structure NoException (cpu cpu' : CPUState) : Prop where
  exception : cpu'.exception = cpu.exception
  programException : cpu'.programException = cpu.programException
  msr : cpu'.msr = cpu.msr
  srr0 : cpu'.srr0 = cpu.srr0
  srr1 : cpu'.srr1 = cpu.srr1
  pc : cpu'.pc = cpu.pc

/-- The access has stopped: one exception is all that has happened. -/
structure Faulted (cpu : CPUState) (ea cia : BitVec 32) (cpu' : CPUState) : Prop where
  one : cpu' = ppcProgramException cpu ppcProgramIllegal cia ∨
    cpu' = ppcAlignmentException cpu ea cia
  registers : SameRegisters cpu cpu'
  memory : SameMemory cpu cpu'
  history : cpu'.history = cpu.history

section
variable {cpu : CPUState} {ea cia : BitVec 32}

theorem faulted_program :
    Faulted cpu ea cia (ppcProgramException cpu ppcProgramIllegal cia) := by
  refine ⟨Or.inl rfl,?_,?_,?_⟩ <;> rw [ppcProgramException,ppcTakeException] <;> constructor <;> rfl

theorem faulted_alignment : Faulted cpu ea cia (ppcAlignmentException cpu ea cia) := by
  refine ⟨Or.inr rfl,?_,?_,?_⟩ <;> rw [ppcAlignmentException,ppcTakeException] <;>
    constructor <;> rfl

theorem faulted_checkEnabled {indexed : Bool} (h : (psqCheckEnabled cpu indexed cia).1 = false) :
    Faulted cpu ea cia (psqCheckEnabled cpu indexed cia).2 := by
  unfold psqCheckEnabled at h ⊢
  split
  · exact faulted_program
  · next hn =>
    rw [if_neg hn] at h
    exact absurd h.symm Bool.false_ne_true

theorem faulted_accessIsValid {type : BitVec 3} (h : (psqAccessIsValid cpu type ea cia).1 = false) :
    Faulted cpu ea cia (psqAccessIsValid cpu type ea cia).2 := by
  unfold psqAccessIsValid at h ⊢
  split
  · exact faulted_program
  · next hs =>
    split
    · exact faulted_alignment
    · next ha =>
      rw [if_neg hs,if_neg ha] at h
      exact absurd h.symm Bool.false_ne_true

end

section
variable {dev : Devices} {host : Host} {cpu : CPUState}

theorem SameRegisters.trans {cpu' cpu'' : CPUState} (h : SameRegisters cpu cpu')
    (h' : SameRegisters cpu' cpu'') : SameRegisters cpu cpu'' :=
  ⟨h'.gpr.trans h.gpr,h'.fpr.trans h.fpr,h'.ps1.trans h.ps1⟩

theorem NoException.trans {cpu' cpu'' : CPUState} (h : NoException cpu cpu')
    (h' : NoException cpu' cpu'') : NoException cpu cpu'' :=
  ⟨h'.exception.trans h.exception,h'.programException.trans h.programException,h'.msr.trans h.msr,
    h'.srr0.trans h.srr0,h'.srr1.trans h.srr1,h'.pc.trans h.pc⟩

theorem memWrite_frame (addr : BitVec 32) (value : BitVec 64) (width : ℕ) :
    SameRegisters cpu (memWrite cpu addr value width) ∧
      NoException cpu (memWrite cpu addr value width) := by
  have hclear (c : CPUState) : SameRegisters c (clearMatchingReservation c addr) ∧
      NoException c (clearMatchingReservation c addr) := by
    unfold clearMatchingReservation
    dsimp only
    split <;> exact ⟨⟨rfl,rfl,rfl⟩,⟨rfl,rfl,rfl,rfl,rfl,rfl⟩⟩
  have hset (c : CPUState) (region : Region) (bytes : ℕ → BitVec 8) :
      SameRegisters c (setBytes c region bytes) ∧ NoException c (setBytes c region bytes) := by
    cases region <;> exact ⟨⟨rfl,rfl,rfl⟩,⟨rfl,rfl,rfl,rfl,rfl,rfl⟩⟩
  have hlog : SameRegisters cpu { cpu with history := ⟨true,addr,width,value⟩ :: cpu.history } ∧
      NoException cpu { cpu with history := ⟨true,addr,width,value⟩ :: cpu.history } :=
    ⟨⟨rfl,rfl,rfl⟩,⟨rfl,rfl,rfl,rfl,rfl,rfl⟩⟩
  unfold memWrite
  dsimp only
  split
  · split
    · exact hlog
    · exact ⟨(hlog.1.trans (hclear _).1).trans (hset _ _ _).1,
        (hlog.2.trans (hclear _).2).trans (hset _ _ _).2⟩
  · exact hlog

theorem psqStoreValue_frame (ea : BitVec 32) (type : BitVec 3) (scale : BitVec 32)
    (value : BitVec 64) : SameRegisters cpu (psqStoreValue dev cpu ea type scale value) ∧
      NoException cpu (psqStoreValue dev cpu ea type scale value) := by
  have hnone : SameRegisters cpu cpu ∧ NoException cpu cpu :=
    ⟨⟨rfl,rfl,rfl⟩,⟨rfl,rfl,rfl,rfl,rfl,rfl⟩⟩
  unfold psqStoreValue
  split
  · exact memWrite_frame ea _ 4
  · exact memWrite_frame ea _ 1
  · exact memWrite_frame ea _ 2
  · exact memWrite_frame ea _ 1
  · exact memWrite_frame ea _ 2
  · exact hnone

theorem psqLoadValue_state (ea : BitVec 32) (type : BitVec 3) (scale : BitVec 32) :
    ∃ history, (psqLoadValue dev host cpu ea type scale).2 = { cpu with history } := by
  unfold psqLoadValue
  split <;> exact ⟨_,rfl⟩

theorem psqLoadValue_setFpr (ea : BitVec 32) (type : BitVec 3) (scale : BitVec 32) (r : BitVec 5)
    (value : BitVec 64) : psqLoadValue dev host (cpu.setFpr r value) ea type scale =
      ((psqLoadValue dev host cpu ea type scale).1,
        (psqLoadValue dev host cpu ea type scale).2.setFpr r value) := by
  unfold psqLoadValue
  split <;> rfl

end

def loadType (cpu : CPUState) (gqrIndex : BitVec 3) : BitVec 3 :=
  ((cpu.gqr gqrIndex) >>> 16).truncate 3

def loadScale (cpu : CPUState) (gqrIndex : BitVec 3) : BitVec 32 :=
  gqrScale (cpu.gqr gqrIndex >>> 24)

def storeType (cpu : CPUState) (gqrIndex : BitVec 3) : BitVec 3 := (cpu.gqr gqrIndex).truncate 3

def storeScale (cpu : CPUState) (gqrIndex : BitVec 3) : BitVec 32 :=
  gqrScale (cpu.gqr gqrIndex >>> 8)

def laneAddress (type : BitVec 3) (ea : BitVec 32) : BitVec 32 :=
  ea + BitVec.ofNat 32 (psqTypeSize type)

variable (dev : Devices) (host : Host)

/-- Both lanes come from memory, the second after the first; with W it is 1.0. -/
structure Loaded (cpu : CPUState) (frD : BitVec 5) (ea : BitVec 32) (w : Bool) (type : BitVec 3)
    (scale : BitVec 32) (cpu' : CPUState) : Prop where
  fpr : cpu'.fpr = Function.update cpu.fpr frD (psqLoadValue dev host cpu ea type scale).1
  ps1 : cpu'.ps1 = Function.update cpu.ps1 frD (if w then doubleOne else
    (psqLoadValue dev host (psqLoadValue dev host cpu ea type scale).2
      (laneAddress type ea) type scale).1)
  gpr : cpu'.gpr = cpu.gpr
  memory : SameMemory cpu cpu'
  quiet : NoException cpu cpu'

/-- Both lanes go to memory, the second after the first; with W only the first does. -/
structure Stored (cpu : CPUState) (frS : BitVec 5) (ea : BitVec 32) (w : Bool) (type : BitVec 3)
    (scale : BitVec 32) (cpu' : CPUState) : Prop where
  lanes : cpu' = if w then psqStoreValue dev cpu ea type scale (cpu.fpr frS) else
    psqStoreValue dev (psqStoreValue dev cpu ea type scale (cpu.fpr frS)) (laneAddress type ea) type
      scale (cpu.ps1 frS)
  registers : SameRegisters cpu cpu'
  quiet : NoException cpu cpu'

section
variable {dev host} {cpu : CPUState} {ea cia : BitVec 32} {gqrIndex : BitVec 3} {indexed : Bool}

/-- What passes the checks for the first lane passes them for the second. -/
theorem psqLoad_valid (henabled : (psqCheckEnabled cpu indexed cia).1 = true)
    (hvalid : (psqAccessIsValid cpu (loadType cpu gqrIndex) ea cia).1 = true) (frD : BitVec 5)
    (w : Bool) : psqLoad dev host cpu frD ea w gqrIndex indexed cia =
      let lane := psqLoadValue dev host cpu ea (loadType cpu gqrIndex) (loadScale cpu gqrIndex)
      let cpu' := lane.2.setFpr frD lane.1
      let lane' := psqLoadValue dev host cpu' (laneAddress (loadType cpu gqrIndex) ea)
        (loadType cpu gqrIndex) (loadScale cpu gqrIndex)
      (true,if w then cpu'.setPs1 frD doubleOne else lane'.2.setPs1 frD lane'.1) := by
  have hfirst : psqAccessIsValid cpu (BitVec.truncate 3 (cpu.gqr gqrIndex >>> 16)) ea cia =
      (true,cpu) := psqAccessIsValid_state hvalid
  have hnext (c : CPUState) : psqAccessIsValid c (BitVec.truncate 3 (cpu.gqr gqrIndex >>> 16))
      (ea + BitVec.ofNat 32 (psqTypeSize (BitVec.truncate 3 (cpu.gqr gqrIndex >>> 16)))) cia =
        (true,c) := psqAccessIsValid_state (psqAccessIsValid_next hvalid)
  unfold psqLoad
  simp only [psqCheckEnabled_state henabled,hfirst,hnext,Bool.not_true,Bool.false_eq_true,if_false]
  cases w <;> rfl

theorem psqStore_valid (henabled : (psqCheckEnabled cpu indexed cia).1 = true)
    (hvalid : (psqAccessIsValid cpu (storeType cpu gqrIndex) ea cia).1 = true) (frS : BitVec 5)
    (w : Bool) : psqStore dev cpu frS ea w gqrIndex indexed cia =
      let cpu' := psqStoreValue dev cpu ea (storeType cpu gqrIndex) (storeScale cpu gqrIndex)
        (cpu.fpr frS)
      (true,if w then cpu' else psqStoreValue dev cpu' (laneAddress (storeType cpu gqrIndex) ea)
        (storeType cpu gqrIndex) (storeScale cpu gqrIndex) (cpu'.ps1 frS)) := by
  have hfirst : psqAccessIsValid cpu (BitVec.truncate 3 (cpu.gqr gqrIndex)) ea cia =
      (true,cpu) := psqAccessIsValid_state hvalid
  have hnext (c : CPUState) : psqAccessIsValid c (BitVec.truncate 3 (cpu.gqr gqrIndex))
      (ea + BitVec.ofNat 32 (psqTypeSize (BitVec.truncate 3 (cpu.gqr gqrIndex)))) cia =
        (true,c) := psqAccessIsValid_state (psqAccessIsValid_next hvalid)
  unfold psqStore
  simp only [psqCheckEnabled_state henabled,hfirst,hnext,Bool.not_true,Bool.false_eq_true,if_false]
  cases w <;> rfl

theorem loaded_psqLoad (henabled : (psqCheckEnabled cpu indexed cia).1 = true)
    (hvalid : (psqAccessIsValid cpu (loadType cpu gqrIndex) ea cia).1 = true) (frD : BitVec 5)
    (w : Bool) : Loaded dev host cpu frD ea w (loadType cpu gqrIndex) (loadScale cpu gqrIndex)
      (psqLoad dev host cpu frD ea w gqrIndex indexed cia).2 := by
  rw [psqLoad_valid henabled hvalid]
  generalize loadType cpu gqrIndex = type
  generalize loadScale cpu gqrIndex = scale
  simp only [psqLoadValue_setFpr]
  obtain ⟨history,hread⟩ := @psqLoadValue_state dev host cpu ea type scale
  obtain ⟨history',hread'⟩ := @psqLoadValue_state dev host { cpu with history }
    (laneAddress type ea) type scale
  simp only [hread,hread']
  cases w with
  | true => exact ⟨rfl,rfl,rfl,⟨rfl,rfl⟩,⟨rfl,rfl,rfl,rfl,rfl,rfl⟩⟩
  | false =>
    refine ⟨rfl,?_,rfl,⟨rfl,rfl⟩,⟨rfl,rfl,rfl,rfl,rfl,rfl⟩⟩
    simp only [hread]
    rfl

theorem stored_psqStore (henabled : (psqCheckEnabled cpu indexed cia).1 = true)
    (hvalid : (psqAccessIsValid cpu (storeType cpu gqrIndex) ea cia).1 = true) (frS : BitVec 5)
    (w : Bool) : Stored dev cpu frS ea w (storeType cpu gqrIndex) (storeScale cpu gqrIndex)
      (psqStore dev cpu frS ea w gqrIndex indexed cia).2 := by
  rw [psqStore_valid henabled hvalid]
  generalize storeType cpu gqrIndex = type
  generalize storeScale cpu gqrIndex = scale
  dsimp only
  have hfirst := @psqStoreValue_frame dev cpu ea type scale (cpu.fpr frS)
  have hps1 := congrFun hfirst.1.ps1 frS
  rw [hps1]
  have hsecond := @psqStoreValue_frame dev
    (psqStoreValue dev cpu ea type scale (cpu.fpr frS)) (laneAddress type ea) type scale
    (cpu.ps1 frS)
  refine ⟨rfl,?_,?_⟩ <;> cases w
  · exact hfirst.1.trans hsecond.1
  · exact hfirst.1
  · exact hfirst.2.trans hsecond.2
  · exact hfirst.2

theorem psqLoad_stopped (frD : BitVec 5) (w : Bool)
    (h : ¬ ((psqCheckEnabled cpu indexed cia).1 = true ∧
      (psqAccessIsValid cpu (loadType cpu gqrIndex) ea cia).1 = true)) :
    (psqLoad dev host cpu frD ea w gqrIndex indexed cia).1 = false ∧
      Faulted cpu ea cia (psqLoad dev host cpu frD ea w gqrIndex indexed cia).2 := by
  cases henabled : (psqCheckEnabled cpu indexed cia).1 with
  | false =>
    unfold psqLoad
    simp only [henabled,Bool.not_false,if_true]
    exact ⟨trivial,faulted_checkEnabled henabled⟩
  | true =>
    have hvalid : (psqAccessIsValid cpu (BitVec.truncate 3 (cpu.gqr gqrIndex >>> 16)) ea cia).1 =
        false := Bool.eq_false_iff.mpr fun hv => h ⟨henabled,hv⟩
    unfold psqLoad
    simp only [psqCheckEnabled_state henabled,hvalid,Bool.not_true,Bool.not_false,
      Bool.false_eq_true,if_true,if_false]
    exact ⟨trivial,faulted_accessIsValid hvalid⟩

theorem psqStore_stopped (frS : BitVec 5) (w : Bool)
    (h : ¬ ((psqCheckEnabled cpu indexed cia).1 = true ∧
      (psqAccessIsValid cpu (storeType cpu gqrIndex) ea cia).1 = true)) :
    (psqStore dev cpu frS ea w gqrIndex indexed cia).1 = false ∧
      Faulted cpu ea cia (psqStore dev cpu frS ea w gqrIndex indexed cia).2 := by
  cases henabled : (psqCheckEnabled cpu indexed cia).1 with
  | false =>
    unfold psqStore
    simp only [henabled,Bool.not_false,if_true]
    exact ⟨trivial,faulted_checkEnabled henabled⟩
  | true =>
    have hvalid : (psqAccessIsValid cpu (BitVec.truncate 3 (cpu.gqr gqrIndex)) ea cia).1 =
        false := Bool.eq_false_iff.mpr fun hv => h ⟨henabled,hv⟩
    unfold psqStore
    simp only [psqCheckEnabled_state henabled,hvalid,Bool.not_true,Bool.not_false,
      Bool.false_eq_true,if_true,if_false]
    exact ⟨trivial,faulted_accessIsValid hvalid⟩

end

/-- An access finishes under its condition and stops without it. -/
theorem outcome {p : Prop} {result : Bool × CPUState} {finished stopped : CPUState → Prop}
    (hfinished : p → result.1 = true ∧ finished result.2)
    (hstopped : ¬p → result.1 = false ∧ stopped result.2) :
    (result.1 = false → stopped result.2) ∧ (result.1 = true → finished result.2) := by
  by_cases h : p
  · obtain ⟨htrue,hresult⟩ := hfinished h
    exact ⟨fun hfalse => absurd (htrue.symm.trans hfalse) Bool.noConfusion,fun _ => hresult⟩
  · obtain ⟨hfalse,hresult⟩ := hstopped h
    exact ⟨fun _ => hresult,fun htrue => absurd (hfalse.symm.trans htrue) Bool.noConfusion⟩

/-- A paired load or store that returns false has taken one exception and changed nothing else; one
that returns true has taken none and transferred its lanes. -/
theorem paired_transfers_atomic (cpu : CPUState) (fr : BitVec 5) (ea : BitVec 32) (w : Bool)
    (gqrIndex : BitVec 3) (indexed : Bool) (cia : BitVec 32) :
    ((psqLoad dev host cpu fr ea w gqrIndex indexed cia).1 = false →
      Faulted cpu ea cia (psqLoad dev host cpu fr ea w gqrIndex indexed cia).2) ∧
    ((psqLoad dev host cpu fr ea w gqrIndex indexed cia).1 = true →
      Loaded dev host cpu fr ea w (loadType cpu gqrIndex) (loadScale cpu gqrIndex)
        (psqLoad dev host cpu fr ea w gqrIndex indexed cia).2) ∧
    ((psqStore dev cpu fr ea w gqrIndex indexed cia).1 = false →
      Faulted cpu ea cia (psqStore dev cpu fr ea w gqrIndex indexed cia).2) ∧
    ((psqStore dev cpu fr ea w gqrIndex indexed cia).1 = true →
      Stored dev cpu fr ea w (storeType cpu gqrIndex) (storeScale cpu gqrIndex)
        (psqStore dev cpu fr ea w gqrIndex indexed cia).2) := by
  have hload := outcome (fun h => ⟨congrArg Prod.fst (psqLoad_valid h.1 h.2 fr w),
    loaded_psqLoad h.1 h.2 fr w⟩) (@psqLoad_stopped dev host cpu ea cia gqrIndex indexed fr w)
  have hstore := outcome (fun h => ⟨congrArg Prod.fst (psqStore_valid h.1 h.2 fr w),
    stored_psqStore h.1 h.2 fr w⟩) (@psqStore_stopped dev cpu ea cia gqrIndex indexed fr w)
  exact ⟨hload.1,hload.2,hstore.1,hstore.2⟩

end Runtime

end DolRecomp
