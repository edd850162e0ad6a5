import DolRecomp.SmcAnalysis

/-!
# Which registers an instruction changes

The general registers that an opcode names, as far as the analysis of the known
registers treats them: those it replaces in its table, and those it has no case for.
-/

namespace DolRecomp.Smc

/-- What the analysis does to the table for an opcode. -/
inductive TableUpdate
  | keep | forgetD | forgetA | forgetFrom | loadD | loadX | storeD | storeX | addi | addis | ori
  | oris | xori | xoris

def tableUpdate : PPCOpcode → TableUpdate
  | .addi => .addi
  | .addis => .addis
  | .ori => .ori
  | .oris => .oris
  | .xori => .xori
  | .xoris => .xoris
  | .lwz | .lbz | .lhz | .lha | .lwzx | .lbzx | .lhzx | .lhax | .lwbrx | .lhbrx | .lwarx
  | .mfcr | .mfspr | .mftb | .mfmsr | .mfsr | .mfsrin | .mulli | .subfic | .add | .addo | .addc
  | .addco | .adde | .addeo | .addme | .addmeo | .addze | .addzeo | .subf | .subfo | .subfc
  | .subfco | .subfe | .subfeo | .subfme | .subfmeo | .subfze | .subfzeo | .neg | .nego | .mullw
  | .mullwo | .mulhw | .mulhwu | .divw | .divwo | .divwu | .divwuo => .forgetD
  | .lwzu | .lbzu | .lhzu | .lhau => .loadD
  | .lwzux | .lbzux | .lhzux | .lhaux => .loadX
  | .stwu | .stbu | .sthu => .storeD
  | .stwux | .stbux | .sthux | .stfsux | .stfdux | .psqStux => .storeX
  | .and | .andc | .or | .orc | .xor | .nand | .nor | .eqv | .cntlzw | .extsb | .extsh | .slw
  | .srw | .sraw | .srawi | .rlwinm | .rlwnm | .rlwimi => .forgetA
  | .lmw => .forgetFrom
  | _ => .keep

/-- `count` registers from `rD` on, counted modulo 32. -/
def registersFrom (rD : BitVec 5) (count : ℕ) : List (BitVec 5) :=
  (List.range count).map fun n => rD + BitVec.ofNat 5 n

def updatedRegs (i : PPCInst) : List (BitVec 5) :=
  match tableUpdate i.op with
  | .keep => []
  | .forgetD | .addi | .addis => [i.rD]
  | .forgetA | .storeD | .storeX | .ori | .oris | .xori | .xoris => [i.rA]
  | .loadD | .loadX => [i.rA,i.rD]
  | .forgetFrom => registersFrom i.rD (32 - i.rD.toNat)

/-- The registers that a step writes and the analysis has no case for. -/
def missedRegs (i : PPCInst) (cpu : CPUState) : List (BitVec 5) :=
  match i.op with
  | .addic | .addicDot | .eciwx => [i.rD]
  | .andi | .andis | .lfsu | .lfdu | .lfsux | .lfdux | .psqLu | .psqLux | .stfsu | .stfdu
  | .psqStu => [i.rA]
  | .lswi => registersFrom i.rD ((Emitter.stringCount i + 3) / 4)
  | .lswx => registersFrom i.rD ((Emitter.lswxCount cpu + 3) / 4)
  | _ => []

def changedRegs (i : PPCInst) (cpu : CPUState) : List (BitVec 5) :=
  updatedRegs i ++ missedRegs i cpu

structure Changes (rs : List (BitVec 5)) (cpu cpu' : CPUState) : Prop where
  same : ∀ r, r ∉ rs → cpu'.gpr r = cpu.gpr r

/-- The fallback changes no general register but the target of `mfspr`. -/
def FallbackKeeps (host : Host) : Prop :=
  ∀ f, host.instructionFallback = some f → ∀ cpu raw cia r,
    (f cpu raw cia).gpr r ≠ cpu.gpr r → (ppcDecode raw cia).op = .mfspr ∧ r = (ppcDecode raw cia).rD

/-- No register that the step writes behind the analysis is known. -/
def NotStale (regs : KnownRegs) (i : PPCInst) (cpu : CPUState) : Prop :=
  ∀ r ∈ missedRegs i cpu, regs r = none

section

variable {cpu cpu' cpu'' : CPUState} {rs rs' : List (BitVec 5)} {r : BitVec 5} {v : BitVec 32}

theorem changes_of_gpr (h : cpu'.gpr = cpu.gpr) : Changes rs cpu cpu' := ⟨fun r _ => congrFun h r⟩

theorem changes_setGpr (h : cpu'.gpr = cpu.gpr) : Changes [r] cpu (cpu'.setGpr r v) := by
  refine ⟨fun s hs => ?_⟩
  rw [CPUState.setGpr_gpr,if_neg (fun he => hs (List.mem_singleton.mpr he)),h]

theorem Changes.of_gpr (h : Changes rs cpu cpu') (he : cpu''.gpr = cpu'.gpr) :
    Changes rs cpu cpu'' := ⟨fun r hr => (congrFun he r).trans (h.same r hr)⟩

theorem Changes.mono (h : Changes rs cpu cpu') (hs : rs ⊆ rs') : Changes rs' cpu cpu' :=
  ⟨fun r hr => h.same r fun hm => hr (hs hm)⟩

theorem changes_mem (h : Changes [r] cpu cpu') (hm : r ∈ rs) : Changes rs cpu cpu' :=
  h.mono fun _ hs => List.mem_singleton.mp hs ▸ hm

theorem Changes.trans (h : Changes rs cpu cpu') (h' : Changes rs cpu' cpu'') :
    Changes rs cpu cpu'' := ⟨fun r hr => (h'.same r hr).trans (h.same r hr)⟩

theorem changes_foldl {step : CPUState → ℕ → CPUState} {count : ℕ}
    (h : ∀ cpu, ∀ n < count, Changes rs cpu (step cpu n)) (cpu : CPUState) :
    Changes rs cpu ((List.range count).foldl step cpu) := by
  induction count with
  | zero => exact changes_of_gpr rfl
  | succ count ih =>
    rw [List.range_succ,List.foldl_append]
    exact (ih fun cpu n hn => h cpu n (by omega)).trans (h _ count (by omega))

end

section

open Emitter

variable {i : PPCInst} {cpu cpu' cpu'' : CPUState} {rs : List (BitVec 5)} {reg : BitVec 5}

/-- The opcode may be put in for itself. -/
theorem mem_changedRegs {op : PPCOpcode} (ho : i.op = op)
    (h : reg ∈ changedRegs { i with op } cpu) : reg ∈ changedRegs i cpu := by
  rwa [← ho] at h

theorem emitRecordIfNeeded_gpr : (emitRecordIfNeeded i reg cpu).gpr = cpu.gpr := by
  unfold emitRecordIfNeeded
  split <;> rfl

theorem overflowIf_gpr {ov : Bool} : (overflowIf i ov cpu).gpr = cpu.gpr := by
  unfold overflowIf
  split <;> rfl

theorem changes_recorded {v : BitVec 32} (h : cpu'.gpr = (cpu.setGpr reg v).gpr) :
    Changes [reg] cpu (emitRecordIfNeeded i reg cpu') :=
  ((changes_setGpr rfl).of_gpr h).of_gpr emitRecordIfNeeded_gpr

theorem emitAdd_changes : Changes [i.rD] cpu (emitAdd i cpu) := changes_recorded overflowIf_gpr

theorem emitCarrying_changes {a b : BitVec 32} {wide : BitVec 64} :
    Changes [i.rD] cpu (emitCarrying i a b wide cpu) := changes_recorded overflowIf_gpr

theorem emitAddMinusOne_changes {input : BitVec 32} :
    Changes [i.rD] cpu (emitAddMinusOne i input cpu) := changes_recorded overflowIf_gpr

theorem emitSubf_changes : Changes [i.rD] cpu (emitSubf i cpu) := changes_recorded overflowIf_gpr

theorem emitDivw_changes : Changes [i.rD] cpu (emitDivw i cpu) := changes_recorded overflowIf_gpr

theorem emitDivwu_changes : Changes [i.rD] cpu (emitDivwu i cpu) := changes_recorded overflowIf_gpr

theorem emitMullw_changes : Changes [i.rD] cpu (emitMullw i cpu) := changes_recorded overflowIf_gpr

theorem emitResult_changes {v : BitVec 32} : Changes [reg] cpu (emitResult i reg v cpu) :=
  changes_recorded rfl

theorem emitLogical_changes : Changes [i.rA] cpu (emitLogical i cpu) := changes_recorded rfl

theorem emitShift_changes {shift : BitVec 32 → ℕ → BitVec 32} :
    Changes [i.rA] cpu (emitShift i shift cpu) := changes_recorded rfl

theorem emitShiftAlgebraic_changes : Changes [i.rA] cpu (emitShiftAlgebraic i cpu) :=
  changes_recorded rfl

theorem emitRotate_changes {sh : BitVec 32} : Changes [i.rA] cpu (emitRotate i sh cpu) :=
  changes_recorded rfl

theorem changes_setXerCa {v : BitVec 32} {wide : BitVec 64} :
    Changes [reg] cpu (setXerCa wide (cpu.setGpr reg v)) := (changes_setGpr rfl).of_gpr rfl

theorem changes_setCr0 {v : BitVec 32} {r : BitVec 5} :
    Changes [reg] cpu (emitSetCr0FromGpr r (cpu.setGpr reg v)) := (changes_setGpr rfl).of_gpr rfl

theorem changes_ite {c : Prop} [Decidable c] (h : Changes rs cpu cpu') (h' : Changes rs cpu cpu'') :
    Changes rs cpu (if c then cpu' else cpu'') := by
  split
  · exact h
  · exact h'

theorem changes_addic {v : BitVec 32} {wide : BitVec 64} {r : BitVec 5} {c : Prop} [Decidable c] :
    Changes [reg] cpu (if c then emitSetCr0FromGpr r (setXerCa wide (cpu.setGpr reg v))
      else setXerCa wide (cpu.setGpr reg v)) :=
  have hset : Changes [reg] cpu (cpu.setGpr reg v) := changes_setGpr rfl
  changes_ite (hset.of_gpr rfl) changes_setXerCa

theorem changes_ori {v : BitVec 32} {c : Prop} [Decidable c] :
    Changes [reg] cpu (if c then cpu else cpu.setGpr reg v) :=
  changes_ite (changes_of_gpr rfl) (changes_setGpr rfl)

theorem changes_neg {v : BitVec 32} {ov : Bool} :
    Changes [reg] cpu (emitRecordIfNeeded i reg (overflowIf i ov (cpu.setGpr reg v))) :=
  changes_recorded overflowIf_gpr

theorem changes_compareS {crf : BitVec 3} {a b : BitVec 32} :
    Changes rs cpu (emitCompareS32 crf a b cpu) := changes_of_gpr rfl

theorem changes_compareU {crf : BitVec 3} {a b : BitVec 32} :
    Changes rs cpu (emitCompareU32 crf a b cpu) := changes_of_gpr rfl

theorem changes_refl : Changes rs cpu cpu := changes_of_gpr rfl

theorem emitInteger_changes : Changes (changedRegs i cpu) cpu (emitInteger i cpu) := by
  unfold emitInteger
  dsimp only
  split
  all_goals rename_i ho
  all_goals first
    | with_reducible apply changes_mem emitAdd_changes
    | with_reducible apply changes_mem emitCarrying_changes
    | with_reducible apply changes_mem emitAddMinusOne_changes
    | with_reducible apply changes_mem emitSubf_changes
    | with_reducible apply changes_mem emitDivw_changes
    | with_reducible apply changes_mem emitDivwu_changes
    | with_reducible apply changes_mem emitMullw_changes
    | with_reducible apply changes_mem emitResult_changes
    | with_reducible apply changes_mem emitLogical_changes
    | with_reducible apply changes_mem emitShift_changes
    | with_reducible apply changes_mem emitShiftAlgebraic_changes
    | with_reducible apply changes_mem emitRotate_changes
    | with_reducible apply changes_mem (changes_setGpr rfl)
    | with_reducible apply changes_mem changes_setXerCa
    | with_reducible apply changes_mem changes_addic
    | with_reducible apply changes_mem changes_setCr0
    | with_reducible apply changes_mem changes_ori
    | with_reducible apply changes_mem changes_neg
    | with_reducible apply changes_compareS
    | with_reducible apply changes_compareU
    | with_reducible apply changes_refl
  all_goals exact mem_changedRegs ho List.mem_cons_self

theorem emitConditionRegister_changes :
    Changes (changedRegs i cpu) cpu (emitConditionRegister i cpu) := by
  unfold emitConditionRegister
  split
  all_goals rename_i ho
  all_goals first
    | (with_reducible apply changes_mem (changes_setGpr rfl)
       exact mem_changedRegs ho List.mem_cons_self)
    | exact changes_of_gpr rfl
    | skip
  unfold emitMtcrf
  dsimp only
  split
  all_goals exact changes_of_gpr rfl

theorem clearMatchingReservation_gpr {addr : BitVec 32} :
    (Runtime.clearMatchingReservation cpu addr).gpr = cpu.gpr := by
  unfold Runtime.clearMatchingReservation
  dsimp only
  split <;> rfl

theorem setBytes_gpr {region : Runtime.Region} {bytes : ℕ → BitVec 8} :
    (Runtime.setBytes cpu region bytes).gpr = cpu.gpr := by
  cases region <;> rfl

theorem memWrite_gpr (ea : BitVec 32) (value : BitVec 64) (width : ℕ) :
    (Runtime.memWrite cpu ea value width).gpr = cpu.gpr := by
  unfold Runtime.memWrite
  dsimp only
  split
  · split
    · rfl
    · rw [setBytes_gpr,clearMatchingReservation_gpr]
  · rfl

theorem takeException_gpr {exception vector srr0 info : BitVec 32} :
    (Runtime.ppcTakeException cpu exception vector srr0 info).gpr = cpu.gpr := rfl

theorem programException_gpr {cause cia : BitVec 32} :
    (Runtime.ppcProgramException cpu cause cia).gpr = cpu.gpr := by
  rw [Runtime.ppcProgramException,takeException_gpr]

theorem alignmentException_gpr {ea cia : BitVec 32} :
    (Runtime.ppcAlignmentException cpu ea cia).gpr = cpu.gpr := by
  rw [Runtime.ppcAlignmentException,takeException_gpr]

theorem updateBase_changes {update : Bool} {ea : BitVec 32} (h : Changes rs cpu cpu')
    (hA : update = true → i.rA ∈ rs) : Changes rs cpu (updateBase i update ea cpu') := by
  cases update with
  | false => exact h
  | true => exact h.trans (changes_mem (changes_setGpr rfl) (hA rfl))

theorem emitLoadAt_changes {read : CPUState → BitVec 32 → BitVec 32 × CPUState} {update : Bool}
    {ea : BitVec 32} (hread : ∀ cpu ea, (read cpu ea).2.gpr = cpu.gpr) (hD : i.rD ∈ rs)
    (hA : update = true → i.rA ∈ rs) : Changes rs cpu (emitLoadAt i ea read update cpu) := by
  have hload : Changes rs cpu ((read cpu ea).2.setGpr i.rD (read cpu ea).1) :=
    changes_mem (changes_setGpr (hread cpu ea)) hD
  exact updateBase_changes hload hA

theorem emitStoreAt_changes {write : CPUState → BitVec 32 → BitVec 32 → CPUState} {update : Bool}
    {ea : BitVec 32} (hwrite : ∀ cpu ea v, (write cpu ea v).gpr = cpu.gpr)
    (hA : update = true → i.rA ∈ rs) : Changes rs cpu (emitStoreAt i ea write update cpu) :=
  updateBase_changes (changes_of_gpr (hwrite _ _ _)) hA

theorem mem_registersFrom {rD : BitVec 5} {n count : ℕ} (h : n < count) :
    rD + BitVec.ofNat 5 n ∈ registersFrom rD count :=
  List.mem_map.mpr ⟨n,List.mem_range.mpr h,rfl⟩

theorem lswBytes_changes {host : Host} {rD : BitVec 5} {ea : BitVec 32} {count : ℕ} :
    Changes (registersFrom rD ((count + 3) / 4)) cpu (Runtime.lswBytes host rD ea count cpu) := by
  refine changes_foldl (fun cpu n hn => ?_) cpu
  have hm : rD + BitVec.ofNat 5 (n / 4) ∈ registersFrom rD ((count + 3) / 4) :=
    mem_registersFrom (by omega)
  have hfirst : Changes (registersFrom rD ((count + 3) / 4)) cpu
      (if n % 4 = 0 then cpu.setGpr (rD + BitVec.ofNat 5 (n / 4)) 0 else cpu) :=
    changes_ite (changes_mem (changes_setGpr rfl) hm) (changes_of_gpr rfl)
  exact hfirst.trans (changes_mem (changes_setGpr rfl) hm)

theorem emitLmw_changes {host : Host} :
    Changes (registersFrom i.rD (32 - i.rD.toNat)) cpu (emitLmw host i cpu) := by
  refine changes_foldl (fun _ _ hn => ?_) cpu
  exact changes_mem (changes_setGpr rfl) (mem_registersFrom hn)

theorem memWrites_changes {f : CPUState → ℕ → BitVec 32} {value : CPUState → ℕ → BitVec 64}
    {width count : ℕ} :
    Changes rs cpu ((List.range count).foldl
      (fun cpu n => Runtime.memWrite cpu (f cpu n) (value cpu n) width) cpu) :=
  changes_foldl (fun _ _ _ => changes_of_gpr (memWrite_gpr _ _ _)) cpu

theorem emitStwcx_changes : Changes rs cpu (emitStwcx i cpu) := by
  unfold emitStwcx
  dsimp only
  split
  · exact changes_of_gpr (memWrite_gpr _ _ _)
  · exact changes_of_gpr rfl

theorem unlessException_changes {rest : CPUState → CPUState} (h : Changes rs cpu cpu')
    (hrest : Changes rs cpu' (rest cpu')) : Changes rs cpu (unlessException rest cpu').cpu := by
  unfold unlessException
  split
  · exact h
  · exact h.trans hrest

theorem emitFloadAt_changes {host : Host} {ea : BitVec 32} {single update : Bool}
    (hA : update = true → i.rA ∈ rs) :
    Changes rs cpu (emitFloadAt host i ea single update cpu) := by
  refine updateBase_changes ?_ hA
  cases single <;> exact changes_of_gpr rfl

theorem emitFstoreAt_changes {ea : BitVec 32} {single update : Bool}
    (hA : update = true → i.rA ∈ rs) : Changes rs cpu (emitFstoreAt i ea single update cpu) := by
  refine updateBase_changes ?_ hA
  cases single <;> exact changes_of_gpr (memWrite_gpr _ _ _)

theorem psqCheckEnabled_gpr {indexed : Bool} {cia : BitVec 32} :
    (Runtime.psqCheckEnabled cpu indexed cia).2.gpr = cpu.gpr := by
  unfold Runtime.psqCheckEnabled
  split
  · exact programException_gpr
  · rfl

theorem psqAccessIsValid_gpr {type : BitVec 3} {ea cia : BitVec 32} :
    (Runtime.psqAccessIsValid cpu type ea cia).2.gpr = cpu.gpr := by
  unfold Runtime.psqAccessIsValid
  split
  · exact programException_gpr
  · split
    · exact alignmentException_gpr
    · rfl

variable {dev : Devices} {host : Host}

theorem psqStoreValue_gpr {ea : BitVec 32} {type : BitVec 3} {scale : BitVec 32}
    {value : BitVec 64} : (Runtime.psqStoreValue dev cpu ea type scale value).gpr = cpu.gpr := by
  unfold Runtime.psqStoreValue
  split
  all_goals first
    | exact memWrite_gpr _ _ _
    | rfl

theorem psqLoadValue_gpr {ea : BitVec 32} {type : BitVec 3} {scale : BitVec 32} :
    (Runtime.psqLoadValue dev host cpu ea type scale).2.gpr = cpu.gpr := by
  unfold Runtime.psqLoadValue
  split <;> rfl

theorem ppcPsqStore_gpr {frS : BitVec 5} {ea : BitVec 32} {w : Bool} {gqrIndex : BitVec 3}
    {indexed : Bool} {cia : BitVec 32} :
    (Runtime.ppcPsqStore dev cpu frS ea w gqrIndex indexed cia).gpr = cpu.gpr := by
  unfold Runtime.ppcPsqStore
  dsimp only
  split
  · exact psqCheckEnabled_gpr
  · split
    · rw [psqAccessIsValid_gpr,psqCheckEnabled_gpr]
    · split
      · rw [psqStoreValue_gpr,psqAccessIsValid_gpr,psqCheckEnabled_gpr]
      · split
        · rw [psqAccessIsValid_gpr,psqStoreValue_gpr,psqAccessIsValid_gpr,psqCheckEnabled_gpr]
        · rw [psqStoreValue_gpr,psqAccessIsValid_gpr,psqStoreValue_gpr,psqAccessIsValid_gpr,
            psqCheckEnabled_gpr]

theorem setFpr_gpr {r : BitVec 5} {v : BitVec 64} : (cpu.setFpr r v).gpr = cpu.gpr := rfl

theorem setPs1_gpr {r : BitVec 5} {v : BitVec 64} : (cpu.setPs1 r v).gpr = cpu.gpr := rfl

theorem ppcPsqLoad_gpr {frD : BitVec 5} {ea : BitVec 32} {w : Bool} {gqrIndex : BitVec 3}
    {indexed : Bool} {cia : BitVec 32} :
    (Runtime.ppcPsqLoad dev host cpu frD ea w gqrIndex indexed cia).gpr = cpu.gpr := by
  unfold Runtime.ppcPsqLoad
  dsimp only
  split
  · exact psqCheckEnabled_gpr
  · split
    · rw [psqAccessIsValid_gpr,psqCheckEnabled_gpr]
    · split
      · rw [setPs1_gpr,setFpr_gpr,psqLoadValue_gpr,psqAccessIsValid_gpr,psqCheckEnabled_gpr]
      · split
        · rw [psqAccessIsValid_gpr,setFpr_gpr,psqLoadValue_gpr,psqAccessIsValid_gpr,
            psqCheckEnabled_gpr]
        · rw [setPs1_gpr,psqLoadValue_gpr,psqAccessIsValid_gpr,setFpr_gpr,psqLoadValue_gpr,
            psqAccessIsValid_gpr,psqCheckEnabled_gpr]

theorem emitPsqLoad_changes {indexed update : Bool} (hA : update = true → i.rA ∈ rs) :
    Changes rs cpu (emitPsqLoad dev host i indexed update cpu).cpu :=
  unlessException_changes (changes_of_gpr ppcPsqLoad_gpr)
    (updateBase_changes (changes_of_gpr rfl) hA)

theorem emitPsqStore_changes {indexed update : Bool} (hA : update = true → i.rA ∈ rs) :
    Changes rs cpu (emitPsqStore dev i indexed update cpu).cpu :=
  unlessException_changes (changes_of_gpr ppcPsqStore_gpr)
    (updateBase_changes (changes_of_gpr rfl) hA)

theorem dcbzHit_gpr {cia : BitVec 32} : (Runtime.dcbzHit cpu cia).gpr = cpu.gpr := by
  unfold Runtime.dcbzHit
  dsimp only
  split
  · rw [takeException_gpr]
  · rfl

theorem ppcDcbzL_changes {ea cia : BitVec 32} :
    Changes rs cpu (Runtime.ppcDcbzL dev cpu ea cia) := by
  unfold Runtime.ppcDcbzL
  split
  · exact changes_of_gpr programException_gpr
  · split
    · exact changes_of_gpr programException_gpr
    · have hstart : Changes rs cpu
          (if dev.lockedCacheHit cpu (ea &&& ~~~31#32) then Runtime.dcbzHit cpu cia else cpu) :=
        changes_ite (changes_of_gpr dcbzHit_gpr) (changes_of_gpr rfl)
      exact hstart.trans memWrites_changes

theorem externalAccess_gpr {ea cia : BitVec 32} :
    (Runtime.externalAccess cpu ea cia).2.gpr = cpu.gpr := by
  unfold Runtime.externalAccess
  split
  · rw [Runtime.ppcDsiException,takeException_gpr]
  · split
    · exact alignmentException_gpr
    · rfl

theorem emitEciwx_changes : Changes [i.rD] cpu (emitEciwx dev i cpu).cpu := by
  unfold emitEciwx Runtime.ppcEciwx
  exact unlessException_changes (changes_of_gpr externalAccess_gpr) (changes_setGpr rfl)

theorem ppcTlbie_gpr {cia : BitVec 32} : (Runtime.ppcTlbie cpu cia).gpr = cpu.gpr := by
  unfold Runtime.ppcTlbie
  split
  · exact programException_gpr
  · rfl

/-- The fallback writes at most the target of `mfspr`. -/
theorem fallback_changes (hh : FallbackKeeps host) (hi : i = ppcDecode i.raw i.address)
    (hD : i.op = .mfspr → i.rD ∈ rs) :
    Changes rs cpu (Runtime.ppcFallbackInstruction host cpu i.raw i.address) := by
  unfold Runtime.ppcFallbackInstruction
  cases hf : host.instructionFallback with
  | none => exact changes_of_gpr programException_gpr
  | some f =>
    refine ⟨fun r hr => ?_⟩
    by_contra hne
    obtain ⟨ho,rfl⟩ := hh f hf cpu i.raw i.address r hne
    rw [← hi] at ho hr
    exact hr (hD ho)

theorem emitFload_changes {single update : Bool} (hA : update = true → i.rA ∈ rs) :
    Changes rs cpu (CFlow.next (emitFload host i single update cpu)).cpu := emitFloadAt_changes hA

theorem emitFloadx_changes {single update : Bool} (hA : update = true → i.rA ∈ rs) :
    Changes rs cpu (CFlow.next (emitFloadx host i single update cpu)).cpu := emitFloadAt_changes hA

theorem emitFstore_changes {single update : Bool} (hA : update = true → i.rA ∈ rs) :
    Changes rs cpu (CFlow.next (emitFstore i single update cpu)).cpu := emitFstoreAt_changes hA

theorem emitFstorex_changes {single update : Bool} (hA : update = true → i.rA ∈ rs) :
    Changes rs cpu (CFlow.next (emitFstorex i single update cpu)).cpu := emitFstoreAt_changes hA

theorem emitStfiwx_changes : Changes rs cpu (CFlow.next (emitStfiwx i cpu)).cpu :=
  changes_of_gpr (memWrite_gpr _ _ _)

theorem emitDcbzL_changes : Changes rs cpu (emitDcbzL dev i cpu).cpu :=
  unlessException_changes ppcDcbzL_changes (changes_of_gpr rfl)

theorem emitTlbie_changes {cia : BitVec 32} :
    Changes rs cpu (unlessException id (Runtime.ppcTlbie cpu cia)).cpu :=
  unlessException_changes (changes_of_gpr ppcTlbie_gpr) (changes_of_gpr rfl)

theorem emitEcowx_changes {ea cia : BitVec 32} :
    Changes rs cpu (unlessException id (Runtime.ppcEcowx cpu ea cia)).cpu :=
  unlessException_changes (changes_of_gpr externalAccess_gpr) (changes_of_gpr rfl)

theorem emitArithmetic_changes : Changes rs cpu (CFlow.next (emitArithmetic dev i cpu)).cpu :=
  changes_of_gpr rfl

theorem fallback_ret_changes (hh : FallbackKeeps host) (hi : i = ppcDecode i.raw i.address)
    (hD : i.op = .mfspr → i.rD ∈ rs) :
    Changes rs cpu (CFlow.ret (Runtime.ppcFallbackInstruction host cpu i.raw i.address)).cpu :=
  fallback_changes hh hi hD

theorem next_changes : Changes rs cpu (CFlow.next cpu).cpu := changes_of_gpr rfl

theorem otherStatements_changes (hh : FallbackKeeps host) (hi : i = ppcDecode i.raw i.address) :
    Changes (changedRegs i cpu) cpu (otherStatements dev host i cpu).cpu := by
  unfold otherStatements
  split
  all_goals rename_i ho
  all_goals first
    | with_reducible apply emitFload_changes
    | with_reducible apply emitFloadx_changes
    | with_reducible apply emitFstore_changes
    | with_reducible apply emitFstorex_changes
    | with_reducible apply emitPsqLoad_changes
    | with_reducible apply emitPsqStore_changes
    | with_reducible apply emitStfiwx_changes
    | with_reducible apply emitDcbzL_changes
    | with_reducible apply fallback_ret_changes hh hi
    | with_reducible apply emitTlbie_changes
    | with_reducible apply emitEcowx_changes
    | with_reducible apply changes_mem emitEciwx_changes
    | with_reducible apply emitArithmetic_changes
    | with_reducible apply next_changes
  all_goals first
    | exact fun h => absurd h Bool.false_ne_true
    | exact fun _ => mem_changedRegs ho List.mem_cons_self
    | exact mem_changedRegs ho List.mem_cons_self
    | exact fun h => absurd (ho.symm.trans h) PPCOpcode.noConfusion

theorem emitLoad_changes {read : CPUState → BitVec 32 → BitVec 32 × CPUState} {update : Bool}
    (hread : ∀ cpu ea, (read cpu ea).2.gpr = cpu.gpr) (hD : i.rD ∈ rs)
    (hA : update = true → i.rA ∈ rs) :
    Changes rs cpu (CFlow.next (emitLoad i read update cpu)).cpu := emitLoadAt_changes hread hD hA

theorem emitLoadx_changes {read : CPUState → BitVec 32 → BitVec 32 × CPUState} {update : Bool}
    (hread : ∀ cpu ea, (read cpu ea).2.gpr = cpu.gpr) (hD : i.rD ∈ rs)
    (hA : update = true → i.rA ∈ rs) :
    Changes rs cpu (CFlow.next (emitLoadx i read update cpu)).cpu := emitLoadAt_changes hread hD hA

theorem emitStore_changes {write : CPUState → BitVec 32 → BitVec 32 → CPUState} {update : Bool}
    (hwrite : ∀ cpu ea v, (write cpu ea v).gpr = cpu.gpr) (hA : update = true → i.rA ∈ rs) :
    Changes rs cpu (CFlow.next (emitStore i write update cpu)).cpu := emitStoreAt_changes hwrite hA

theorem emitStorex_changes {write : CPUState → BitVec 32 → BitVec 32 → CPUState} {update : Bool}
    (hwrite : ∀ cpu ea v, (write cpu ea v).gpr = cpu.gpr) (hA : update = true → i.rA ∈ rs) :
    Changes rs cpu (CFlow.next (emitStorex i write update cpu)).cpu := emitStoreAt_changes hwrite hA

theorem emitLswi_changes {ea : BitVec 32} {count : ℕ}
    (h : registersFrom i.rD ((count + 3) / 4) ⊆ rs) :
    Changes rs cpu (CFlow.next (Runtime.lswBytes host i.rD ea count cpu)).cpu :=
  lswBytes_changes.mono h

theorem emitLswx_changes {cfg : EmitConfig}
    (h : registersFrom i.rD ((lswxCount cpu + 3) / 4) ⊆ rs) :
    Changes rs cpu (emitLswx cfg i cpu).cpu := by
  unfold emitLswx
  split
  · exact changes_of_gpr programException_gpr
  · exact lswBytes_changes.mono h

theorem emitStsw_changes {rS : BitVec 5} {ea : BitVec 32} {count : ℕ} :
    Changes rs cpu (CFlow.next (stswBytes rS ea count cpu)).cpu := memWrites_changes

theorem emitLwarx_changes (hD : i.rD ∈ rs) :
    Changes rs cpu (CFlow.next (emitLwarx host i cpu)).cpu :=
  changes_mem ((changes_setGpr rfl : Changes [i.rD] cpu ((Runtime.memRead32 host cpu
    (xformEa i false cpu)).2.setGpr i.rD _)).of_gpr rfl) hD

theorem emitStwcx_next_changes : Changes rs cpu (CFlow.next (emitStwcx i cpu)).cpu :=
  emitStwcx_changes

theorem emitDcbz_changes : Changes rs cpu (CFlow.next (emitDcbz i cpu)).cpu := memWrites_changes

theorem emitLmw_next_changes (h : registersFrom i.rD (32 - i.rD.toNat) ⊆ rs) :
    Changes rs cpu (CFlow.next (emitLmw host i cpu)).cpu := emitLmw_changes.mono h

theorem emitStmw_changes : Changes rs cpu (CFlow.next (emitStmw i cpu)).cpu := memWrites_changes

theorem subset_changedRegs {op : PPCOpcode} (ho : i.op = op)
    (h : rs ⊆ changedRegs { i with op } cpu) : rs ⊆ changedRegs i cpu := by
  rwa [← ho] at h

theorem emitMemory_changes (hh : FallbackKeeps host) (hi : i = ppcDecode i.raw i.address) :
    Changes (changedRegs i cpu) cpu (emitMemory (EmitConfig.whole host dev) i cpu).cpu := by
  unfold emitMemory
  dsimp only
  split
  all_goals rename_i ho
  all_goals first
    | with_reducible apply emitLoad_changes
    | with_reducible apply emitLoadx_changes
    | with_reducible apply emitStore_changes
    | with_reducible apply emitStorex_changes
    | with_reducible apply emitLswi_changes
    | with_reducible apply emitLswx_changes
    | with_reducible apply emitStsw_changes
    | with_reducible apply emitLwarx_changes
    | with_reducible apply emitStwcx_next_changes
    | with_reducible apply emitDcbz_changes
    | with_reducible apply emitLmw_next_changes
    | with_reducible apply emitStmw_changes
    | exact otherStatements_changes hh hi
  all_goals first
    | exact fun h => absurd h Bool.false_ne_true
    | exact fun _ _ => rfl
    | exact fun _ _ _ => memWrite_gpr _ _ _
    | exact fun _ => mem_changedRegs ho List.mem_cons_self
    | exact mem_changedRegs ho List.mem_cons_self
    | exact mem_changedRegs ho (List.mem_cons_of_mem _ List.mem_cons_self)
    | exact subset_changedRegs ho (List.Subset.refl _)
    | exact subset_changedRegs ho (List.subset_append_left _ _)

theorem emitBranchCondition_gpr : (emitBranchCondition i cpu).2.gpr = cpu.gpr := by
  unfold emitBranchCondition
  dsimp only
  split <;> rfl

theorem emitBackedge_gpr : (emitBackedge i cpu).cpu.gpr = cpu.gpr := by
  unfold emitBackedge
  split <;> rfl

theorem emitCrossChunkCall_gpr {cfg : EmitConfig} {flow : CFlow}
    (h : emitCrossChunkCall cfg i cpu = some flow) : flow.cpu.gpr = cpu.gpr := by
  unfold emitCrossChunkCall at h
  dsimp only at h
  split at h
  · cases h
  · split at h
    · cases h
    · split at h <;> cases h <;> rfl

theorem emitDirectBranch_gpr {cfg : EmitConfig} :
    (emitDirectBranch cfg i cpu).cpu.gpr = cpu.gpr := by
  unfold emitDirectBranch
  dsimp only
  split
  · split
    · split
      · exact emitBackedge_gpr
      · rfl
    · cases hc : emitCrossChunkCall cfg i { cpu with lr := i.address + 4 } with
      | none => rfl
      | some flow =>
        have hflow := emitCrossChunkCall_gpr hc
        exact hflow
  · split
    · split
      · exact emitBackedge_gpr
      · rfl
    · split <;> rfl

theorem emitDynamicBranch_gpr {target : BitVec 32} {route : Bool} :
    (emitDynamicBranch i target route cpu).cpu.gpr = cpu.gpr := by
  have hcond := @emitBranchCondition_gpr i cpu
  unfold emitDynamicBranch
  dsimp only
  cases (emitBranchCondition i cpu).1 with
  | false => exact hcond
  | true => cases i.lk <;> cases route <;> exact hcond

theorem emitBranch_gpr {cfg : EmitConfig} : (emitBranch cfg i cpu).cpu.gpr = cpu.gpr := by
  unfold emitBranch
  split
  · exact emitDirectBranch_gpr
  · dsimp only
    split
    · rw [emitDirectBranch_gpr,emitBranchCondition_gpr]
    · exact emitBranchCondition_gpr
  · exact emitDynamicBranch_gpr
  · exact emitDynamicBranch_gpr
  · rfl

theorem emitTrap_gpr : (emitTrap i cpu).cpu.gpr = cpu.gpr := by
  unfold emitTrap
  dsimp only
  split
  all_goals
    split
    · exact programException_gpr
    · rfl

theorem ppcRfi_gpr {cia : BitVec 32} : (Runtime.ppcRfi cpu cia).gpr = cpu.gpr := by
  unfold Runtime.ppcRfi
  split
  · exact programException_gpr
  · rfl

theorem ppcMftb_gpr {tbr : BitVec 10} {cia : BitVec 32} :
    (Runtime.ppcMftb cpu tbr cia).2.gpr = cpu.gpr := by
  unfold Runtime.ppcMftb
  split
  · rfl
  · split
    · rfl
    · exact programException_gpr

theorem emitMftb_changes (hD : i.rD ∈ rs) : Changes rs cpu (emitMftb i cpu).cpu := by
  have h : Changes rs cpu
      ((Runtime.ppcMftb cpu i.spr i.address).2.setGpr i.rD
        (Runtime.ppcMftb cpu i.spr i.address).1) :=
    changes_mem (changes_setGpr ppcMftb_gpr) hD
  unfold emitMftb
  dsimp only
  split <;> exact h

theorem emitMfspr_changes {cfg : EmitConfig} (hh : FallbackKeeps cfg.host)
    (hi : i = ppcDecode i.raw i.address) (hD : i.rD ∈ rs) :
    Changes rs cpu (emitMfspr cfg i cpu).cpu := by
  unfold emitMfspr
  split
  all_goals first
    | exact changes_mem (changes_setGpr rfl) hD
    | exact emitMftb_changes hD
    | exact fallback_changes hh hi fun _ => hD

theorem emitMtspr_changes {cfg : EmitConfig} (hh : FallbackKeeps cfg.host)
    (hi : i = ppcDecode i.raw i.address) (ho : i.op = .mtspr) :
    Changes rs cpu (emitMtspr cfg i cpu).cpu := by
  unfold emitMtspr
  dsimp only
  split
  all_goals first
    | exact changes_of_gpr rfl
    | exact fallback_changes hh hi fun h => absurd (ho.symm.trans h) PPCOpcode.noConfusion

theorem emitSystem_changes {cfg : EmitConfig} (hh : FallbackKeeps cfg.host)
    (hi : i = ppcDecode i.raw i.address) :
    Changes (changedRegs i cpu) cpu (emitSystem cfg i cpu).cpu := by
  unfold emitSystem
  split
  all_goals rename_i ho
  all_goals first
    | exact changes_of_gpr rfl
    | exact changes_mem (changes_setGpr rfl) (mem_changedRegs ho List.mem_cons_self)
    | exact emitMftb_changes (mem_changedRegs ho List.mem_cons_self)
    | exact emitMfspr_changes hh hi (mem_changedRegs ho List.mem_cons_self)
    | exact emitMtspr_changes hh hi ho

theorem recordCr1_gpr : (recordCr1 i cpu).gpr = cpu.gpr := by
  unfold recordCr1
  split <;> rfl

theorem emitFloatMove_gpr : (emitFloatMove i cpu).gpr = cpu.gpr := by
  unfold emitFloatMove
  rw [recordCr1_gpr]
  split <;> rfl

theorem emitMtfsb_gpr : (emitMtfsb i cpu).gpr = cpu.gpr := by
  unfold emitMtfsb
  dsimp only
  split <;> rfl

theorem emitFpscr_gpr : (emitFpscr i cpu).gpr = cpu.gpr := by
  unfold emitFpscr
  split
  all_goals first
    | rfl
    | rw [recordCr1_gpr,emitMtfsb_gpr]
    | exact recordCr1_gpr

theorem emitStatements_changes (hh : FallbackKeeps host) (hi : i = ppcDecode i.raw i.address) :
    Changes (changedRegs i cpu) cpu (emitStatements (EmitConfig.whole host dev) i cpu).cpu := by
  have integer : Changes (changedRegs i cpu) cpu (CFlow.next (emitInteger i cpu)).cpu :=
    emitInteger_changes
  have condition : Changes (changedRegs i cpu) cpu (CFlow.next (emitConditionRegister i cpu)).cpu :=
    emitConditionRegister_changes
  have branch : Changes (changedRegs i cpu) cpu
      (emitBranch (EmitConfig.whole host dev) i cpu).cpu := changes_of_gpr emitBranch_gpr
  have trap : Changes (changedRegs i cpu) cpu (emitTrap i cpu).cpu := changes_of_gpr emitTrap_gpr
  have systemCall : Changes (changedRegs i cpu) cpu
      (CFlow.ret (Runtime.ppcSystemCallException cpu i.address)).cpu :=
    changes_of_gpr takeException_gpr
  have rfi : Changes (changedRegs i cpu) cpu (CFlow.ret (Runtime.ppcRfi cpu i.address)).cpu :=
    changes_of_gpr ppcRfi_gpr
  have system : Changes (changedRegs i cpu) cpu
      (emitSystem (EmitConfig.whole host dev) i cpu).cpu := emitSystem_changes hh hi
  have move : Changes (changedRegs i cpu) cpu (CFlow.next (emitFloatMove i cpu)).cpu :=
    changes_of_gpr emitFloatMove_gpr
  have fpscr : Changes (changedRegs i cpu) cpu (CFlow.next (emitFpscr i cpu)).cpu :=
    changes_of_gpr emitFpscr_gpr
  have same : Changes (changedRegs i cpu) cpu (CFlow.next cpu).cpu := changes_of_gpr rfl
  have memory : Changes (changedRegs i cpu) cpu
      (emitMemory (EmitConfig.whole host dev) i cpu).cpu := emitMemory_changes hh hi
  -- every other opcode prints one of the statements above
  generalize hop : i.op = op
  cases op
  case unknown =>
    simp only [emitStatements,hop]
    exact fallback_changes hh hi fun h => absurd (hop.symm.trans h) PPCOpcode.noConfusion
  all_goals
    simp only [emitStatements,hop]
    with_reducible
     first
      | exact integer
      | exact condition
      | exact branch
      | exact trap
      | exact systemCall
      | exact rfi
      | exact system
      | exact move
      | exact fpscr
      | exact same
      | exact memory

/-- An instruction changes at most the registers that its opcode names. -/
theorem emitInstruction_changes (hh : FallbackKeeps host) (hi : i = ppcDecode i.raw i.address) :
    Changes (changedRegs i cpu) cpu (emitInstruction (EmitConfig.whole host dev) i cpu).cpu := by
  have hstatements := @emitStatements_changes i cpu dev host hh hi
  unfold emitInstruction
  split
  · exact changes_of_gpr rfl
  · split
    · by_cases hf : cpu.msr &&& Runtime.ppcMsrFp ≠ 0
      · rw [Runtime.ppcFpAvailable,if_pos hf]
        exact hstatements
      · rw [Runtime.ppcFpAvailable,if_neg hf]
        exact changes_of_gpr takeException_gpr
    · exact hstatements

end

end DolRecomp.Smc
