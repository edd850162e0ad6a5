import DolRecomp.EntryPoints
import DolRecomp.OtherStatements
import DolRecomp.AddressForms

/-!
# The self-modifying-code analysis

A table of known register values, the address and length of a store as far as
the table gives them, and the overlap with sections that keep DOL embedded data.
-/

namespace DolRecomp.Smc

inductive EmbeddedDataMode
  | none | dol | rpx
  deriving DecidableEq, Repr

/-- A section with its embedded-data mode. -/
structure CodeSection extends LoadedCodeSection where
  embeddedDataMode : EmbeddedDataMode

/-- The value of each register that is known. -/
abbrev KnownRegs := BitVec 5 → Option (BitVec 32)

/-- The table that `memset` clears. -/
def unknownRegs : KnownRegs := fun _ => none

def clearReg (regs : KnownRegs) (reg : BitVec 5) : KnownRegs := Function.update regs reg none

def setReg (regs : KnownRegs) (reg : BitVec 5) (value : BitVec 32) : KnownRegs :=
  Function.update regs reg (some value)

def knownDformEa (regs : KnownRegs) (inst : PPCInst) : Option (BitVec 32) :=
  if inst.rA = 0 then some (inst.simm.signExtend 32)
  else (regs inst.rA).map (· + inst.simm.signExtend 32)

def knownIndexedEa (regs : KnownRegs) (inst : PPCInst) : Option (BitVec 32) :=
  let base := if inst.rA = 0 then some 0 else regs inst.rA
  base.bind fun base => (regs inst.rB).map (base + ·)

def storeSizeForInst (inst : PPCInst) : Option Nat :=
  match inst.op with
  | .stb | .stbu | .stbx | .stbux => some 1
  | .sth | .sthu | .sthx | .sthux | .sthbrx => some 2
  | .stw | .stwu | .stwx | .stwux | .stwbrx | .stwcx | .stfiwx | .stfs | .stfsu | .stfsx | .stfsux
  | .psqSt | .psqStu | .psqStx | .psqStux => some 4
  | .stfd | .stfdu | .stfdx | .stfdux => some 8
  | .stmw => some ((32 - inst.rS.toNat)*4)
  | .stswi => some (if inst.nb ≠ 0 then inst.nb.toNat else 32)
  | .stswx => some 1
  | .dcbz | .dcbzL => some 32
  | _ => none

def instHasDformEa : PPCOpcode → Bool
  | .stw | .stwu | .stb | .stbu | .sth | .sthu | .stmw | .stswi | .stfs | .stfsu | .stfd | .stfdu
  | .psqSt | .psqStu => true
  | _ => false

/-- Set a register to a value when that is known. -/
def assignReg (regs : KnownRegs) (reg : BitVec 5) (value : Option (BitVec 32)) : KnownRegs :=
  match value with
  | some value => setReg regs reg value
  | none => clearReg regs reg

/-- `for (u32 r = inst->rD; r < 32; r++) clear_reg(regs, (u8)r);` -/
def clearFrom (regs : KnownRegs) (rD : BitVec 5) : KnownRegs :=
  (List.range (32 - rD.toNat)).foldl (fun regs n => clearReg regs (rD + BitVec.ofNat 5 n)) regs

def updateKnownRegs (regs : KnownRegs) (inst : PPCInst) : KnownRegs :=
  let simm : BitVec 32 := inst.simm.signExtend 32
  let uimm : BitVec 32 := inst.uimm.zeroExtend 32
  match inst.op with
  | .addi =>
    assignReg regs inst.rD (if inst.rA = 0 then some simm else (regs inst.rA).map (· + simm))
  | .addis =>
    assignReg regs inst.rD
      (if inst.rA = 0 then some (simm <<< 16) else (regs inst.rA).map (· + (simm <<< 16)))
  | .ori => assignReg regs inst.rA ((regs inst.rS).map (· ||| uimm))
  | .oris => assignReg regs inst.rA ((regs inst.rS).map (· ||| (uimm <<< 16)))
  | .xori => assignReg regs inst.rA ((regs inst.rS).map (· ^^^ uimm))
  | .xoris => assignReg regs inst.rA ((regs inst.rS).map (· ^^^ (uimm <<< 16)))
  | .lwz | .lbz | .lhz | .lha | .lwzx | .lbzx | .lhzx | .lhax | .lwbrx | .lhbrx | .lwarx =>
    clearReg regs inst.rD
  | .lwzu | .lbzu | .lhzu | .lhau =>
    clearReg (assignReg regs inst.rA (knownDformEa regs inst)) inst.rD
  | .lwzux | .lbzux | .lhzux | .lhaux =>
    clearReg (assignReg regs inst.rA (knownIndexedEa regs inst)) inst.rD
  | .stwu | .stbu | .sthu => assignReg regs inst.rA (knownDformEa regs inst)
  | .stwux | .stbux | .sthux | .stfsux | .stfdux | .psqStux =>
    assignReg regs inst.rA (knownIndexedEa regs inst)
  | .mfcr | .mfspr | .mftb | .mfmsr | .mfsr | .mfsrin | .mulli | .subfic | .add | .addo | .addc
  | .addco | .adde | .addeo | .addme | .addmeo | .addze | .addzeo | .subf | .subfo | .subfc
  | .subfco | .subfe | .subfeo | .subfme | .subfmeo | .subfze | .subfzeo | .neg | .nego | .mullw
  | .mullwo | .mulhw | .mulhwu | .divw | .divwo | .divwu | .divwuo => clearReg regs inst.rD
  | .and | .andc | .or | .orc | .xor | .nand | .nor | .eqv | .cntlzw | .extsb | .extsh | .slw
  | .srw | .sraw | .srawi | .rlwinm | .rlwnm | .rlwimi => clearReg regs inst.rA
  | .lmw => clearFrom regs inst.rD
  | _ => regs

/-- Every known register holds its recorded value. -/
def Tracks (regs : KnownRegs) (cpu : CPUState) : Prop :=
  ∀ r v, regs r = some v → cpu.gpr r = v

section

variable {regs : KnownRegs} {cpu : CPUState} {inst : PPCInst} {ea : BitVec 32}

theorem knownDformEa_sound (h : Tracks regs cpu) (hk : knownDformEa regs inst = some ea) :
    ea = Emitter.displacedEa inst cpu := by
  unfold knownDformEa at hk
  rw [Emitter.displacedEa]
  split at hk
  · next hr =>
    rw [if_pos hr]
    simpa using hk.symm
  · next hr =>
    obtain ⟨v,hv,rfl⟩ := Option.map_eq_some_iff.mp hk
    rw [if_neg hr,h _ _ hv]

theorem knownIndexedEa_sound (h : Tracks regs cpu) (hk : knownIndexedEa regs inst = some ea) :
    ea = Emitter.indexedEa inst cpu := by
  obtain ⟨base,hbase,hk⟩ := Option.bind_eq_some_iff.mp hk
  obtain ⟨v,hv,rfl⟩ := Option.map_eq_some_iff.mp hk
  rw [Emitter.indexedEa,h _ _ hv]
  split at hbase
  · next hr =>
    rw [if_pos hr,← Option.some.inj hbase]
  · next hr =>
    rw [if_neg hr,h _ _ hbase]

end

section

variable {host : Host} {dev : Devices} {i : PPCInst} {cpu cpu' : CPUState}

/-- The state after the statements of an instruction. -/
def execute (host : Host) (dev : Devices) (i : PPCInst) (cpu : CPUState) : CPUState :=
  (Emitter.emitInstruction (EmitConfig.whole host dev) i cpu).cpu

theorem emitStatements_op {op : PPCOpcode} (ho : i.op = op) (cfg : EmitConfig) :
    Emitter.emitStatements cfg i cpu = Emitter.emitStatements cfg { i with op } cpu := by
  rw [← ho]

theorem execute_plain (he : i.embeddedData = false) (hu : ppcOpUsesFpu i.op = false) :
    execute host dev i cpu = (Emitter.emitStatements (EmitConfig.whole host dev) i cpu).cpu := by
  rw [execute,Emitter.emitInstruction,he,hu]
  rfl

theorem execute_op {op : PPCOpcode} (he : i.embeddedData = false) (ho : i.op = op)
    (hu : ppcOpUsesFpu op = false) : execute host dev i cpu =
      (Emitter.emitStatements (EmitConfig.whole host dev) { i with op } cpu).cpu := by
  rw [execute_plain he (ho ▸ hu),emitStatements_op ho]

theorem execute_available (he : i.embeddedData = false) (hf : cpu.msr &&& Runtime.ppcMsrFp ≠ 0) :
    execute host dev i cpu = (Emitter.emitStatements (EmitConfig.whole host dev) i cpu).cpu := by
  cases hu : ppcOpUsesFpu i.op with
  | false => exact execute_plain he hu
  | true =>
    rw [execute,Emitter.emitInstruction,he,hu,Runtime.ppcFpAvailable,if_pos hf]
    rfl

theorem emitStatements_of_next (he : i.embeddedData = false)
    (h : Emitter.emitInstruction (EmitConfig.whole host dev) i cpu = .next cpu') :
    Emitter.emitStatements (EmitConfig.whole host dev) i cpu = .next cpu' := by
  rw [Emitter.emitInstruction,he,if_neg Bool.false_ne_true] at h
  split at h
  · by_cases hf : cpu.msr &&& Runtime.ppcMsrFp ≠ 0
    · rw [Runtime.ppcFpAvailable,if_pos hf] at h
      exact h
    · rw [Runtime.ppcFpAvailable,if_neg hf] at h
      cases h
  · exact h

end

end DolRecomp.Smc
