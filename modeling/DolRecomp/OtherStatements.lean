import DolRecomp.SingleConversion

/-!
# Floating-point, quantised, cache and external statements

The statements of the opcodes that `emitMemory` leaves to `otherStatements`. The
floating-point unit, the locked-cache tags and the external device are parameters.
-/

namespace DolRecomp

/-- What floating-point arithmetic and comparisons change. -/
structure FloatResult where
  fpr : BitVec 5 → BitVec 64
  ps1 : BitVec 5 → BitVec 64
  fpscr : BitVec 32
  cr : BitVec 32

/-- The parts that the statements reach besides the modelled processor state. -/
structure Devices where
  arithmetic : PPCInst → CPUState → FloatResult
  /-- `(f32)value` as a bit pattern. -/
  toSingle : BitVec 64 → BitVec 32
  /-- `(f64)(f32)ldexp((f64)value, -scale)` for an integer value. -/
  scaledSingle : BitVec 32 → BitVec 32 → BitVec 64
  /-- `psq_quantize_int`: the value, its least and greatest result and the scale. -/
  quantizeInt : BitVec 64 → BitVec 64 → BitVec 64 → BitVec 32 → BitVec 64
  /-- The slot of a block holds that block. -/
  lockedCacheHit : CPUState → BitVec 32 → Bool
  /-- `external_read32`, or the zero that stands for it. -/
  externalRead32 : CPUState → BitVec 32 → BitVec 32

namespace Runtime

def ppcExcDsi : BitVec 32 := 0x00000002
def ppcDsiEarDisabled : BitVec 32 := 0x00100000
def ppcVectorMachineCheck : BitVec 32 := 0x00200
def ppcVectorDsi : BitVec 32 := 0x00300
def ppcHid2Lsqe : BitVec 32 := 0x80000000
def ppcHid2Pse : BitVec 32 := 0x20000000
def ppcHid2Lce : BitVec 32 := 0x10000000
def ppcHid2Dcherr : BitVec 32 := 0x00800000
def ppcHid2Dchee : BitVec 32 := 0x00080000
def ppcMsrEe : BitVec 32 := 0x00008000
def ppcEarEnable : BitVec 32 := 0x80000000
def ppcSrr1MachineCheckDcbzl : BitVec 32 := 0x00200000

def ppcDsiException (cpu : CPUState) (ea cia dsisr : BitVec 32) : CPUState :=
  ppcTakeException { cpu with dar := ea, dsisr } ppcExcDsi ppcVectorDsi cia 0

def f32IsDenormal (bits : BitVec 32) : Bool :=
  bits &&& 0x7F800000#32 == 0 && bits &&& 0x007FFFFF#32 != 0

/-- `sign_extend(value & 0x3F, 6)` -/
def gqrScale (value : BitVec 32) : BitVec 32 := (value.truncate 6).signExtend 32

def psqTypeSize (type : BitVec 3) : Nat :=
  match type.toNat with
  | 0 => 4
  | 4 | 6 => 1
  | 5 | 7 => 2
  | _ => 0

/-- The result is false when an exception has been taken. -/
def psqAccessIsValid (cpu : CPUState) (type : BitVec 3) (ea cia : BitVec 32) : Bool × CPUState :=
  if psqTypeSize type = 0 then (false, ppcProgramException cpu ppcProgramIllegal cia)
  else if type = 0 ∧ ea &&& 3#32 ≠ 0 then (false, ppcAlignmentException cpu ea cia)
  else (true, cpu)

def psqCheckEnabled (cpu : CPUState) (indexed : Bool) (cia : BitVec 32) : Bool × CPUState :=
  if cpu.hid2 &&& ppcHid2Pse = 0 ∨ (!indexed ∧ cpu.hid2 &&& ppcHid2Lsqe = 0) then
    (false, ppcProgramException cpu ppcProgramIllegal cia)
  else (true, cpu)

variable (dev : Devices) (host : Host)

def psqLoadValue (cpu : CPUState) (ea : BitVec 32) (type : BitVec 3) (scale : BitVec 32) :
    BitVec 64 × CPUState :=
  match type.toNat with
  | 0 =>
    let (value, cpu) := memRead32 host cpu ea
    (SingleConversion.extendF32Bits value, cpu)
  | 4 =>
    let (value, cpu) := memRead8 host cpu ea
    (dev.scaledSingle (value.zeroExtend 32) scale, cpu)
  | 5 =>
    let (value, cpu) := memRead16 host cpu ea
    (dev.scaledSingle (value.zeroExtend 32) scale, cpu)
  | 6 =>
    let (value, cpu) := memRead8 host cpu ea
    (dev.scaledSingle (value.signExtend 32) scale, cpu)
  | 7 =>
    let (value, cpu) := memRead16 host cpu ea
    (dev.scaledSingle (value.signExtend 32) scale, cpu)
  | _ => (0, cpu)

def psqStoreValue (cpu : CPUState) (ea : BitVec 32) (type : BitVec 3) (scale : BitVec 32)
    (value : BitVec 64) : CPUState :=
  match type.toNat with
  | 0 =>
    let single := dev.toSingle value
    memWrite32 cpu ea (if f32IsDenormal single then 0 else single)
  | 4 => memWrite8 cpu ea ((dev.quantizeInt value 0 255 scale).truncate 8)
  | 5 => memWrite16 cpu ea ((dev.quantizeInt value 0 65535 scale).truncate 16)
  | 6 => memWrite8 cpu ea ((dev.quantizeInt value (-128) 127 scale).truncate 8)
  | 7 => memWrite16 cpu ea ((dev.quantizeInt value (-32768) 32767 scale).truncate 16)
  | _ => cpu

def doubleOne : BitVec 64 := 0x3FF0000000000000

def ppcPsqLoad (cpu : CPUState) (frD : BitVec 5) (ea : BitVec 32) (w : Bool) (gqrIndex : BitVec 3)
    (indexed : Bool) (cia : BitVec 32) : CPUState :=
  let (enabled, cpu) := psqCheckEnabled cpu indexed cia
  if !enabled then cpu
  else
    let gqr := cpu.gqr gqrIndex
    let scale := gqrScale (gqr >>> 24)
    let type : BitVec 3 := (gqr >>> 16).truncate 3
    let (valid, cpu) := psqAccessIsValid cpu type ea cia
    if !valid then cpu
    else
      let (value, cpu) := psqLoadValue dev host cpu ea type scale
      let cpu := cpu.setFpr frD value
      if w then cpu.setPs1 frD doubleOne
      else
        let ps1Ea := ea + BitVec.ofNat 32 (psqTypeSize type)
        let (valid, cpu) := psqAccessIsValid cpu type ps1Ea cia
        if !valid then cpu
        else
          let (value, cpu) := psqLoadValue dev host cpu ps1Ea type scale
          cpu.setPs1 frD value

def ppcPsqStore (cpu : CPUState) (frS : BitVec 5) (ea : BitVec 32) (w : Bool) (gqrIndex : BitVec 3)
    (indexed : Bool) (cia : BitVec 32) : CPUState :=
  let (enabled, cpu) := psqCheckEnabled cpu indexed cia
  if !enabled then cpu
  else
    let gqr := cpu.gqr gqrIndex
    let scale := gqrScale (gqr >>> 8)
    let type : BitVec 3 := gqr.truncate 3
    let (valid, cpu) := psqAccessIsValid cpu type ea cia
    if !valid then cpu
    else
      let cpu := psqStoreValue dev cpu ea type scale (cpu.fpr frS)
      if w then cpu
      else
        let ps1Ea := ea + BitVec.ofNat 32 (psqTypeSize type)
        let (valid, cpu) := psqAccessIsValid cpu type ps1Ea cia
        if !valid then cpu else psqStoreValue dev cpu ps1Ea type scale (cpu.ps1 frS)

/-- Eight zero words from the start of the block. -/
def zeroBlock (block : BitVec 32) (cpu : CPUState) : CPUState :=
  (List.range 8).foldl (fun cpu n => memWrite32 cpu (block + BitVec.ofNat 32 (4*n)) 0) cpu

/-- A first hit in the locked cache may be a machine check; the block is zeroed all the same. -/
def dcbzHit (cpu : CPUState) (cia : BitVec 32) : CPUState :=
  let first : Bool := cpu.hid2 &&& ppcHid2Dcherr == 0
  let cpu := { cpu with hid2 := cpu.hid2 ||| ppcHid2Dcherr }
  if first ∧ cpu.hid2 &&& ppcHid2Dchee ≠ 0 ∧ cpu.msr &&& ppcMsrEe ≠ 0 ∧
      cpu.msr &&& ppcMsrMe ≠ 0 then
    ppcTakeException cpu ppcExcMachineCheck ppcVectorMachineCheck cia ppcSrr1MachineCheckDcbzl
  else cpu

def ppcDcbzL (cpu : CPUState) (ea cia : BitVec 32) : CPUState :=
  if cpu.msr &&& ppcMsrPr ≠ 0 then ppcProgramException cpu ppcProgramPriv cia
  else if cpu.hid2 &&& ppcHid2Lce = 0 then ppcProgramException cpu ppcProgramIllegal cia
  else
    let block := ea &&& ~~~31#32
    zeroBlock block (if dev.lockedCacheHit cpu block then dcbzHit cpu cia else cpu)

/-- The checks that `ppc_eciwx` and `ppc_ecowx` make; false when an exception has been taken. -/
def externalAccess (cpu : CPUState) (ea cia : BitVec 32) : Bool × CPUState :=
  if cpu.ear &&& ppcEarEnable = 0 then (false, ppcDsiException cpu ea cia ppcDsiEarDisabled)
  else if ea &&& 3#32 ≠ 0 then (false, ppcAlignmentException cpu ea cia)
  else (true, cpu)

def ppcEciwx (cpu : CPUState) (ea cia : BitVec 32) : BitVec 32 × CPUState :=
  let (allowed, cpu) := externalAccess cpu ea cia
  (if allowed then dev.externalRead32 cpu ea else 0, cpu)

/-- What the external device does with the word is outside the processor state. -/
def ppcEcowx (cpu : CPUState) (ea cia : BitVec 32) : CPUState := (externalAccess cpu ea cia).2

/-- The invalidation counters are outside the processor state. -/
def ppcTlbie (cpu : CPUState) (cia : BitVec 32) : CPUState :=
  if cpu.msr &&& ppcMsrPr ≠ 0 then ppcProgramException cpu ppcProgramPriv cia else cpu

end Runtime

namespace Emitter

variable (dev : Devices) (host : Host)

/-- `if (ctx->exception) return;` before the remaining statements. -/
def unlessException (rest : CPUState → CPUState) (cpu : CPUState) : CFlow :=
  if cpu.exception ≠ 0 then .ret cpu else .next (rest cpu)

def updateBase (i : PPCInst) (update : Bool) (ea : BitVec 32) (cpu : CPUState) : CPUState :=
  if update then cpu.setGpr i.rA ea else cpu

def emitFloadAt (i : PPCInst) (ea : BitVec 32) (single update : Bool) (cpu : CPUState) : CPUState :=
  updateBase i update ea <|
    if single then
      let (bits, cpu) := Runtime.memRead32 host cpu ea
      (cpu.setFpr i.rD (f32FromBits bits)).setPs1 i.rD (f32FromBits bits)
    else
      let (value, cpu) := Runtime.memRead host cpu ea 8
      cpu.setFpr i.rD value

def emitFload (i : PPCInst) (single update : Bool) (cpu : CPUState) : CPUState :=
  emitFloadAt host i (dformEa i update cpu) single update cpu

def emitFloadx (i : PPCInst) (single update : Bool) (cpu : CPUState) : CPUState :=
  emitFloadAt host i (xformEa i update cpu) single update cpu

def emitFstoreAt (i : PPCInst) (ea : BitVec 32) (single update : Bool) (cpu : CPUState) :
    CPUState :=
  updateBase i update ea <|
    if single then Runtime.memWrite32 cpu ea (f32ToBits (cpu.fpr i.rS))
    else Runtime.memWrite cpu ea (cpu.fpr i.rS) 8

def emitFstore (i : PPCInst) (single update : Bool) (cpu : CPUState) : CPUState :=
  emitFstoreAt i (dformEa i update cpu) single update cpu

def emitFstorex (i : PPCInst) (single update : Bool) (cpu : CPUState) : CPUState :=
  emitFstoreAt i (xformEa i update cpu) single update cpu

def psqEa (i : PPCInst) (indexed update : Bool) (cpu : CPUState) : BitVec 32 :=
  if indexed then xformEa i update cpu else dformEa i update cpu

def emitPsqLoad (i : PPCInst) (indexed update : Bool) (cpu : CPUState) : CFlow :=
  let ea := psqEa i indexed update cpu
  unlessException (updateBase i update ea)
    (Runtime.ppcPsqLoad dev host cpu i.rD ea i.w i.i indexed i.address)

def emitPsqStore (i : PPCInst) (indexed update : Bool) (cpu : CPUState) : CFlow :=
  let ea := psqEa i indexed update cpu
  unlessException (updateBase i update ea)
    (Runtime.ppcPsqStore dev cpu i.rS ea i.w i.i indexed i.address)

def emitStfiwx (i : PPCInst) (cpu : CPUState) : CPUState :=
  Runtime.memWrite32 cpu (xformEa i false cpu) ((cpu.fpr i.rS).truncate 32)

def emitDcbzL (i : PPCInst) (cpu : CPUState) : CFlow :=
  unlessException id (Runtime.ppcDcbzL dev cpu (xformEa i false cpu) i.address)

def emitEciwx (i : PPCInst) (cpu : CPUState) : CFlow :=
  let (value, cpu) := Runtime.ppcEciwx dev cpu (xformEa i false cpu) i.address
  unlessException (fun cpu => cpu.setGpr i.rD value) cpu

/-- Arithmetic writes floating-point registers, the FPSCR and the condition register. -/
def emitArithmetic (i : PPCInst) (cpu : CPUState) : CPUState :=
  let result := dev.arithmetic i cpu
  { cpu with fpr := result.fpr, ps1 := result.ps1, fpscr := result.fpscr, cr := result.cr }

def otherStatements (i : PPCInst) (cpu : CPUState) : CFlow :=
  match i.op with
  | .lfs => .next (emitFload host i true false cpu)
  | .lfsu => .next (emitFload host i true true cpu)
  | .lfd => .next (emitFload host i false false cpu)
  | .lfdu => .next (emitFload host i false true cpu)
  | .lfsx => .next (emitFloadx host i true false cpu)
  | .lfsux => .next (emitFloadx host i true true cpu)
  | .lfdx => .next (emitFloadx host i false false cpu)
  | .lfdux => .next (emitFloadx host i false true cpu)
  | .psqL => emitPsqLoad dev host i false false cpu
  | .psqLu => emitPsqLoad dev host i false true cpu
  | .psqLx => emitPsqLoad dev host i true false cpu
  | .psqLux => emitPsqLoad dev host i true true cpu
  | .stfs => .next (emitFstore i true false cpu)
  | .stfsu => .next (emitFstore i true true cpu)
  | .stfd => .next (emitFstore i false false cpu)
  | .stfdu => .next (emitFstore i false true cpu)
  | .stfsx => .next (emitFstorex i true false cpu)
  | .stfsux => .next (emitFstorex i true true cpu)
  | .stfdx => .next (emitFstorex i false false cpu)
  | .stfdux => .next (emitFstorex i false true cpu)
  | .psqSt => emitPsqStore dev i false false cpu
  | .psqStu => emitPsqStore dev i false true cpu
  | .psqStx => emitPsqStore dev i true false cpu
  | .psqStux => emitPsqStore dev i true true cpu
  | .stfiwx => .next (emitStfiwx i cpu)
  | .dcbzL => emitDcbzL dev i cpu
  | .dcbst | .dcbf | .dcbi | .icbi =>
    .ret (Runtime.ppcFallbackInstruction host cpu i.raw i.address)
  | .dcbtst | .dcbt => .next cpu
  | .tlbie => unlessException id (Runtime.ppcTlbie cpu i.address)
  | .eciwx => emitEciwx dev i cpu
  | .ecowx => unlessException id (Runtime.ppcEcowx cpu (xformEa i false cpu) i.address)
  | _ => .next (emitArithmetic dev i cpu)

end Emitter

/-- The statements of every opcode, with the given devices. -/
def EmitConfig.whole (host : Host) (dev : Devices) : EmitConfig :=
  { EmitConfig.single host with otherStatements := Emitter.otherStatements dev host }

/-- Devices that answer nothing. -/
def noDevices : Devices where
  arithmetic _ cpu := ⟨cpu.fpr,cpu.ps1,cpu.fpscr,cpu.cr⟩
  toSingle _ := 0
  scaledSingle _ _ := 0
  quantizeInt _ _ _ _ := 0
  lockedCacheHit _ _ := false
  externalRead32 _ _ := 0

end DolRecomp
