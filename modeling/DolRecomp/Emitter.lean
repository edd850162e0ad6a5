import DolRecomp.Cpu

/-!
# The emitted C statements

`emitInstruction` is the effect of the C statements that the emitter prints for
one instruction. A statement list falls through, jumps to a label, dispatches on
the program counter, calls another chunk, or returns to the caller.
-/

namespace DolRecomp

/-- How the statements of an instruction end. -/
inductive CFlow
  | next (cpu : CPUState)
  | goto (label : BitVec 32) (cpu : CPUState)
  | dispatch (cpu : CPUState)
  | call (chunk : BitVec 32) (cpu : CPUState)
  | ret (cpu : CPUState)

namespace CFlow

/-- The state in which control leaves the statements. -/
def cpu : CFlow → CPUState
  | .next cpu | .goto _ cpu | .dispatch cpu | .call _ cpu | .ret cpu => cpu

end CFlow

/-- What the printed text depends on besides the instruction. -/
structure EmitConfig where
  host : Host
  funcStart : BitVec 32
  funcEnd : BitVec 32
  directBackedge : Bool
  routeLocalReturns : Bool
  chunkStarts : List (BitVec 32)
  /-- Answer of `dolrecomp_call_enter`. -/
  callEnter : Bool
  /-- Statements of the opcodes outside this model: floating-point arithmetic, the
  floating-point and quantised accesses, cache and external operations. -/
  otherStatements : PPCInst → CPUState → CFlow := fun _ cpu => .ret cpu

/-- The arguments of `emit_instruction`. -/
def EmitConfig.single (host : Host) : EmitConfig where
  host
  funcStart := 0
  funcEnd := -1
  directBackedge := false
  routeLocalReturns := false
  chunkStarts := []
  callEnter := false

namespace Emitter

def crFieldShift (crf : BitVec 3) : Nat := 4*(7 - crf.toNat)

/-- Bits `mb` to `me`, wrapping around; the loop meets `me` within 32 steps. -/
def ppcMask32Loop (me : BitVec 5) : Nat → BitVec 5 → BitVec 32 → BitVec 32
  | 0, _, mask => mask
  | fuel+1, bit, mask =>
    let mask := mask ||| (0x80000000#32 >>> bit.toNat)
    if bit = me then mask else ppcMask32Loop me fuel (bit + 1) mask

def ppcMask32 (mb me : BitVec 5) : BitVec 32 := ppcMask32Loop me 32 mb 0

def crBits (less greater equal : Bool) (xer : BitVec 32) : BitVec 32 :=
  (if less then 8#32 else 0) ||| (if greater then 4#32 else 0) |||
    (if equal then 2#32 else 0) ||| ((xer >>> 31) &&& 1#32)

def emitSetCr0FromGpr (reg : BitVec 5) (cpu : CPUState) : CPUState :=
  let crValue := cpu.gpr reg
  let bits := crBits (crValue.slt 0) ((0#32).slt crValue) (crValue == 0) cpu.xer
  { cpu with cr := (cpu.cr &&& 0x0FFFFFFF#32) ||| (bits <<< 28) }

def emitRecordIfNeeded (i : PPCInst) (reg : BitVec 5) (cpu : CPUState) : CPUState :=
  if i.rc then emitSetCr0FromGpr reg cpu else cpu

def emitSetCr1FromFpscr (cpu : CPUState) : CPUState :=
  { cpu with cr := (cpu.cr &&& 0xF0FFFFFF#32) ||| ((cpu.fpscr >>> 4) &&& 0x0F000000#32) }

/-- Replace a field of the condition register. -/
def setCrBits (crf : BitVec 3) (bits : BitVec 32) (cpu : CPUState) : CPUState :=
  let shift := crFieldShift crf
  { cpu with cr := (cpu.cr &&& ~~~(0xF#32 <<< shift)) ||| (bits <<< shift) }

def emitCompareS32 (crf : BitVec 3) (a b : BitVec 32) (cpu : CPUState) : CPUState :=
  setCrBits crf (crBits (a.slt b) (b.slt a) (a == b) cpu.xer) cpu

def emitCompareU32 (crf : BitVec 3) (a b : BitVec 32) (cpu : CPUState) : CPUState :=
  setCrBits crf (crBits (a.ult b) (b.ult a) (a == b) cpu.xer) cpu

/-- The carry bit is bit 32 of a 64-bit result. -/
def setXerCa (wide : BitVec 64) (cpu : CPUState) : CPUState :=
  { cpu with xer := (cpu.xer &&& ~~~0x20000000#32) ||| (((wide >>> 32).truncate 32 &&& 1#32) <<< 29) }

def setXerCaIf (ca : Bool) (cpu : CPUState) : CPUState :=
  { cpu with xer := (cpu.xer &&& ~~~0x20000000#32) ||| (if ca then 0x20000000#32 else 0) }

def xerCarry (cpu : CPUState) : BitVec 32 := (cpu.xer >>> 29) &&& 1#32

def ppcAddOverflowed (a b result : BitVec 32) : Bool :=
  ((a ^^^ result) &&& (b ^^^ result)) >>> 31 != 0

def ppcSetXerOv (ov : Bool) (cpu : CPUState) : CPUState :=
  let xer := (cpu.xer &&& ~~~0x40000000#32) ||| (if ov then 0x40000000#32 else 0)
  { cpu with xer := if ov then xer ||| 0x80000000#32 else xer }

def overflowIf (i : PPCInst) (ov : Bool) (cpu : CPUState) : CPUState :=
  if i.oe then ppcSetXerOv ov cpu else cpu

def wide (v : BitVec 32) : BitVec 64 := v.zeroExtend 64

def rotl32 (value sh : BitVec 32) : BitVec 32 :=
  let sh := (sh &&& 31#32).toNat
  if sh ≠ 0 then (value <<< sh) ||| (value >>> (32 - sh)) else value

/-- `while (n < 32 && ((v & (0x80000000u >> n)) == 0)) n++`, with `fuel` rounds left. -/
def cntlzwLoop (v : BitVec 32) : Nat → Nat → Nat
  | 0, n => n
  | fuel+1, n => if n < 32 ∧ v &&& (0x80000000#32 >>> n) = 0 then cntlzwLoop v fuel (n + 1) else n

def emitAdd (i : PPCInst) (cpu : CPUState) : CPUState :=
  let a := cpu.gpr i.rA
  let b := cpu.gpr i.rB
  let res := a + b
  emitRecordIfNeeded i i.rD (overflowIf i (ppcAddOverflowed a b res) (cpu.setGpr i.rD res))

/-- `wide` is the sum with its carry; `a` and `b` are the two addends. -/
def emitCarrying (i : PPCInst) (a b : BitVec 32) (wide : BitVec 64) (cpu : CPUState) : CPUState :=
  let res : BitVec 32 := wide.truncate 32
  emitRecordIfNeeded i i.rD
    (overflowIf i (ppcAddOverflowed a b res) (setXerCa wide (cpu.setGpr i.rD res)))

/-- The forms that add all ones test the carry instead of shifting it. -/
def emitAddMinusOne (i : PPCInst) (input : BitVec 32) (cpu : CPUState) : CPUState :=
  let res := wide input + 0xFFFFFFFF#64 + wide (xerCarry cpu)
  emitRecordIfNeeded i i.rD
    (overflowIf i (ppcAddOverflowed input 0xFFFFFFFF (res.truncate 32))
      (setXerCaIf (res >>> 32 != 0) (cpu.setGpr i.rD (res.truncate 32))))

def emitSubf (i : PPCInst) (cpu : CPUState) : CPUState :=
  let a := ~~~cpu.gpr i.rA
  let b := cpu.gpr i.rB
  let res := a + b + 1
  emitRecordIfNeeded i i.rD (overflowIf i (ppcAddOverflowed a b res) (cpu.setGpr i.rD res))

def emitDivw (i : PPCInst) (cpu : CPUState) : CPUState :=
  let dividend := cpu.gpr i.rA
  let divisor := cpu.gpr i.rB
  let ov : Bool := divisor == 0 || (dividend == 0x80000000#32 && divisor == -1)
  let res := if ov then if dividend.slt 0 then 0xFFFFFFFF#32 else 0 else dividend.sdiv divisor
  emitRecordIfNeeded i i.rD (overflowIf i ov (cpu.setGpr i.rD res))

def emitDivwu (i : PPCInst) (cpu : CPUState) : CPUState :=
  let divisor := cpu.gpr i.rB
  let res := if divisor = 0 then 0 else cpu.gpr i.rA / divisor
  emitRecordIfNeeded i i.rD (overflowIf i (divisor == 0) (cpu.setGpr i.rD res))

def signedProduct (cpu : CPUState) (i : PPCInst) : BitVec 64 :=
  (cpu.gpr i.rA).signExtend 64 * (cpu.gpr i.rB).signExtend 64

def emitMullw (i : PPCInst) (cpu : CPUState) : CPUState :=
  let product := signedProduct cpu i
  let ov := product.slt (-0x80000000#64) || (0x7FFFFFFF#64).slt product
  emitRecordIfNeeded i i.rD (overflowIf i ov (cpu.setGpr i.rD (product.truncate 32)))

def emitLogical (i : PPCInst) (cpu : CPUState) : CPUState :=
  let s := cpu.gpr i.rS
  let b := cpu.gpr i.rB
  let res := match i.op with
    | .and => s &&& b
    | .andc => s &&& ~~~b
    | .or => s ||| b
    | .orc => s ||| ~~~b
    | .xor => s ^^^ b
    | .nand => ~~~(s &&& b)
    | .nor => ~~~(s ||| b)
    | _ => ~~~(s ^^^ b)
  emitRecordIfNeeded i i.rA (cpu.setGpr i.rA res)

def emitShift (i : PPCInst) (shift : BitVec 32 → Nat → BitVec 32) (cpu : CPUState) : CPUState :=
  let sh := cpu.gpr i.rB &&& 0x3F#32
  let res := if (31#32).ult sh then 0 else shift (cpu.gpr i.rS) sh.toNat
  emitRecordIfNeeded i i.rA (cpu.setGpr i.rA res)

def emitShiftAlgebraic (i : PPCInst) (cpu : CPUState) : CPUState :=
  let sh := if i.op = .srawi then i.sh.zeroExtend 32 else cpu.gpr i.rB &&& 0x3F#32
  let value := cpu.gpr i.rS
  let negative : Bool := value &&& 0x80000000#32 != 0
  let (res, ca) :=
    if sh = 0 then (value, false)
    else if (31#32).ult sh then (if negative then 0xFFFFFFFF#32 else 0, negative)
    else (value.sshiftRight sh.toNat, negative && value <<< (32 - sh.toNat) != 0)
  emitRecordIfNeeded i i.rA (setXerCaIf ca (cpu.setGpr i.rA res))

def emitRotate (i : PPCInst) (sh : BitVec 32) (cpu : CPUState) : CPUState :=
  let mask := ppcMask32 i.mb i.me
  let rot := rotl32 (cpu.gpr i.rS) sh
  let res := if i.op = .rlwimi then (cpu.gpr i.rA &&& ~~~mask) ||| (rot &&& mask) else rot &&& mask
  emitRecordIfNeeded i i.rA (cpu.setGpr i.rA res)

def emitResult (i : PPCInst) (reg : BitVec 5) (res : BitVec 32) (cpu : CPUState) : CPUState :=
  emitRecordIfNeeded i reg (cpu.setGpr reg res)

def emitInteger (i : PPCInst) (cpu : CPUState) : CPUState :=
  let simm : BitVec 32 := i.simm.signExtend 32
  let uimm : BitVec 32 := i.uimm.zeroExtend 32
  let rA := cpu.gpr i.rA
  let rB := cpu.gpr i.rB
  let rS := cpu.gpr i.rS
  match i.op with
  | .mulli => cpu.setGpr i.rD ((rA.signExtend 64 * simm.signExtend 64).truncate 32)
  | .subfic =>
    let res := wide simm + wide (~~~rA) + 1
    setXerCa res (cpu.setGpr i.rD (res.truncate 32))
  | .addi => cpu.setGpr i.rD (if i.rA = 0 then simm else rA + simm)
  | .addic | .addicDot =>
    let res := wide rA + wide simm
    let cpu := setXerCa res (cpu.setGpr i.rD (res.truncate 32))
    if i.op = .addicDot then emitSetCr0FromGpr i.rD cpu else cpu
  | .addis => cpu.setGpr i.rD (if i.rA = 0 then simm <<< 16 else rA + (simm <<< 16))
  | .cmpi => emitCompareS32 i.crfD rA simm cpu
  | .cmpli => emitCompareU32 i.crfD rA uimm cpu
  | .cmp => emitCompareS32 i.crfD rA rB cpu
  | .cmpl => emitCompareU32 i.crfD rA rB cpu
  | .ori => if i.rS = 0 ∧ i.rA = 0 ∧ i.uimm = 0 then cpu else cpu.setGpr i.rA (rS ||| uimm)
  | .oris => cpu.setGpr i.rA (rS ||| (uimm <<< 16))
  | .xori => cpu.setGpr i.rA (rS ^^^ uimm)
  | .xoris => cpu.setGpr i.rA (rS ^^^ (uimm <<< 16))
  | .andi => emitSetCr0FromGpr i.rA (cpu.setGpr i.rA (rS &&& uimm))
  | .andis => emitSetCr0FromGpr i.rA (cpu.setGpr i.rA (rS &&& (uimm <<< 16)))
  | .add | .addo => emitAdd i cpu
  | .addc | .addco => emitCarrying i rA rB (wide rA + wide rB) cpu
  | .adde | .addeo => emitCarrying i rA rB (wide rA + wide rB + wide (xerCarry cpu)) cpu
  | .addme | .addmeo => emitAddMinusOne i rA cpu
  | .addze | .addzeo => emitCarrying i rA 0 (wide rA + wide (xerCarry cpu)) cpu
  | .subf | .subfo => emitSubf i cpu
  | .subfc | .subfco => emitCarrying i (~~~rA) rB (wide rB + wide (~~~rA) + 1) cpu
  | .subfe | .subfeo =>
    emitCarrying i (~~~rA) rB (wide (~~~rA) + wide rB + wide (xerCarry cpu)) cpu
  | .subfme | .subfmeo => emitAddMinusOne i (~~~rA) cpu
  | .subfze | .subfzeo => emitCarrying i (~~~rA) 0 (wide (~~~rA) + wide (xerCarry cpu)) cpu
  | .neg | .nego =>
    emitRecordIfNeeded i i.rD
      (overflowIf i (rA == 0x80000000#32) (cpu.setGpr i.rD (~~~rA + 1)))
  | .mullw | .mullwo => emitMullw i cpu
  | .mulhw => emitResult i i.rD (((signedProduct cpu i).sshiftRight 32).truncate 32) cpu
  | .mulhwu => emitResult i i.rD (((wide rA * wide rB) >>> 32).truncate 32) cpu
  | .divw | .divwo => emitDivw i cpu
  | .divwu | .divwuo => emitDivwu i cpu
  | .and | .andc | .or | .orc | .xor | .nand | .nor | .eqv => emitLogical i cpu
  | .cntlzw => emitResult i i.rA (BitVec.ofNat 32 (cntlzwLoop rS 32 0)) cpu
  | .extsb => emitResult i i.rA ((rS.truncate 8).signExtend 32) cpu
  | .extsh => emitResult i i.rA ((rS.truncate 16).signExtend 32) cpu
  | .slw => emitShift i (· <<< ·) cpu
  | .srw => emitShift i (· >>> ·) cpu
  | .sraw | .srawi => emitShiftAlgebraic i cpu
  | .rlwinm | .rlwimi => emitRotate i (i.sh.zeroExtend 32) cpu
  | .rlwnm => emitRotate i rB cpu
  | _ => cpu

def emitCrLogical (i : PPCInst) (expr : BitVec 32 → BitVec 32 → BitVec 32) (cpu : CPUState) :
    CPUState :=
  let a := (cpu.cr >>> (31 - i.rA.toNat)) &&& 1#32
  let b := (cpu.cr >>> (31 - i.rB.toNat)) &&& 1#32
  let mask := 0x80000000#32 >>> i.rD.toNat
  let value := expr a b &&& 1#32
  { cpu with cr := (cpu.cr &&& ~~~mask) ||| (if value ≠ 0 then mask else 0) }

def mtcrfMask (crm : BitVec 8) : BitVec 32 :=
  (List.range 8).foldl (fun mask crf =>
    if crm &&& (0x80#8 >>> crf) ≠ 0 then mask ||| (0xF#32 <<< crFieldShift (BitVec.ofNat 3 crf))
    else mask) 0

def emitMtcrf (i : PPCInst) (cpu : CPUState) : CPUState :=
  let mask := mtcrfMask i.crm
  if mask ≠ 0 then { cpu with cr := (cpu.cr &&& ~~~mask) ||| (cpu.gpr i.rS &&& mask) } else cpu

def emitConditionRegister (i : PPCInst) (cpu : CPUState) : CPUState :=
  match i.op with
  | .crand => emitCrLogical i (· &&& ·) cpu
  | .crandc => emitCrLogical i (fun a b => a &&& ~~~b) cpu
  | .creqv => emitCrLogical i (fun a b => ~~~(a ^^^ b)) cpu
  | .crnand => emitCrLogical i (fun a b => ~~~(a &&& b)) cpu
  | .crnor => emitCrLogical i (fun a b => ~~~(a ||| b)) cpu
  | .cror => emitCrLogical i (· ||| ·) cpu
  | .crorc => emitCrLogical i (fun a b => a ||| ~~~b) cpu
  | .crxor => emitCrLogical i (· ^^^ ·) cpu
  | .mcrf => setCrBits i.crfD ((cpu.cr >>> crFieldShift i.crfS) &&& 0xF#32) cpu
  | .mfcr => cpu.setGpr i.rD cpu.cr
  | .mtcrf => emitMtcrf i cpu
  | _ => cpu

def dformEa (i : PPCInst) (update : Bool) (cpu : CPUState) : BitVec 32 :=
  if i.rA = 0 ∧ !update then i.simm.signExtend 32 else cpu.gpr i.rA + i.simm.signExtend 32

def xformEa (i : PPCInst) (update : Bool) (cpu : CPUState) : BitVec 32 :=
  if i.rA = 0 ∧ !update then cpu.gpr i.rB else cpu.gpr i.rA + cpu.gpr i.rB

section

variable (host : Host)

def memRead8 (cpu : CPUState) (ea : BitVec 32) : BitVec 32 × CPUState :=
  let (value, cpu) := Runtime.memRead8 host cpu ea
  (value.zeroExtend 32, cpu)

def memRead16 (cpu : CPUState) (ea : BitVec 32) : BitVec 32 × CPUState :=
  let (value, cpu) := Runtime.memRead16 host cpu ea
  (value.zeroExtend 32, cpu)

/-- `(u32)(s32)(s16)mem_read16(ctx, ea)` -/
def memReadS16 (cpu : CPUState) (ea : BitVec 32) : BitVec 32 × CPUState :=
  let (value, cpu) := Runtime.memRead16 host cpu ea
  (value.signExtend 32, cpu)

def memReadReversed32 (cpu : CPUState) (ea : BitVec 32) : BitVec 32 × CPUState :=
  let (value, cpu) := Runtime.memRead32 host cpu ea
  (bswap32 value, cpu)

def memReadReversed16 (cpu : CPUState) (ea : BitVec 32) : BitVec 32 × CPUState :=
  let (value, cpu) := Runtime.memRead16 host cpu ea
  ((bswap16 value).zeroExtend 32, cpu)

end

/-- The loaded value goes to `rD` before the address goes to `rA`. -/
def emitLoadAt (i : PPCInst) (ea : BitVec 32) (read : CPUState → BitVec 32 → BitVec 32 × CPUState)
    (update : Bool) (cpu : CPUState) : CPUState :=
  let (value, cpu) := read cpu ea
  let cpu := cpu.setGpr i.rD value
  if update then cpu.setGpr i.rA ea else cpu

def emitLoad (i : PPCInst) (read : CPUState → BitVec 32 → BitVec 32 × CPUState) (update : Bool)
    (cpu : CPUState) : CPUState := emitLoadAt i (dformEa i update cpu) read update cpu

def emitLoadx (i : PPCInst) (read : CPUState → BitVec 32 → BitVec 32 × CPUState) (update : Bool)
    (cpu : CPUState) : CPUState := emitLoadAt i (xformEa i update cpu) read update cpu

def memWrite8 (cpu : CPUState) (ea value : BitVec 32) : CPUState :=
  Runtime.memWrite8 cpu ea (value.truncate 8)

def memWrite16 (cpu : CPUState) (ea value : BitVec 32) : CPUState :=
  Runtime.memWrite16 cpu ea (value.truncate 16)

def emitStoreAt (i : PPCInst) (ea : BitVec 32) (write : CPUState → BitVec 32 → BitVec 32 → CPUState)
    (update : Bool) (cpu : CPUState) : CPUState :=
  let cpu := write cpu ea (cpu.gpr i.rS)
  if update then cpu.setGpr i.rA ea else cpu

def emitStore (i : PPCInst) (write : CPUState → BitVec 32 → BitVec 32 → CPUState) (update : Bool)
    (cpu : CPUState) : CPUState := emitStoreAt i (dformEa i update cpu) write update cpu

def emitStorex (i : PPCInst) (write : CPUState → BitVec 32 → BitVec 32 → CPUState) (update : Bool)
    (cpu : CPUState) : CPUState := emitStoreAt i (xformEa i update cpu) write update cpu

def stringCount (i : PPCInst) : Nat := if i.nb = 0 then 32 else i.nb.toNat

def lswiEa (i : PPCInst) (cpu : CPUState) : BitVec 32 := if i.rA ≠ 0 then cpu.gpr i.rA else 0

def lswxEa (i : PPCInst) (cpu : CPUState) : BitVec 32 :=
  if i.rA ≠ 0 then cpu.gpr i.rB + cpu.gpr i.rA else cpu.gpr i.rB

def lswxCount (cpu : CPUState) : Nat := (cpu.xer &&& 0x7F#32).toNat

/-- A register of the transfer is also an address register. -/
def lswxOverlap (i : PPCInst) (cpu : CPUState) : Bool :=
  (List.range ((lswxCount cpu + 3) / 4)).any fun r =>
    i.rD + BitVec.ofNat 5 r == i.rA || i.rD + BitVec.ofNat 5 r == i.rB

def emitLswx (cfg : EmitConfig) (i : PPCInst) (cpu : CPUState) : CFlow :=
  if lswxOverlap i cpu then
    .ret (Runtime.ppcProgramException cpu Runtime.ppcProgramIllegal i.address)
  else .next (Runtime.lswBytes cfg.host i.rD (lswxEa i cpu) (lswxCount cpu) cpu)

/-- Byte `n` of a string store comes from byte `n % 4` of register `rS + n/4`. -/
def stswByte (rS : BitVec 5) (ea : BitVec 32) (cpu : CPUState) (n : Nat) : CPUState :=
  let value := cpu.gpr (rS + BitVec.ofNat 5 (n / 4)) >>> (24 - 8*(n % 4))
  Runtime.memWrite8 cpu (ea + BitVec.ofNat 32 n) (value.truncate 8)

def stswBytes (rS : BitVec 5) (ea : BitVec 32) (count : Nat) (cpu : CPUState) : CPUState :=
  (List.range count).foldl (stswByte rS ea) cpu

def emitLwarx (host : Host) (i : PPCInst) (cpu : CPUState) : CPUState :=
  let ea := xformEa i false cpu
  let (value, cpu) := Runtime.memRead32 host cpu ea
  { cpu.setGpr i.rD value with reserveAddr := ea, reserveValid := true }

def emitStwcx (i : PPCInst) (cpu : CPUState) : CPUState :=
  let ea := xformEa i false cpu
  let success : Bool := cpu.reserveValid && ea == cpu.reserveAddr
  let cpu := if success then
      { Runtime.memWrite32 cpu ea (cpu.gpr i.rS) with reserveValid := false }
    else cpu
  { cpu with cr := (cpu.cr &&& 0x0FFFFFFF#32) ||| ((if success then 2#32 else 0#32) <<< 28) |||
      ((cpu.xer >>> 3) &&& 0x10000000#32) }

def emitDcbz (i : PPCInst) (cpu : CPUState) : CPUState :=
  let ea := xformEa i false cpu &&& ~~~31#32
  (List.range 8).foldl (fun cpu n => Runtime.memWrite32 cpu (ea + BitVec.ofNat 32 (4*n)) 0) cpu

/-- `for (u32 r = rD; r < 32; r++, ea += 4) ctx->gpr[r] = mem_read32(ctx, ea);` -/
def emitLmw (host : Host) (i : PPCInst) (cpu : CPUState) : CPUState :=
  let ea := dformEa i false cpu
  (List.range (32 - i.rD.toNat)).foldl (fun cpu n =>
    let (value, cpu) := Runtime.memRead32 host cpu (ea + BitVec.ofNat 32 (4*n))
    cpu.setGpr (i.rD + BitVec.ofNat 5 n) value) cpu

def emitStmw (i : PPCInst) (cpu : CPUState) : CPUState :=
  let ea := dformEa i false cpu
  (List.range (32 - i.rS.toNat)).foldl (fun cpu n =>
    Runtime.memWrite32 cpu (ea + BitVec.ofNat 32 (4*n)) (cpu.gpr (i.rS + BitVec.ofNat 5 n))) cpu

def emitMemory (cfg : EmitConfig) (i : PPCInst) (cpu : CPUState) : CFlow :=
  let host := cfg.host
  match i.op with
  | .lwz => .next (emitLoad i (Runtime.memRead32 host) false cpu)
  | .lwzu => .next (emitLoad i (Runtime.memRead32 host) true cpu)
  | .lbz => .next (emitLoad i (memRead8 host) false cpu)
  | .lbzu => .next (emitLoad i (memRead8 host) true cpu)
  | .lhz => .next (emitLoad i (memRead16 host) false cpu)
  | .lhzu => .next (emitLoad i (memRead16 host) true cpu)
  | .lha => .next (emitLoad i (memReadS16 host) false cpu)
  | .lhau => .next (emitLoad i (memReadS16 host) true cpu)
  | .lwzx => .next (emitLoadx i (Runtime.memRead32 host) false cpu)
  | .lwzux => .next (emitLoadx i (Runtime.memRead32 host) true cpu)
  | .lbzx => .next (emitLoadx i (memRead8 host) false cpu)
  | .lbzux => .next (emitLoadx i (memRead8 host) true cpu)
  | .lhzx => .next (emitLoadx i (memRead16 host) false cpu)
  | .lhzux => .next (emitLoadx i (memRead16 host) true cpu)
  | .lhax => .next (emitLoadx i (memReadS16 host) false cpu)
  | .lhaux => .next (emitLoadx i (memReadS16 host) true cpu)
  | .lwbrx => .next (emitLoadx i (memReadReversed32 host) false cpu)
  | .lhbrx => .next (emitLoadx i (memReadReversed16 host) false cpu)
  | .stw => .next (emitStore i Runtime.memWrite32 false cpu)
  | .stwu => .next (emitStore i Runtime.memWrite32 true cpu)
  | .stb => .next (emitStore i memWrite8 false cpu)
  | .stbu => .next (emitStore i memWrite8 true cpu)
  | .sth => .next (emitStore i memWrite16 false cpu)
  | .sthu => .next (emitStore i memWrite16 true cpu)
  | .stwx => .next (emitStorex i Runtime.memWrite32 false cpu)
  | .stwux => .next (emitStorex i Runtime.memWrite32 true cpu)
  | .stbx => .next (emitStorex i memWrite8 false cpu)
  | .stbux => .next (emitStorex i memWrite8 true cpu)
  | .sthx => .next (emitStorex i memWrite16 false cpu)
  | .sthux => .next (emitStorex i memWrite16 true cpu)
  | .stwbrx =>
    .next (emitStorex i (fun cpu ea value => Runtime.memWrite32 cpu ea (bswap32 value)) false cpu)
  | .sthbrx =>
    .next (emitStorex i
      (fun cpu ea value => Runtime.memWrite16 cpu ea (bswap16 (value.truncate 16))) false cpu)
  | .lswi => .next (Runtime.lswBytes host i.rD (lswiEa i cpu) (stringCount i) cpu)
  | .lswx => emitLswx cfg i cpu
  | .stswi => .next (stswBytes i.rS (lswiEa i cpu) (stringCount i) cpu)
  | .stswx => .next (stswBytes i.rS (lswxEa i cpu) (lswxCount cpu) cpu)
  | .lwarx => .next (emitLwarx host i cpu)
  | .stwcx => .next (emitStwcx i cpu)
  | .dcbz => .next (emitDcbz i cpu)
  | .lmw => .next (emitLmw host i cpu)
  | .stmw => .next (emitStmw i cpu)
  | _ => cfg.otherStatements i cpu

/-- The counter is decremented before it is tested; the answer is `ctr_ok && cr_ok`. -/
def emitBranchCondition (i : PPCInst) (cpu : CPUState) : Bool × CPUState :=
  let (ctrOk, cpu) :=
    if i.bo &&& 0x04#5 = 0 then
      let cpu := { cpu with ctr := cpu.ctr - 1 }
      ((cpu.ctr != 0) ^^ i.bo.getLsbD 1, cpu)
    else (true, cpu)
  let crOk :=
    if i.bo &&& 0x10#5 = 0 then (cpu.cr &&& (0x80000000#32 >>> i.bi.toNat) != 0) == i.bo.getLsbD 3
    else true
  (ctrOk && crOk, cpu)

def branchTargetIsLocal (cfg : EmitConfig) (target : BitVec 32) : Bool :=
  cfg.funcStart ≤ target ∧ target < cfg.funcEnd ∧ (target - cfg.funcStart) &&& 3#32 = 0

/-- Binary search for the number of starts at or below `addr`; the interval from `lo`
to `hi` is halved in each of the `fuel` rounds. -/
def chunkStartLoop (starts : List (BitVec 32)) (addr : BitVec 32) : Nat → Nat → Nat → Nat
  | 0, lo, _ => lo
  | fuel+1, lo, hi =>
    if lo < hi then
      let mid := lo + (hi - lo) / 2
      if starts.getD mid 0 ≤ addr then chunkStartLoop starts addr fuel (mid + 1) hi
      else chunkStartLoop starts addr fuel lo mid
    else lo

/-- The chunk that covers `addr`, or 0. -/
def chunkStartFor (cfg : EmitConfig) (addr : BitVec 32) : BitVec 32 :=
  let count := cfg.chunkStarts.length
  let lo := chunkStartLoop cfg.chunkStarts addr count 0 count
  if lo = 0 then 0 else cfg.chunkStarts.getD (lo - 1) 0

/-- `DOLRECOMP_C_LOOP_CYCLE_BUDGET` -/
def loopCycleBudget : Int := 256

/-- A call of another chunk that is known, when the continuation has a label. -/
def emitCrossChunkCall (cfg : EmitConfig) (i : PPCInst) (cpu : CPUState) : Option CFlow :=
  let targetChunk := chunkStartFor cfg i.branchTarget
  if targetChunk = 0 then none
  else if !branchTargetIsLocal cfg (i.address + 4) then none
  else
    let cpu := { cpu with pc := i.branchTarget }
    if cfg.callEnter then some (.call targetChunk cpu) else some (.ret cpu)

/-- A loop that used up its cycles returns to the caller at the branch target. -/
def emitBackedge (i : PPCInst) (cpu : CPUState) : CFlow :=
  if cpu.downcount.toInt ≤ -loopCycleBudget then .ret { cpu with pc := i.branchTarget }
  else .goto i.branchTarget cpu

def emitDirectBranch (cfg : EmitConfig) (i : PPCInst) (cpu : CPUState) : CFlow :=
  let localTarget := branchTargetIsLocal cfg i.branchTarget
  let localBackward : Bool := localTarget && i.branchTarget ≤ i.address
  if i.lk then
    let cpu := { cpu with lr := i.address + 4 }
    if localTarget then
      if localBackward then emitBackedge i cpu else .goto i.branchTarget cpu
    else (emitCrossChunkCall cfg i cpu).getD (.ret { cpu with pc := i.branchTarget })
  else if localBackward then
    if cfg.directBackedge then emitBackedge i cpu else .ret { cpu with pc := i.branchTarget }
  else if localTarget then .goto i.branchTarget cpu
  else .ret { cpu with pc := i.branchTarget }

def emitDynamicBranch (i : PPCInst) (target : BitVec 32) (routeLocalReturns : Bool)
    (cpu : CPUState) : CFlow :=
  let (taken, cpu) := emitBranchCondition i cpu
  if taken then
    let cpu := if i.lk then { cpu with lr := i.address + 4 } else cpu
    let cpu := { cpu with pc := target }
    if routeLocalReturns then .dispatch cpu else .ret cpu
  else .next cpu

def emitBranch (cfg : EmitConfig) (i : PPCInst) (cpu : CPUState) : CFlow :=
  match i.op with
  | .b => emitDirectBranch cfg i cpu
  | .bc =>
    let (taken, cpu) := emitBranchCondition i cpu
    if taken then emitDirectBranch cfg i cpu else .next cpu
  | .bclr => emitDynamicBranch i (cpu.lr &&& ~~~3#32) cfg.routeLocalReturns cpu
  | .bcctr => emitDynamicBranch i (cpu.ctr &&& ~~~3#32) false cpu
  | _ => .next cpu

def ppcTrapCondition (toField : BitVec 5) (a b : BitVec 32) : Bool :=
  (a.slt b && toField.getLsbD 4) || (b.slt a && toField.getLsbD 3) ||
    ((a == b) && toField.getLsbD 2) || (a.ult b && toField.getLsbD 1) ||
    (b.ult a && toField.getLsbD 0)

def emitTrap (i : PPCInst) (cpu : CPUState) : CFlow :=
  let b := if i.op = .twi then i.simm.signExtend 32 else cpu.gpr i.rB
  if ppcTrapCondition i.toField (cpu.gpr i.rA) b then
    .ret (Runtime.ppcProgramException cpu Runtime.ppcProgramTrap i.address)
  else .next cpu

/-- `ctx->gpr[rD] = ppc_mftb(..); if (ctx->exception) return;` -/
def emitMftb (i : PPCInst) (cpu : CPUState) : CFlow :=
  let (value, cpu) := Runtime.ppcMftb cpu i.spr i.address
  let cpu := cpu.setGpr i.rD value
  if cpu.exception ≠ 0 then .ret cpu else .next cpu

def emitFallback (cfg : EmitConfig) (i : PPCInst) (cpu : CPUState) : CFlow :=
  .ret (Runtime.ppcFallbackInstruction cfg.host cpu i.raw i.address)

def emitMfspr (cfg : EmitConfig) (i : PPCInst) (cpu : CPUState) : CFlow :=
  match i.spr.toNat with
  | 1 => .next (cpu.setGpr i.rD cpu.xer)
  | 8 => .next (cpu.setGpr i.rD cpu.lr)
  | 9 => .next (cpu.setGpr i.rD cpu.ctr)
  | 26 => .next (cpu.setGpr i.rD cpu.srr0)
  | 27 => .next (cpu.setGpr i.rD cpu.srr1)
  | 268 | 269 => emitMftb i cpu
  | 912 => .next (cpu.setGpr i.rD (cpu.gqr 0))
  | 913 => .next (cpu.setGpr i.rD (cpu.gqr 1))
  | 914 => .next (cpu.setGpr i.rD (cpu.gqr 2))
  | 915 => .next (cpu.setGpr i.rD (cpu.gqr 3))
  | 916 => .next (cpu.setGpr i.rD (cpu.gqr 4))
  | 917 => .next (cpu.setGpr i.rD (cpu.gqr 5))
  | 918 => .next (cpu.setGpr i.rD (cpu.gqr 6))
  | 919 => .next (cpu.setGpr i.rD (cpu.gqr 7))
  | 282 => .next (cpu.setGpr i.rD cpu.ear)
  | 920 => .next (cpu.setGpr i.rD cpu.hid2)
  | _ => emitFallback cfg i cpu

def emitMtspr (cfg : EmitConfig) (i : PPCInst) (cpu : CPUState) : CFlow :=
  let value := cpu.gpr i.rS
  match i.spr.toNat with
  | 1 => .next { cpu with xer := value }
  | 8 => .next { cpu with lr := value }
  | 9 => .next { cpu with ctr := value }
  | 26 => .next { cpu with srr0 := value }
  | 27 => .next { cpu with srr1 := value }
  | 282 => .next { cpu with ear := value }
  | 912 => .next (cpu.setGqr 0 value)
  | 913 => .next (cpu.setGqr 1 value)
  | 914 => .next (cpu.setGqr 2 value)
  | 915 => .next (cpu.setGqr 3 value)
  | 916 => .next (cpu.setGqr 4 value)
  | 917 => .next (cpu.setGqr 5 value)
  | 918 => .next (cpu.setGqr 6 value)
  | 919 => .next (cpu.setGqr 7 value)
  | 920 => .next { cpu with hid2 := value }
  | _ => emitFallback cfg i cpu

def emitMcrxr (i : PPCInst) (cpu : CPUState) : CPUState :=
  let cpu := setCrBits i.crfD ((cpu.xer >>> 28) &&& 0xF#32) cpu
  { cpu with xer := cpu.xer &&& ~~~0xE0000000#32 }

/-- The segment register named by the top four bits of `rB`. -/
def segmentOf (i : PPCInst) (cpu : CPUState) : BitVec 4 := ((cpu.gpr i.rB >>> 28) &&& 0xF#32).truncate 4

def emitSystem (cfg : EmitConfig) (i : PPCInst) (cpu : CPUState) : CFlow :=
  match i.op with
  | .mcrxr => .next (emitMcrxr i cpu)
  | .mfmsr => .next (cpu.setGpr i.rD cpu.msr)
  | .mtmsr => .next { cpu with msr := cpu.gpr i.rS }
  | .mfsr => .next (cpu.setGpr i.rD (cpu.sr i.sr))
  | .mfsrin => .next (cpu.setGpr i.rD (cpu.sr (segmentOf i cpu)))
  | .mtsr => .next (cpu.setSr i.sr (cpu.gpr i.rS))
  | .mtsrin => .next (cpu.setSr (segmentOf i cpu) (cpu.gpr i.rS))
  | .mftb => emitMftb i cpu
  | .mfspr => emitMfspr cfg i cpu
  | .mtspr => emitMtspr cfg i cpu
  | _ => .next cpu

/-- `if (inst->rc) emit_set_cr1_from_fpscr(out);` -/
def recordCr1 (i : PPCInst) (cpu : CPUState) : CPUState :=
  if i.rc then emitSetCr1FromFpscr cpu else cpu

/-- The loop that normalises a denormal: at least one round, until bit 23 is set. -/
def normalizeLoop : Nat → BitVec 64 → BitVec 64 → BitVec 64 × BitVec 64
  | 0, frac, exp => (frac, exp)
  | fuel+1, frac, exp =>
    let frac := frac <<< 1
    let exp := exp - 1
    if frac &&& 0x00800000#64 = 0 then normalizeLoop fuel frac exp else (frac, exp)

/-- The double that a single-precision bit pattern stands for. -/
def f32FromBits (bits : BitVec 32) : BitVec 64 :=
  let x : BitVec 64 := bits.zeroExtend 64
  let exp := (x >>> 23) &&& 0xFF#64
  let frac := x &&& 0x007FFFFF#64
  if 0 < exp ∧ exp < 255 then
    let y : BitVec 64 := if exp >>> 7 = 0 then 1 else 0
    let z := (y <<< 61) ||| (y <<< 60) ||| (y <<< 59)
    ((x &&& 0xC0000000#64) <<< 32) ||| z ||| ((x &&& 0x3FFFFFFF#64) <<< 29)
  else if exp = 0 ∧ frac ≠ 0 then
    let (frac, exp) := normalizeLoop 23 frac (1023 - 126)
    ((x &&& 0x80000000#64) <<< 32) ||| (exp <<< 52) ||| ((frac &&& 0x007FFFFF#64) <<< 29)
  else
    let y := exp >>> 7
    let z := (y <<< 61) ||| (y <<< 60) ||| (y <<< 59)
    ((x &&& 0xC0000000#64) <<< 32) ||| z ||| ((x &&& 0x3FFFFFFF#64) <<< 29)

/-- The single-precision bit pattern of a double; bits it has no room for are dropped. -/
def f32ToBits (bits : BitVec 64) : BitVec 32 :=
  let exp : BitVec 32 := ((bits >>> 52) &&& 0x7FF#64).truncate 32
  let direct : BitVec 32 :=
    (((bits >>> 32) &&& 0xC0000000#64) ||| ((bits >>> 29) &&& 0x3FFFFFFF#64)).truncate 32
  if 896 < exp ∨ bits &&& 0x7FFFFFFFFFFFFFFF#64 = 0 then direct
  else if 874 ≤ exp then
    let result : BitVec 32 := (0x80000000#64 ||| ((bits &&& 0x000FFFFFFFFFFFFF#64) >>> 21)).truncate 32
    (result >>> (905 - exp).toNat) ||| ((bits >>> 32) &&& 0x80000000#64).truncate 32
  else direct

/-- Both lanes go through single precision. -/
def emitPairedSign (i : PPCInst) (f : BitVec 32 → BitVec 32) (cpu : CPUState) : CPUState :=
  let cpu := cpu.setFpr i.rD (f32FromBits (f (f32ToBits (cpu.fpr i.rB))))
  cpu.setPs1 i.rD (f32FromBits (f (f32ToBits (cpu.ps1 i.rB))))

/-- The two lanes are read before either is written. -/
def emitPsMerge (i : PPCInst) (useAPs1 useBPs1 : Bool) (cpu : CPUState) : CPUState :=
  let ps0 := if useAPs1 then cpu.ps1 i.rA else cpu.fpr i.rA
  let ps1 := if useBPs1 then cpu.ps1 i.rB else cpu.fpr i.rB
  (cpu.setFpr i.rD ps0).setPs1 i.rD ps1

def emitFloatMove (i : PPCInst) (cpu : CPUState) : CPUState :=
  let rB := cpu.fpr i.rB
  recordCr1 i <|
    match i.op with
    | .fmr => cpu.setFpr i.rD rB
    | .fneg => cpu.setFpr i.rD (rB ^^^ 0x8000000000000000#64)
    | .fabs => cpu.setFpr i.rD (rB &&& 0x7FFFFFFFFFFFFFFF#64)
    | .fnabs => cpu.setFpr i.rD (rB ||| 0x8000000000000000#64)
    | .psNeg => emitPairedSign i (· ^^^ 0x80000000#32) cpu
    | .psAbs => emitPairedSign i (· &&& 0x7FFFFFFF#32) cpu
    | .psNabs => emitPairedSign i (· ||| 0x80000000#32) cpu
    | .psMr =>
      let cpu := cpu.setFpr i.rD rB
      cpu.setPs1 i.rD (cpu.ps1 i.rB)
    | .psMerge00 => emitPsMerge i false false cpu
    | .psMerge01 => emitPsMerge i false true cpu
    | .psMerge10 => emitPsMerge i true false cpu
    | _ => emitPsMerge i true true cpu

/-- Bits 1 and 2 (FEX and VX) are left alone, and not recomputed. -/
def emitMtfsb (i : PPCInst) (cpu : CPUState) : CPUState :=
  let mask := 0x80000000#32 >>> i.rD.toNat
  if i.rD ≠ 1 ∧ i.rD ≠ 2 then
    { cpu with fpscr := if i.op = .mtfsb0 then cpu.fpscr &&& ~~~mask else cpu.fpscr ||| mask }
  else cpu

def emitMcrfs (i : PPCInst) (cpu : CPUState) : CPUState :=
  let shift := crFieldShift i.crfS
  let field := (cpu.fpscr >>> shift) &&& 0xF#32
  let cpu := { cpu with fpscr := cpu.fpscr &&& ~~~((0xF#32 <<< shift) &&& 0x83F80700#32) }
  setCrBits i.crfD field (Runtime.ppcFpscrUpdated cpu)

def emitMtfsfi (i : PPCInst) (cpu : CPUState) : CPUState :=
  let shift := crFieldShift i.crfD
  Runtime.ppcFpscrUpdated { cpu with
    fpscr := (cpu.fpscr &&& ~~~(0xF#32 <<< shift)) ||| (i.imm.zeroExtend 32 <<< shift) }

def mtfsfMask (fm : BitVec 8) : BitVec 32 :=
  (List.range 8).foldl (fun mask n =>
    if fm &&& (1#8 <<< n) ≠ 0 then mask ||| (0xF#32 <<< (n*4)) else mask) 0

def emitMtfsf (i : PPCInst) (cpu : CPUState) : CPUState :=
  let mask := mtfsfMask i.fm
  let source : BitVec 32 := (cpu.fpr i.rB).truncate 32
  Runtime.ppcFpscrUpdated { cpu with fpscr := (cpu.fpscr &&& ~~~mask) ||| (source &&& mask) }

def emitFpscr (i : PPCInst) (cpu : CPUState) : CPUState :=
  match i.op with
  | .mtfsb0 | .mtfsb1 => recordCr1 i (emitMtfsb i cpu)
  | .mffs =>
    recordCr1 i (cpu.setFpr i.rD (0xFFF8000000000000#64 ||| cpu.fpscr.zeroExtend 64))
  | .mcrfs => emitMcrfs i cpu
  | .mtfsfi => recordCr1 i (emitMtfsfi i cpu)
  | _ => recordCr1 i (emitMtfsf i cpu)

def emitStatements (cfg : EmitConfig) (i : PPCInst) (cpu : CPUState) : CFlow :=
  match i.op with
  | .mulli | .subfic | .addi | .addic | .addicDot | .addis | .cmpi | .cmpli | .ori | .oris | .xori
  | .xoris | .andi | .andis | .cmp | .cmpl | .add | .addo | .addc | .addco | .adde | .addeo
  | .addme | .addmeo | .addze | .addzeo | .subf | .subfo | .subfc | .subfco | .subfe | .subfeo
  | .subfme | .subfmeo | .subfze | .subfzeo | .neg | .nego | .and | .andc | .or | .orc | .xor
  | .nand | .nor | .eqv | .cntlzw | .extsb | .extsh | .slw | .srw | .sraw | .srawi | .rlwinm
  | .rlwnm | .rlwimi | .mullw | .mullwo | .mulhw | .mulhwu | .divw | .divwo | .divwu | .divwuo =>
    .next (emitInteger i cpu)
  | .crand | .crandc | .creqv | .crnand | .crnor | .cror | .crorc | .crxor | .mcrf | .mfcr | .mtcrf =>
    .next (emitConditionRegister i cpu)
  | .b | .bc | .bclr | .bcctr => emitBranch cfg i cpu
  | .twi | .tw => emitTrap i cpu
  | .sc => .ret (Runtime.ppcSystemCallException cpu i.address)
  | .rfi => .ret (Runtime.ppcRfi cpu i.address)
  | .mcrxr | .mfmsr | .mtmsr | .mfsr | .mfsrin | .mtsr | .mtsrin | .mftb | .mfspr | .mtspr =>
    emitSystem cfg i cpu
  | .fmr | .fneg | .fabs | .fnabs | .psNeg | .psAbs | .psNabs | .psMr | .psMerge00 | .psMerge01
  | .psMerge10 | .psMerge11 => .next (emitFloatMove i cpu)
  | .mtfsb0 | .mtfsb1 | .mffs | .mcrfs | .mtfsfi | .mtfsf => .next (emitFpscr i cpu)
  | .sync | .eieio | .isync | .tlbsync => .next cpu
  | .unknown => emitFallback cfg i cpu
  | _ => emitMemory cfg i cpu

/-- The statements printed for an instruction. Embedded data has none; an opcode that
uses the floating-point unit first checks that it is available. -/
def emitInstruction (cfg : EmitConfig) (i : PPCInst) (cpu : CPUState) : CFlow :=
  if i.embeddedData then .next cpu
  else if ppcOpUsesFpu i.op then
    let (available, cpu) := Runtime.ppcFpAvailable cpu i.address
    if available then emitStatements cfg i cpu else .ret cpu
  else emitStatements cfg i cpu

end Emitter

namespace CFlow

/-- The state at the next instruction, its address in `pc`. -/
def nextState (address : BitVec 32) : CFlow → CPUState
  | .next cpu => { cpu with pc := address + 4 }
  | .goto label cpu => { cpu with pc := label }
  | .dispatch cpu | .call _ cpu | .ret cpu => cpu

def jumps : CFlow → Bool
  | .next _ => false
  | _ => true

section

variable (address : BitVec 32) (cpu : CPUState)

@[simp] theorem nextState_next : (next cpu).nextState address = { cpu with pc := address + 4 } := rfl

@[simp] theorem nextState_ret : (ret cpu).nextState address = cpu := rfl

@[simp] theorem nextState_dispatch : (dispatch cpu).nextState address = cpu := rfl

@[simp] theorem jumps_next : (next cpu).jumps = false := rfl

@[simp] theorem jumps_ret : (ret cpu).jumps = true := rfl

@[simp] theorem jumps_dispatch : (dispatch cpu).jumps = true := rfl

end

end CFlow

end DolRecomp
