import DolRecomp.Builder

/-!
# The lowering functions

Each function lowers one group of instructions and answers whether it knew the
opcode; instructions no function knows end their block with a fallback.
-/

namespace DolRecomp

namespace Builder

def signed32 (simm : BitVec 16) : BitVec 32 := simm.signExtend 32

def trapBit (set : Bool) (op : DolIROp) (condition a c : DolIRValue) : Builder DolIRValue :=
  if set then do binary .or .i1 condition (← binary op .i1 a c) else pure condition

def trapCondition (a c : DolIRValue) : Builder DolIRValue := do
  let i ← inst
  let condition ← c1 false
  let condition ← trapBit (i.toField.getLsbD 4) .icmpSlt condition a c
  let condition ← trapBit (i.toField.getLsbD 3) .icmpSlt condition c a
  let condition ← trapBit (i.toField.getLsbD 2) .icmpEq condition a c
  let condition ← trapBit (i.toField.getLsbD 1) .icmpUlt condition a c
  trapBit (i.toField.getLsbD 0) .icmpUlt condition c a

/-- Write a destination register and record it when the instruction asks for it. -/
def finish (reg : BitVec 5) (result : DolIRValue) : Builder Bool := do
  setGpr reg result
  recordIfNeeded result
  return true

def lowerTrap (i : PPCInst) : Builder Bool := do
  let a ← gpr i.rA
  let c ← if i.op = .twi then c32 (signed32 i.simm) else gpr i.rB
  let condition ← trapCondition a c
  helper .programException [condition] (dolirProgramTrap.zeroExtend 64)
  return true

def lowerLogicalImmediate (i : PPCInst) : Builder Bool := do
  let imm : BitVec 32 := if i.op = .oris ∨ i.op = .xoris ∨ i.op = .andis then
    i.uimm.zeroExtend 32 <<< 16 else i.uimm.zeroExtend 32
  let op : DolIROp := if i.op = .ori ∨ i.op = .oris then .or
    else if i.op = .xori ∨ i.op = .xoris then .xor else .and
  let result ← binary op .i32 (← gpr i.rS) (← c32 imm)
  setGpr i.rA result
  if op = .and then setCr0 result else pure ()
  return true

def lowerCompare (i : PPCInst) : Builder Bool := do
  let a ← gpr i.rA
  let c ← if i.op = .cmpi then c32 (signed32 i.simm)
    else if i.op = .cmpli then c32 (i.uimm.zeroExtend 32) else gpr i.rB
  setCrField i.crfD a c (i.op = .cmpi ∨ i.op = .cmp)
  return true

def lowerAdd (i : PPCInst) : Builder Bool := do
  if i.oe then return false
  let a ← gpr i.rA
  let c ← gpr i.rB
  if i.op = .addc ∨ i.op = .addco ∨ i.op = .adde ∨ i.op = .addeo then
    let wide ← addWide a c
    let wide ← if i.op = .adde ∨ i.op = .addeo then do
        let ca ← xerCa
        binary .add .i64 wide (← zextValue .i64 ca)
      else pure wide
    let result ← truncValue .i32 wide
    setXerCa (← carryOut wide)
    finish i.rD result
  else
    finish i.rD (← binary .add .i32 a c)

def lowerSubf (i : PPCInst) : Builder Bool := do
  if i.oe then return false
  let a ← gpr i.rA
  let c ← gpr i.rB
  if i.op = .subfc ∨ i.op = .subfco ∨ i.op = .subfe ∨ i.op = .subfeo then
    let notA ← unary .not .i32 a
    let wide ← addWide notA c
    let carryIn ← c32 (if i.op = .subfc ∨ i.op = .subfco then 1 else 0)
    let carryIn ← if i.op = .subfe ∨ i.op = .subfeo then xerCa else pure carryIn
    let wide ← binary .add .i64 wide (← zextValue .i64 carryIn)
    let result ← truncValue .i32 wide
    setXerCa (← carryOut wide)
    finish i.rD result
  else
    finish i.rD (← binary .sub .i32 c a)

def lowerExtended (i : PPCInst) : Builder Bool := do
  let a ← gpr i.rA
  let a ← if i.op = .subfme ∨ i.op = .subfze then unary .not .i32 a else pure a
  let c ← c32 (if i.op = .addme ∨ i.op = .subfme then 0xFFFFFFFF else 0)
  writeCarryResult i.rD (← addWideWithCarry a c (← xerCa)) i.rc
  return true

def lowerLogical (i : PPCInst) : Builder Bool := do
  let a ← gpr i.rS
  let c ← gpr i.rB
  let c ← if i.op = .andc ∨ i.op = .orc then unary .not .i32 c else pure c
  let op : DolIROp := if i.op = .and ∨ i.op = .andc ∨ i.op = .nand then .and
    else if i.op = .or ∨ i.op = .orc ∨ i.op = .nor then .or else .xor
  let result ← binary op .i32 a c
  let result ← if i.op = .nand ∨ i.op = .nor ∨ i.op = .eqv then unary .not .i32 result
    else pure result
  finish i.rA result

def lowerRotate (i : PPCInst) : Builder Bool := do
  let shift ← if i.op = .rlwnm then gpr i.rB else c32 (i.sh.zeroExtend 32)
  let result ← binary .rotl .i32 (← gpr i.rS) shift
  let mask := ppcMask32 i.mb i.me
  let result ← binary .and .i32 result (← c32 mask)
  let result ← if i.op = .rlwimi then do
      binary .or .i32 (← binary .and .i32 (← gpr i.rA) (← c32 (~~~mask))) result
    else pure result
  finish i.rA result

def lowerShift (i : PPCInst) : Builder Bool := do
  let sh ← binary .and .i32 (← gpr i.rB) (← c32 0x3F)
  let tooBig ← binary .icmpUlt .i1 (← c32 31) sh
  let result ← binary (if i.op = .slw then .shl else .lshr) .i32 (← gpr i.rS)
    (← binary .and .i32 sh (← c32 31))
  let result ← selectValue .i32 tooBig (← c32 0) result
  finish i.rA result

def lowerShiftAlgebraic (i : PPCInst) : Builder Bool := do
  let value ← gpr i.rS
  let sh ← if i.op = .srawi then c32 (i.sh.zeroExtend 32)
    else do binary .and .i32 (← gpr i.rB) (← c32 0x3F)
  let safeSh ← binary .and .i32 sh (← c32 31)
  let sign ← binary .icmpSlt .i1 value (← c32 0)
  let tooBig ← binary .icmpUlt .i1 (← c32 31) sh
  let shifted ← binary .ashr .i32 value safeSh
  let result ← selectValue .i32 tooBig
    (← selectValue .i32 sign (← c32 0xFFFFFFFF) (← c32 0)) shifted
  let lowMask ← binary .sub .i32 (← binary .shl .i32 (← c32 1) safeSh) (← c32 1)
  let lost ← binary .icmpNe .i1 (← binary .and .i32 value lowMask) (← c32 0)
  let ca ← binary .and .i1 sign lost
  let ca ← selectValue .i1 tooBig sign ca
  setGpr i.rA result
  setXerCa ca
  recordIfNeeded result
  return true

def lowerMultiply (i : PPCInst) : Builder Bool := do
  let extend (v : DolIRValue) := if i.op = .mulhwu then zextValue .i64 v else sextValue .i64 v
  let a ← extend (← gpr i.rA)
  let c ← extend (← gpr i.rB)
  let result ← binary .mul .i64 a c
  let result ← if i.op ≠ .mullw then do binary .lshr .i64 result (← c64 32) else pure result
  finish i.rD (← truncValue .i32 result)

def lowerDivide (i : PPCInst) : Builder Bool := do
  let a ← gpr i.rA
  let c ← gpr i.rB
  let isZero ← binary .icmpEq .i1 c (← c32 0)
  if i.op = .divw then
    let min ← binary .icmpEq .i1 a (← c32 0x80000000)
    let negOne ← binary .icmpEq .i1 c (← c32 0xFFFFFFFF)
    let invalid ← binary .or .i1 isZero (← binary .and .i1 min negOne)
    let safeDivisor ← selectValue .i32 invalid (← c32 1) c
    let result ← binary .sdiv .i32 a safeDivisor
    let negative ← binary .icmpSlt .i1 a (← c32 0)
    let result ← selectValue .i32 invalid
      (← selectValue .i32 negative (← c32 0xFFFFFFFF) (← c32 0)) result
    finish i.rD result
  else
    let safeDivisor ← selectValue .i32 isZero (← c32 1) c
    let result ← binary .udiv .i32 a safeDivisor
    finish i.rD (← selectValue .i32 isZero (← c32 0) result)

def lowerInteger (i : PPCInst) : Builder Bool :=
  match i.op with
  | .twi | .tw => lowerTrap i
  | .mulli => do
    let a ← sextValue .i64 (← gpr i.rA)
    let c ← c64 (i.simm.signExtend 64)
    setGpr i.rD (← truncValue .i32 (← binary .mul .i64 a c))
    return true
  | .subfic => do
    let a ← unary .not .i32 (← gpr i.rA)
    let c ← c32 (signed32 i.simm)
    writeCarryResult i.rD (← addWideWithCarry a c (← c32 1)) false
    return true
  | .addic | .addicDot => do
    writeCarryResult i.rD (← addWide (← gpr i.rA) (← c32 (signed32 i.simm))) (i.op = .addicDot)
    return true
  | .addi | .addis => do
    let a ← if i.rA ≠ 0 then gpr i.rA else c32 0
    let c ← c32 (if i.op = .addis then signed32 i.simm <<< 16 else signed32 i.simm)
    setGpr i.rD (← binary .add .i32 a c)
    return true
  | .ori | .oris | .xori | .xoris | .andi | .andis => lowerLogicalImmediate i
  | .cmpi | .cmpli | .cmp | .cmpl => lowerCompare i
  | .add | .addc | .adde | .addco | .addeo => lowerAdd i
  | .subf | .subfc | .subfe | .subfo | .subfco | .subfeo => lowerSubf i
  | .neg => do finish i.rD (← binary .sub .i32 (← c32 0) (← gpr i.rA))
  | .addme | .addze | .subfme | .subfze => lowerExtended i
  | .and | .andc | .or | .orc | .xor | .nand | .nor | .eqv => lowerLogical i
  | .extsb | .extsh => do
    let a ← truncValue (if i.op = .extsb then .i8 else .i16) (← gpr i.rS)
    finish i.rA (← sextValue .i32 a)
  | .cntlzw => do finish i.rA (← unary .clz .i32 (← gpr i.rS))
  | .rlwinm | .rlwnm | .rlwimi => lowerRotate i
  | .slw | .srw => lowerShift i
  | .sraw | .srawi => lowerShiftAlgebraic i
  | .mullw | .mulhw | .mulhwu => lowerMultiply i
  | .divw | .divwu => lowerDivide i
  | _ => return false

/-- One row of the load and store table. -/
structure MemoryForm where
  load : Bool := false
  width : Nat
  sign : Bool := false
  reverse : Bool := false
  indexed : Bool := false
  update : Bool := false

def memoryForm (op : PPCOpcode) : Option MemoryForm :=
  match op with
  | .lwz => some { load := true, width := 4 }
  | .lwzu => some { load := true, width := 4, update := true }
  | .lbz => some { load := true, width := 1 }
  | .lbzu => some { load := true, width := 1, update := true }
  | .lhz => some { load := true, width := 2 }
  | .lhzu => some { load := true, width := 2, update := true }
  | .lha => some { load := true, width := 2, sign := true }
  | .lhau => some { load := true, width := 2, sign := true, update := true }
  | .lwzx => some { load := true, width := 4, indexed := true }
  | .lwzux => some { load := true, width := 4, indexed := true, update := true }
  | .lbzx => some { load := true, width := 1, indexed := true }
  | .lbzux => some { load := true, width := 1, indexed := true, update := true }
  | .lhzx => some { load := true, width := 2, indexed := true }
  | .lhzux => some { load := true, width := 2, indexed := true, update := true }
  | .lhax => some { load := true, width := 2, sign := true, indexed := true }
  | .lhaux => some { load := true, width := 2, sign := true, indexed := true, update := true }
  | .lwbrx => some { load := true, width := 4, reverse := true, indexed := true }
  | .lhbrx => some { load := true, width := 2, reverse := true, indexed := true }
  | .stw => some { width := 4 }
  | .stwu => some { width := 4, update := true }
  | .stb => some { width := 1 }
  | .stbu => some { width := 1, update := true }
  | .sth => some { width := 2 }
  | .sthu => some { width := 2, update := true }
  | .stwx => some { width := 4, indexed := true }
  | .stwux => some { width := 4, indexed := true, update := true }
  | .stbx => some { width := 1, indexed := true }
  | .stbux => some { width := 1, indexed := true, update := true }
  | .sthx => some { width := 2, indexed := true }
  | .sthux => some { width := 2, indexed := true, update := true }
  | .stwbrx => some { width := 4, reverse := true, indexed := true }
  | .sthbrx => some { width := 2, reverse := true, indexed := true }
  | _ => none

def reverseIf (reverse : Bool) (value : DolIRValue) : Builder DolIRValue :=
  if reverse then unary .bswap .i32 value else pure value

def lowerMemoryForm (i : PPCInst) (form : MemoryForm) : Builder Bool := do
  let address ← effectiveAddress form.indexed form.update
  if form.load then do
    let value ← reverseIf form.reverse (← guestLoad address form.width form.sign)
    setGpr i.rD value
  else do
    let value ← reverseIf form.reverse (← gpr i.rS)
    guestStore address value form.width
  if form.update then setGpr i.rA address else pure ()
  return true

/-- Word `n` of a multiple load, into register `rD + n`. -/
def lowerLmwStep (i : PPCInst) (address : DolIRValue) (n : Nat) : Builder Unit := do
  let ea ← binary .add .i32 address (← c32 (BitVec.ofNat 32 (4*n)))
  setGpr (i.rD + BitVec.ofNat 5 n) (← guestLoad ea 4 false)

def lowerStmwStep (i : PPCInst) (address : DolIRValue) (n : Nat) : Builder Unit := do
  let ea ← binary .add .i32 address (← c32 (BitVec.ofNat 32 (4*n)))
  guestStore ea (← gpr (i.rS + BitVec.ofNat 5 n)) 4

/-- Registers `first` to 31, in order; `step` is given the distance from `first`. -/
def forRegistersFrom (first : BitVec 5) (step : Nat → Builder Unit) : Builder Unit :=
  (List.range (32 - first.toNat)).forM step

def lowerDcbzStep (address : DolIRValue) (n : Nat) : Builder Unit := do
  guestStore (← binary .add .i32 address (← c32 (BitVec.ofNat 32 (4*n)))) (← c32 0) 4

def lswxDescriptor (i : PPCInst) : BitVec 64 :=
  i.rD.zeroExtend 64 ||| (i.rA.zeroExtend 64 <<< 8) ||| (i.rB.zeroExtend 64 <<< 16)

def cacheOperation (op : PPCOpcode) : BitVec 64 :=
  if op = .dcbst then 0 else if op = .dcbf then 1 else if op = .dcbi then 2 else 3

def lowerMemory (i : PPCInst) : Builder Bool :=
  match memoryForm i.op with
  | some form => lowerMemoryForm i form
  | none =>
    match i.op with
    | .lmw => do
      forRegistersFrom i.rD (lowerLmwStep i (← effectiveAddress false false))
      return true
    | .stmw => do
      forRegistersFrom i.rS (lowerStmwStep i (← effectiveAddress false false))
      return true
    | .lwarx => do
      let address ← effectiveAddress true false
      setGpr i.rD (← guestLoad address 4 false)
      writeSlot .reserveAddr address
      writeSlot .reserveValid (← c1 true)
      return true
    | .stwcx => do
      let address ← effectiveAddress true false
      helper .storeConditional [address,← gpr i.rS] (i.rS.zeroExtend 64)
      return true
    | .dcbz => do
      let address ← binary .and .i32 (← effectiveAddress true false) (← c32 (~~~31#32))
      (List.range 8).forM (lowerDcbzStep address)
      return true
    | .lswx => do
      helper .lswx [] (lswxDescriptor i)
      return true
    | .dcbzL => do
      helper .dcbzL [← effectiveAddress true false]
      return true
    | .eciwx => do
      let address ← effectiveAddress true false
      setGpr i.rD (← dolirAppend (.helperCall .eciwx) .i32 [address])
      return true
    | .ecowx => do
      let address ← effectiveAddress true false
      helper .ecowx [address,← gpr i.rS]
      return true
    | .dcbst | .dcbf | .dcbi | .icbi => do
      helper .cacheControl [← effectiveAddress true false] (cacheOperation i.op)
      return true
    | .dcbt | .dcbtst => return true
    | _ => return false

/-- One row of the floating-point load and store table. -/
structure FloatMemoryForm where
  load : Bool := false
  single : Bool := false
  indexed : Bool := false
  update : Bool := false

def floatMemoryForm (op : PPCOpcode) : Option FloatMemoryForm :=
  match op with
  | .lfs => some { load := true, single := true }
  | .lfsu => some { load := true, single := true, update := true }
  | .lfd => some { load := true }
  | .lfdu => some { load := true, update := true }
  | .lfsx => some { load := true, single := true, indexed := true }
  | .lfsux => some { load := true, single := true, indexed := true, update := true }
  | .lfdx => some { load := true, indexed := true }
  | .lfdux => some { load := true, indexed := true, update := true }
  | .stfs => some { single := true }
  | .stfsu => some { single := true, update := true }
  | .stfd => some {}
  | .stfdu => some { update := true }
  | .stfsx => some { single := true, indexed := true }
  | .stfsux => some { single := true, indexed := true, update := true }
  | .stfdx => some { indexed := true }
  | .stfdux => some { indexed := true, update := true }
  | _ => none

def lowerFloatLoad (i : PPCInst) (form : FloatMemoryForm) (address : DolIRValue) :
    Builder Unit := do
  let bits ← guestLoadTyped address (if form.single then .i32 else .i64)
    (if form.single then 4 else 8) false
  let value ← unary .bitcast (if form.single then .f32 else .f64) bits
  let value ← if form.single then unary .fpext .f64 value else pure value
  setFpr i.rD value
  -- A single load fills both lanes, a double load only the first.
  if form.single then setPs1 i.rD value else pure ()

def lowerFloatStore (i : PPCInst) (form : FloatMemoryForm) (address : DolIRValue) :
    Builder Unit := do
  let value ← fpr i.rS
  let value ← if form.single then unary .fptrunc .f32 value else pure value
  let bits ← unary .bitcast (if form.single then .i32 else .i64) value
  guestStore address bits (if form.single then 4 else 8)

def lowerFloatMemory (i : PPCInst) : Builder Bool :=
  if i.op = .stfiwx then do
    let address ← effectiveAddress true false
    let bits ← unary .bitcast .i64 (← fpr i.rS)
    guestStore address (← truncValue .i32 bits) 4
    return true
  else
    match floatMemoryForm i.op with
    | none => return false
    | some form => do
      let address ← effectiveAddress form.indexed form.update
      if form.load then lowerFloatLoad i form address else lowerFloatStore i form address
      if form.update then setGpr i.rA address else pure ()
      return true

def psqForm (op : PPCOpcode) : Option (Bool × Bool × Bool) :=
  match op with
  | .psqL => some (true, false, false)
  | .psqLu => some (true, false, true)
  | .psqLx => some (true, true, false)
  | .psqLux => some (true, true, true)
  | .psqSt => some (false, false, false)
  | .psqStu => some (false, false, true)
  | .psqStx => some (false, true, false)
  | .psqStux => some (false, true, true)
  | _ => none

def lowerPsq (i : PPCInst) : Builder Bool :=
  match psqForm i.op with
  | none => return false
  | some (load, indexed, update) => do
    let address ← effectiveAddress indexed update
    let reg := if load then i.rD else i.rS
    let descriptor : BitVec 64 := reg.zeroExtend 64 |||
      ((BitVec.ofBool i.w).zeroExtend 64 <<< 8) ||| (i.i.zeroExtend 64 <<< 9) |||
      ((BitVec.ofBool indexed).zeroExtend 64 <<< 12)
    let success ← dolirAppend (.helperCall (if load then .psqLoad else .psqStore)) .i1 [address]
      descriptor
    if update then do
      setGpr i.rA (← selectValue .i32 success address (← gpr i.rA))
    else pure ()
    return true

def crFieldShift (f : BitVec 3) : Nat := 4*(7 - f.toNat)

/-- Field mask of `mtfsf`: bit `n` of `fm` selects nibble `n`. -/
def fpscrFieldMask (fm : BitVec 8) : BitVec 32 :=
  (List.range 8).foldl (fun mask n =>
    if fm.getLsbD n then mask ||| (0xF#32 <<< (4*n)) else mask) 0

def exactDescriptor (exact : Nat) (i : PPCInst) : BitVec 64 :=
  BitVec.ofNat 64 exact ||| (i.rD.zeroExtend 64 <<< 8) ||| (i.rA.zeroExtend 64 <<< 16) |||
    (i.rB.zeroExtend 64 <<< 24) ||| (i.rC.zeroExtend 64 <<< 32) ||| (i.crfD.zeroExtend 64 <<< 40)

def exactFloatOf (op : PPCOpcode) : Option DolIRExactFloat :=
  match op with
  | .fres => some .fres
  | .frsqrte => some .frsqrte
  | .fmadd => some .fmadd
  | .fmsub => some .fmsub
  | .fnmadd => some .fnmadd
  | .fnmsub => some .fnmsub
  | .fmadds => some .fmadds
  | .fmsubs => some .fmsubs
  | .fnmadds => some .fnmadds
  | .fnmsubs => some .fnmsubs
  | .fctiw => some .fctiw
  | .fctiwz => some .fctiwz
  | .fcmpu => some .fcmpu
  | .fcmpo => some .fcmpo
  | .fadds => some .fadds
  | .fsubs => some .fsubs
  | .fmuls => some .fmuls
  | .fdivs => some .fdivs
  | .fadd => some .fadd
  | .fsub => some .fsub
  | .fmul => some .fmul
  | .fdiv => some .fdiv
  | .frsp => some .frsp
  | _ => none

def exactPairedOf (op : PPCOpcode) : Option DolIRExactPaired :=
  match op with
  | .psAdd => some .psAdd
  | .psSub => some .psSub
  | .psMul => some .psMul
  | .psDiv => some .psDiv
  | .psMadd => some .psMadd
  | .psMsub => some .psMsub
  | .psNmadd => some .psNmadd
  | .psNmsub => some .psNmsub
  | .psMadds0 => some .psMadds0
  | .psMadds1 => some .psMadds1
  | .psSum0 => some .psSum0
  | .psSum1 => some .psSum1
  | .psMuls0 => some .psMuls0
  | .psMuls1 => some .psMuls1
  | .psRes => some .psRes
  | .psRsqrte => some .psRsqrte
  | .psCmpu0 => some .psCmpu0
  | .psCmpo0 => some .psCmpo0
  | .psCmpu1 => some .psCmpu1
  | .psCmpo1 => some .psCmpo1
  | _ => none

def recordCr1 (i : PPCInst) : Builder Unit := if i.rc then setCr1FromFpscr else pure ()

def lowerExact (i : PPCInst) (h : DolIRHelper) (exact : Nat) : Builder Bool := do
  helper h [] (exactDescriptor exact i)
  recordCr1 i
  return true

def lowerMove (i : PPCInst) (value : DolIRValue) : Builder Bool := do
  setFpr i.rD value
  recordCr1 i
  return true

def lowerFloat (i : PPCInst) : Builder Bool :=
  match i.op with
  | .mtfsb0 | .mtfsb1 => do
    helper .fpscrBit []
      (i.rD.zeroExtend 64 ||| ((BitVec.ofBool (i.op = .mtfsb1)).zeroExtend 64 <<< 8))
    recordCr1 i
    return true
  | .mffs => do
    let bits ← binary .or .i64 (← c64 0xFFF8000000000000)
      (← zextValue .i64 (← readSlot .fpscr))
    setFpr i.rD (← unary .bitcast .f64 bits)
    recordCr1 i
    return true
  | .mcrfs => do
    let sourceShift := crFieldShift i.crfS
    let fpscr ← readSlot .fpscr
    let field ← binary .and .i32
      (← binary .lshr .i32 fpscr (← c32 (BitVec.ofNat 32 sourceShift))) (← c32 0xF)
    writeSlot .fpscr (← binary .and .i32 fpscr
      (← c32 (~~~((0xF#32 <<< sourceShift) &&& 0x83F80700#32))))
    fpscrUpdated
    writeCrField i.crfD field
    return true
  | .mtfsfi => do
    let shift := crFieldShift i.crfD
    let value ← c32 (i.imm.zeroExtend 32 <<< shift)
    writeSlot .fpscr (← insertMasked (← readSlot .fpscr) value (0xF#32 <<< shift))
    fpscrUpdated
    recordCr1 i
    return true
  | .mtfsf => do
    let source ← truncValue .i32 (← unary .bitcast .i64 (← fpr i.rB))
    writeSlot .fpscr (← insertMasked (← readSlot .fpscr) source (fpscrFieldMask i.fm))
    fpscrUpdated
    recordCr1 i
    return true
  | .fmr => do lowerMove i (← fpr i.rB)
  | .fneg => do lowerMove i (← unary .fneg .f64 (← fpr i.rB))
  | .fabs => do lowerMove i (← unary .fabs .f64 (← fpr i.rB))
  | .fnabs => do lowerMove i (← unary .fneg .f64 (← unary .fabs .f64 (← fpr i.rB)))
  | .fsel => do
    let condition ← binary .fcmpOge .i1 (← fpr i.rA) (← unary .bitcast .f64 (← c64 0))
    lowerMove i (← selectValue .f64 condition (← fpr i.rC) (← fpr i.rB))
  | op =>
    match exactFloatOf op with
    | some exact => lowerExact i .exactFloat exact.ctorIdx
    | none => return false

def lowerPairMove (i : PPCInst) (pair : DolIRValue) : Builder Bool := do
  setPair i.rD pair
  recordCr1 i
  return true

def selectLane (pa pb pc zeroF : DolIRValue) (lane : Nat) : Builder DolIRValue := do
  let condition ← binary .fcmpOge .i1 (← vectorLane pa lane) zeroF
  selectValue .f64 condition (← vectorLane pc lane) (← vectorLane pb lane)

def lowerPaired (i : PPCInst) : Builder Bool :=
  match i.op with
  | .psNeg => do lowerPairMove i (← unary .fneg .v2f64 (← pairValue i.rB))
  | .psAbs => do lowerPairMove i (← unary .fabs .v2f64 (← pairValue i.rB))
  | .psNabs => do
    lowerPairMove i (← unary .fneg .v2f64 (← unary .fabs .v2f64 (← pairValue i.rB)))
  | .psMr => do lowerPairMove i (← pairValue i.rB)
  | .psMerge00 | .psMerge01 | .psMerge10 | .psMerge11 => do
    let left := if i.op = .psMerge10 ∨ i.op = .psMerge11 then 1 else 0
    let right := if i.op = .psMerge01 ∨ i.op = .psMerge11 then 1 else 0
    lowerPairMove i
      (← binary (.vectorShuffle left (right + 2)) .v2f64 (← pairValue i.rA) (← pairValue i.rB))
  | .psSel => do
    let pa ← pairValue i.rA
    let pb ← pairValue i.rB
    let pc ← pairValue i.rC
    let zeroF ← unary .bitcast .f64 (← c64 0)
    let lo ← selectLane pa pb pc zeroF 0
    let hi ← selectLane pa pb pc zeroF 1
    lowerPairMove i (← binary .vectorBuild .v2f64 lo hi)
  | op =>
    match exactPairedOf op with
    | some exact => lowerExact i .exactPaired exact.ctorIdx
    | none => return false

def sprSlot (spr : BitVec 10) : Option DolIRStateSlot :=
  match spr.toNat with
  | 8 => some .lr
  | 9 => some .ctr
  | 18 => some .dsisr
  | 19 => some .dar
  | 26 => some .srr0
  | 27 => some .srr1
  | 282 => some .ear
  | 920 => some .hid2
  | _ => if 912 ≤ spr.toNat ∧ spr.toNat ≤ 919 then some (.gqr ((spr - 912).truncate 3)) else none

def lowerMtcrfStep (i : PPCInst) (field : Nat) : Builder Unit :=
  if i.crm.getLsbD (7 - field) then do
    let value ← binary .lshr .i32 (← gpr i.rS) (← c32 (BitVec.ofNat 32 (28 - 4*field)))
    writeCrField (BitVec.ofNat 3 field) value
  else pure ()

def readCrBit (bit : BitVec 5) : Builder DolIRValue := do
  let shifted ← binary .lshr .i32 (← readCrField (bit.extractLsb' 2 3))
    (← c32 (BitVec.ofNat 32 (3 - bit.toNat % 4)))
  binary .and .i32 shifted (← c32 1)

def lowerCrLogical (i : PPCInst) : Builder Bool := do
  let av ← readCrBit i.rA
  let bv ← readCrBit i.rB
  let bv ← if i.op = .crandc ∨ i.op = .crorc then do binary .xor .i32 bv (← c32 1) else pure bv
  let op : DolIROp := if i.op = .crand ∨ i.op = .crandc ∨ i.op = .crnand then .and
    else if i.op = .cror ∨ i.op = .crorc ∨ i.op = .crnor then .or else .xor
  let bit ← binary op .i32 av bv
  let bit ← if i.op = .creqv ∨ i.op = .crnand ∨ i.op = .crnor then do
      binary .xor .i32 bit (← c32 1)
    else pure bit
  let field := i.rD.extractLsb' 2 3
  let shift := 3 - i.rD.toNat % 4
  let bit ← binary .shl .i32 bit (← c32 (BitVec.ofNat 32 shift))
  writeCrField field (← insertMasked (← readCrField field) bit (1#32 <<< shift))
  return true

def xerFieldBit (slot : DolIRStateSlot) (shift : BitVec 32) : Builder DolIRValue := do
  let bit ← zextValue .i32 (← readSlot slot)
  binary .shl .i32 bit (← c32 shift)

def lowerMcrxr (i : PPCInst) : Builder Bool := do
  let field ← xerFieldBit .xerSo 3
  let field ← binary .or .i32 field (← xerFieldBit .xerOv 2)
  let field ← binary .or .i32 field (← xerFieldBit .xerCa 1)
  writeCrField i.crfD field
  writeSlot .xerCa (← c1 false)
  writeSlot .xerOv (← c1 false)
  writeSlot .xerSo (← c1 false)
  return true

def readSprHelper (spr : BitVec 10) : Builder DolIRValue :=
  dolirAppend (.helperCall .sprRead) .i32 [] (spr.zeroExtend 64)

def readTimebase : Builder DolIRValue := dolirAppend (.helperCall .timebaseRead) .i64 []

def lowerMfspr (i : PPCInst) : Builder Bool := do
  if i.spr ≠ 1 ∧ i.spr ≠ 8 ∧ i.spr ≠ 9 ∧ i.spr ≠ 268 ∧ i.spr ≠ 269 then requireSupervisor
  else pure ()
  if i.spr = 1 then do
    setGpr i.rD (← packXer)
    return true
  else
    match sprSlot i.spr with
    | some slot => do
      setGpr i.rD (← readSlot slot)
      return true
    | none => do
      setGpr i.rD (← readSprHelper i.spr)
      return true

def lowerMttb (i : PPCInst) : Builder Bool := do
  let old ← readTimebase
  let value ← zextValue .i64 (← gpr i.rS)
  let old ← binary .and .i64 old
    (← c64 (if i.spr = 284 then 0xFFFFFFFF00000000 else 0xFFFFFFFF))
  let value ← if i.spr = 284 then pure value else do binary .shl .i64 value (← c64 32)
  helper .timebaseWrite [← binary .or .i64 old value]
  return true

def lowerMtspr (i : PPCInst) : Builder Bool := do
  if i.spr ≠ 1 ∧ i.spr ≠ 8 ∧ i.spr ≠ 9 then requireSupervisor else pure ()
  if i.spr = 1 then do
    unpackXer (← gpr i.rS)
    return true
  else if i.spr = 284 ∨ i.spr = 285 then lowerMttb i
  else
    match sprSlot i.spr with
    | some slot => do
      writeSlot slot (← gpr i.rS)
      return true
    | none => do
      helper .sprWrite [← gpr i.rS] (i.spr.zeroExtend 64)
      return true

def segmentIndex (i : PPCInst) : Builder DolIRValue := do
  let shifted ← binary .lshr .i32 (← gpr i.rB) (← c32 28)
  binary .and .i32 shifted (← c32 15)

def lowerMfsrinStep (index value : DolIRValue) (sr : Nat) : Builder DolIRValue := do
  let hit ← binary .icmpEq .i1 index (← c32 (BitVec.ofNat 32 sr))
  selectValue .i32 hit (← readSlot (.sr (BitVec.ofNat 4 sr))) value

def lowerMtsrinStep (index value : DolIRValue) (sr : Nat) : Builder Unit := do
  let hit ← binary .icmpEq .i1 index (← c32 (BitVec.ofNat 32 sr))
  let old ← readSlot (.sr (BitVec.ofNat 4 sr))
  writeSlot (.sr (BitVec.ofNat 4 sr)) (← selectValue .i32 hit value old)

def lowerMftb (i : PPCInst) : Builder Bool := do
  if i.spr ≠ 268 ∧ i.spr ≠ 269 then do
    setGpr i.rD (← readSprHelper i.spr)
    return true
  else do
    let timebase ← readTimebase
    let timebase ← if i.spr = 269 then do binary .lshr .i64 timebase (← c64 32)
      else pure timebase
    setGpr i.rD (← truncValue .i32 timebase)
    return true

def lowerState (i : PPCInst) : Builder Bool :=
  match i.op with
  | .mfcr => do
    setGpr i.rD (← packCr)
    return true
  | .mtcrf => do
    (List.range 8).forM (lowerMtcrfStep i)
    return true
  | .mcrf => do
    writeCrField i.crfD (← readCrField i.crfS)
    return true
  | .mcrxr => lowerMcrxr i
  | .crand | .crandc | .creqv | .crnand | .crnor | .cror | .crorc | .crxor => lowerCrLogical i
  | .mfspr => lowerMfspr i
  | .mtspr => lowerMtspr i
  | .mfmsr => do
    requireSupervisor
    setGpr i.rD (← readSlot .msr)
    return true
  | .mtmsr => do
    requireSupervisor
    writeSlot .msr (← gpr i.rS)
    return true
  | .mfsr => do
    requireSupervisor
    setGpr i.rD (← readSlot (.sr i.sr))
    return true
  | .mtsr => do
    requireSupervisor
    writeSlot (.sr i.sr) (← gpr i.rS)
    return true
  | .mfsrin => do
    requireSupervisor
    let index ← segmentIndex i
    let value ← readSlot (.sr 0)
    setGpr i.rD (← (List.range' 1 15).foldlM (lowerMfsrinStep index) value)
    return true
  | .mtsrin => do
    requireSupervisor
    let index ← segmentIndex i
    let value ← gpr i.rS
    (List.range 16).forM (lowerMtsrinStep index value)
    return true
  | .mftb => lowerMftb i
  | .tlbie => do
    helper .tlbie [← gpr i.rB]
    return true
  | .sync | .eieio | .isync | .tlbsync => do
    helper .memoryFence []
    return true
  | _ => return false

/-- The first lowering function that knows the opcode. -/
def lowerInstruction (i : PPCInst) : Builder Bool := do
  if ← lowerInteger i then return true
  if ← lowerMemory i then return true
  if ← lowerFloatMemory i then return true
  if ← lowerPsq i then return true
  if ← lowerFloat i then return true
  if ← lowerPaired i then return true
  lowerState i

/-- Block indices of the addresses of a chunk. -/
structure ChunkRange where
  guestStart : BitVec 32
  guestEnd : BitVec 32
  blockCount : Nat

def blockForAddress (chunk : ChunkRange) (address : BitVec 32) : Option Nat :=
  if address < chunk.guestStart ∨ chunk.guestEnd ≤ address ∨
      (address - chunk.guestStart) &&& 3#32 ≠ 0 then none
  else
    let index := (address - chunk.guestStart).toNat / 4
    if index < chunk.blockCount then some index else none

def writeLink (i : PPCInst) : Builder Unit :=
  if i.lk then do writeSlot .lr (← c32 (i.address + 4)) else pure ()

def lowerControl (chunk : ChunkRange) (i : PPCInst) : Builder (Option DolIRTerminator) :=
  match i.op with
  | .b => do
    writeLink i
    return some
      { kind := .branch, linked := i.lk, guestPc := i.address,
        targetAddress0 := i.branchTarget, target0 := blockForAddress chunk i.branchTarget }
  | .bc => do
    writeLink i
    let condition ← branchCondition
    return some
      { kind := .condBranch, condition, linked := i.lk, guestPc := i.address,
        targetAddress0 := i.branchTarget, target0 := blockForAddress chunk i.branchTarget,
        targetAddress1 := i.address + 4, target1 := blockForAddress chunk (i.address + 4) }
  | .bclr | .bcctr => do
    let condition ← branchCondition
    let targetValue ← binary .and .i32 (← readSlot (if i.op = .bclr then .lr else .ctr))
      (← c32 (~~~3#32))
    writeLink i
    return some
      { kind := .indirect, condition, targetValue, linked := i.lk, guestPc := i.address,
        targetAddress1 := i.address + 4, target1 := blockForAddress chunk (i.address + 4) }
  | .sc => return some { kind := .systemCall, guestPc := i.address }
  | .rfi => return some { kind := .rfi, guestPc := i.address }
  | _ => return none

def normalFallthrough (i : PPCInst) (index count : Nat) : DolIRTerminator where
  kind := .fallthrough
  target0 := if index + 1 < count then some (index + 1) else none
  targetAddress0 := i.address + 4
  guestPc := i.address

def fallbackTerminator (i : PPCInst) : DolIRTerminator where
  kind := .fallback
  guestPc := i.address
  raw := i.raw

/-- The body and terminator of the block of one instruction. -/
def lowerBlock (chunk : ChunkRange) (index : Nat) (i : PPCInst) : Builder DolIRTerminator := do
  if i.embeddedData then return fallbackTerminator i
  if ppcOpUsesFpu i.op then do
    let _ ← dolirAppend (.helperCall .fpAvailable) .i1 [] (i.address.zeroExtend 64)
  else pure ()
  match ← lowerControl chunk i with
  | some terminator => return terminator
  | none =>
    if ← lowerInstruction i then return normalFallthrough i index chunk.blockCount
    else return fallbackTerminator i

end Builder

def dolirInstructionCycleCost (i : PPCInst) : Nat :=
  if i.embeddedData then 0
  else
    match i.op with
    | .unknown => 0
    | .dcbst | .dcbf | .dcbi => 5
    | .icbi => 4
    | .mulli => 3
    | .sc | .rfi | .tw => 2
    | .lmw | .stmw => 11
    | .mullw | .mullwo | .mulhw | .mulhwu => 5
    | .divw | .divwo | .divwu | .divwuo => 40
    | .dcbz => 5
    | .dcbtst | .dcbt => 2
    | .mfsr | .mfsrin => 3
    | .mtspr => 2
    | .sync => 3
    | .mtfsb0 | .mtfsb1 | .mtfsf | .mtfsfi => 3
    | .fdivs => 17
    | .fdiv => 31
    | .psDiv => 17
    | .psRsqrte => 2
    | _ => 1

/-- One block for each instruction; values are numbered through the whole chunk. -/
def buildBlocks (chunk : Builder.ChunkRange) (index : Nat) (next : DolIRValue) :
    List PPCInst → List DolIRBlock × DolIRValue
  | [] => ([], next)
  | i :: insts =>
    let built := Builder.lowerBlock chunk index i i next
    let block : DolIRBlock :=
      { guestAddress := i.address, raw := i.raw, cycleCost := dolirInstructionCycleCost i,
        instructions := built.2.2, terminator := built.1 }
    let rest := buildBlocks chunk (index + 1) (next + built.2.1) insts
    (block :: rest.1, rest.2)

/-- The addresses that a list of instructions takes up. -/
def chunkRange (insts : List PPCInst) (guestStart : BitVec 32) : Builder.ChunkRange where
  guestStart
  guestEnd := guestStart + BitVec.ofNat 32 (4*insts.length)
  blockCount := insts.length

/-- The function of a chunk, before its addresses are analysed. -/
def buildFunction (insts : List PPCInst) (guestStart : BitVec 32) : DolIRFunction :=
  let chunk := chunkRange insts guestStart
  let built := buildBlocks chunk 0 1 insts
  { guestStart, guestEnd := chunk.guestEnd, blocks := built.1, valueCount := built.2 }

end DolRecomp
