import DolRecomp.DolIR

/-!
# Lowering decoded instructions to the intermediate representation

A builder appends instructions to the block at hand and numbers their values;
the lowering functions follow the source, one for each instruction group.
-/

namespace DolRecomp

/-- Append to the block of an instruction, from the next free value number; the
middle component counts the numbers used up. -/
def Builder (α : Type) : Type := PPCInst → DolIRValue → α × Nat × List DolIRInstruction

namespace Builder

variable {α β : Type}

def bind (b : Builder α) (f : α → Builder β) : Builder β := fun i n =>
  let x := b i n
  let y := f x.1 i (n + x.2.1)
  (y.1, x.2.1 + y.2.1, x.2.2 ++ y.2.2)

instance : Monad Builder where
  pure a := fun _ _ => (a, 0, [])
  bind := bind

def inst : Builder PPCInst := fun i _ => (i, 0, [])

def dolirAppend (op : DolIROp) (type : DolIRType) (operands : List DolIRValue)
    (immediate : BitVec 64 := 0) : Builder DolIRValue := fun i n =>
  let result := if type = .void then dolirNoValue else n
  (result, if type = .void then 0 else 1,
    [dolirPopulateEffects { op, type, result, operands, immediate, guestPc := i.address }])

def c32 (value : BitVec 32) : Builder DolIRValue :=
  dolirAppend .constant .i32 [] (value.zeroExtend 64)

def c64 (value : BitVec 64) : Builder DolIRValue := dolirAppend .constant .i64 [] value

def c1 (value : Bool) : Builder DolIRValue :=
  dolirAppend .constant .i1 [] ((BitVec.ofBool value).zeroExtend 64)

def readSlot (slot : DolIRStateSlot) : Builder DolIRValue :=
  dolirAppend (.stateRead slot) (dolirStateType slot) []

def writeSlot (slot : DolIRStateSlot) (value : DolIRValue) : Builder Unit :=
  bind (dolirAppend (.stateWrite slot) .void [value]) fun _ => pure ()

def gpr (reg : BitVec 5) : Builder DolIRValue := readSlot (.gpr reg)

def setGpr (reg : BitVec 5) (value : DolIRValue) : Builder Unit := writeSlot (.gpr reg) value

def fpr (reg : BitVec 5) : Builder DolIRValue := readSlot (.fpr reg)

def ps1 (reg : BitVec 5) : Builder DolIRValue := readSlot (.ps1 reg)

def setFpr (reg : BitVec 5) (value : DolIRValue) : Builder Unit := writeSlot (.fpr reg) value

def setPs1 (reg : BitVec 5) (value : DolIRValue) : Builder Unit := writeSlot (.ps1 reg) value

def binary (op : DolIROp) (type : DolIRType) (a c : DolIRValue) : Builder DolIRValue :=
  dolirAppend op type [a,c]

def unary (op : DolIROp) (type : DolIRType) (a : DolIRValue) : Builder DolIRValue :=
  dolirAppend op type [a]

def selectValue (type : DolIRType) (condition yes no : DolIRValue) : Builder DolIRValue :=
  dolirAppend .select type [condition,yes,no]

def truncValue (type : DolIRType) (value : DolIRValue) : Builder DolIRValue :=
  unary .trunc type value

def zextValue (type : DolIRType) (value : DolIRValue) : Builder DolIRValue :=
  unary .zext type value

def sextValue (type : DolIRType) (value : DolIRValue) : Builder DolIRValue :=
  unary .sext type value

def helper (h : DolIRHelper) (operands : List DolIRValue) (immediate : BitVec 64 := 0) :
    Builder Unit :=
  bind (dolirAppend (.helperCall h) .void operands immediate) fun _ => pure ()

def insertMasked (original value : DolIRValue) (mask : BitVec 32) : Builder DolIRValue := do
  let kept ← binary .and .i32 original (← c32 (~~~mask))
  let incoming ← binary .and .i32 value (← c32 mask)
  binary .or .i32 kept incoming

/-- Bits `mb` to `me` in big-endian numbering, wrapping around; `fuel` bounds the
loop, which meets `me` after at most 32 steps. -/
def ppcMask32Loop (me : BitVec 5) : Nat → BitVec 5 → BitVec 32 → BitVec 32
  | 0, _, mask => mask
  | fuel+1, bit, mask =>
    let mask := mask ||| (0x80000000#32 >>> bit.toNat)
    if bit = me then mask else ppcMask32Loop me fuel (bit + 1) mask

def ppcMask32 (mb me : BitVec 5) : BitVec 32 := ppcMask32Loop me 32 mb 0

def readCrField (field : BitVec 3) : Builder DolIRValue := readSlot (.crField field)

def writeCrField (field : BitVec 3) (value : DolIRValue) : Builder Unit := do
  writeSlot (.crField field) (← binary .and .i32 value (← c32 0xF))

def packCr : Builder DolIRValue := do
  let packed ← c32 0
  [0,1,2,3,4,5,6,7].foldlM (fun packed (field : Nat) => do
    let value ← binary .shl .i32 (← readCrField (BitVec.ofNat 3 field))
      (← c32 (BitVec.ofNat 32 (28 - 4*field)))
    binary .or .i32 packed value) packed

/-- Or a one-bit slot into the packed word. -/
def packXerBit (packed : DolIRValue) (slot : DolIRStateSlot) (shift : BitVec 32) :
    Builder DolIRValue := do
  let bit ← zextValue .i32 (← readSlot slot)
  let bit ← binary .shl .i32 bit (← c32 shift)
  binary .or .i32 packed bit

def packXer : Builder DolIRValue := do
  let packed ← binary .and .i32 (← readSlot .xer) (← c32 (~~~0xE0000000#32))
  let packed ← packXerBit packed .xerCa 29
  let packed ← packXerBit packed .xerOv 30
  packXerBit packed .xerSo 31

/-- Copy one bit of the packed word to its slot. -/
def unpackXerBit (packed : DolIRValue) (slot : DolIRStateSlot) (shift : BitVec 32) :
    Builder Unit := do
  writeSlot slot (← truncValue .i1 (← binary .lshr .i32 packed (← c32 shift)))

def unpackXer (packed : DolIRValue) : Builder Unit := do
  writeSlot .xer (← binary .and .i32 packed (← c32 (~~~0xE0000000#32)))
  unpackXerBit packed .xerCa 29
  unpackXerBit packed .xerOv 30
  unpackXerBit packed .xerSo 31

def setCrField (field : BitVec 3) (lhs rhs : DolIRValue) (isSigned : Bool) : Builder Unit := do
  let ltOp := if isSigned then DolIROp.icmpSlt else DolIROp.icmpUlt
  let lt ← binary ltOp .i1 lhs rhs
  let gt ← binary ltOp .i1 rhs lhs
  let eq ← binary .icmpEq .i1 lhs rhs
  let bits ← selectValue .i32 lt (← c32 8) (← c32 0)
  let bits ← binary .or .i32 bits (← selectValue .i32 gt (← c32 4) (← c32 0))
  let bits ← binary .or .i32 bits (← selectValue .i32 eq (← c32 2) (← c32 0))
  let bits ← binary .or .i32 bits (← zextValue .i32 (← readSlot .xerSo))
  writeCrField field bits

def setCr0 (value : DolIRValue) : Builder Unit := do
  setCrField 0 value (← c32 0) true

def setCr1FromFpscr : Builder Unit := do
  let bits ← binary .and .i32 (← binary .lshr .i32 (← readSlot .fpscr) (← c32 28)) (← c32 0xF)
  writeCrField 1 bits

def fpscrUpdated : Builder Unit := helper .fpscrUpdated []

def requireSupervisor : Builder Unit := do
  let user ← binary .icmpNe .i1
    (← binary .and .i32 (← readSlot .msr) (← c32 0x4000)) (← c32 0)
  helper .programException [user] (dolirProgramPriv.zeroExtend 64)

def recordIfNeeded (value : DolIRValue) : Builder Unit := do
  if (← inst).rc then setCr0 value else pure ()

def setXerCa (carry : DolIRValue) : Builder Unit := writeSlot .xerCa carry

def xerCa : Builder DolIRValue := do zextValue .i32 (← readSlot .xerCa)

def addWide (a c : DolIRValue) : Builder DolIRValue := do
  binary .add .i64 (← zextValue .i64 a) (← zextValue .i64 c)

def addWideWithCarry (a c carry : DolIRValue) : Builder DolIRValue := do
  binary .add .i64 (← addWide a c) (← zextValue .i64 carry)

def carryOut (wide : DolIRValue) : Builder DolIRValue := do
  truncValue .i1 (← binary .lshr .i64 wide (← c64 32))

def writeCarryResult (reg : BitVec 5) (wide : DolIRValue) (record : Bool) : Builder Unit := do
  let result ← truncValue .i32 wide
  let carry ← carryOut wide
  setGpr reg result
  setXerCa carry
  if record then setCr0 result else pure ()

def branchCondition : Builder DolIRValue := do
  let i ← inst
  let ctrOk ← c1 true
  let crOk ← c1 true
  let ctrOk ←
    if i.bo &&& 0x04#5 = 0 then do
      let ctr ← binary .sub .i32 (← readSlot .ctr) (← c32 1)
      writeSlot .ctr ctr
      let nz ← binary .icmpNe .i1 ctr (← c32 0)
      if i.bo.getLsbD 1 then unary .not .i1 nz else pure nz
    else pure ctrOk
  let crOk ←
    if i.bo &&& 0x10#5 = 0 then do
      let field ← readCrField (i.bi.extractLsb' 2 3)
      let bit ← binary .and .i32 field (← c32 (8#32 >>> (i.bi.toNat % 4)))
      let set ← binary .icmpNe .i1 bit (← c32 0)
      if i.bo.getLsbD 3 then pure set else unary .not .i1 set
    else pure crOk
  binary .and .i1 ctrOk crOk

def effectiveAddress (indexed update : Bool) : Builder DolIRValue := do
  let i ← inst
  let base ← if i.rA = 0 ∧ !update then c32 0 else gpr i.rA
  let offset ← if indexed then gpr i.rB else c32 (i.simm.signExtend 32)
  binary .add .i32 base offset

def guestLoadTyped (address : DolIRValue) (type : DolIRType) (width : Nat) (sign : Bool) :
    Builder DolIRValue :=
  dolirAppend (.guestLoad width sign) type [address]

def guestLoad (address : DolIRValue) (width : Nat) (sign : Bool) : Builder DolIRValue :=
  guestLoadTyped address .i32 width sign

def guestStore (address value : DolIRValue) (width : Nat) : Builder Unit :=
  bind (dolirAppend (.guestStore width) .void [address,value]) fun _ => pure ()

def pairValue (reg : BitVec 5) : Builder DolIRValue := do
  binary .vectorBuild .v2f64 (← fpr reg) (← ps1 reg)

def vectorLane (pair : DolIRValue) (lane : Nat) : Builder DolIRValue :=
  unary (.vectorExtract lane) .f64 pair

def setPair (reg : BitVec 5) (pair : DolIRValue) : Builder Unit := do
  let a ← vectorLane pair 0
  let c ← vectorLane pair 1
  setFpr reg a
  setPs1 reg c

end Builder

end DolRecomp
