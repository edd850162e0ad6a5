import DolRecomp.Cpu
import DolRecomp.Lowering

/-!
# Address ranges of guest accesses

A single pass over the blocks of a function keeps an interval for every value
and every state slot, and marks the accesses whose address it can bound with
the domain they fall in.
-/

namespace DolRecomp

structure AbstractValue where
  lower : BitVec 64
  upper : BitVec 64
  bounded : Bool
  deriving DecidableEq, Repr

namespace AddressAnalysis

def typeWidth : DolIRType → ℕ
  | .i1 => 1
  | .i8 => 8
  | .i16 => 16
  | .i32 => 32
  | .i64 => 64
  | _ => 0

def maximum (width : ℕ) : BitVec 64 := if width = 64 then -1 else (1 <<< width) - 1

def truncateBits (value : BitVec 64) (width : ℕ) : BitVec 64 :=
  if width = 64 then value else value &&& ((1 <<< width) - 1)

def unknownValue : AbstractValue := ⟨0,0,false⟩

def rangeValue (lower upper : BitVec 64) (width : ℕ) : AbstractValue :=
  if upper < lower ∨ maximum width < upper then unknownValue else ⟨lower,upper,true⟩

def knownValue (bits : BitVec 64) (width : ℕ) : AbstractValue :=
  let value := truncateBits bits width
  rangeValue value value width

def exactValue (value : AbstractValue) : Bool := value.bounded && value.lower == value.upper

def clzCount (value : BitVec 64) (width : ℕ) : ℕ :=
  ((List.range width).takeWhile fun count => !value.getLsbD (width - count - 1)).length

def unaryValue (instruction : DolIRInstruction) (operand : AbstractValue) : AbstractValue :=
  let width := typeWidth instruction.type
  if width = 0 then unknownValue
  else
    match instruction.op with
    | .not => if exactValue operand then knownValue (~~~operand.lower) width else unknownValue
    | .trunc | .zext =>
      if operand.bounded then rangeValue operand.lower operand.upper width else unknownValue
    | .clz =>
      if exactValue operand then knownValue (BitVec.ofNat 64 (clzCount operand.lower width)) width
      else unknownValue
    | _ => unknownValue

/-- The cases of `binary_value` that keep an interval. -/
def binaryRange (op : DolIROp) (width : ℕ) (left right : AbstractValue) : Option AbstractValue :=
  if left.bounded ∧ right.bounded then
    match op with
    | .add =>
      if left.upper ≤ maximum width - right.upper then
        some (rangeValue (left.lower + right.lower) (left.upper + right.upper) width)
      else none
    | .sub =>
      if right.upper ≤ left.lower then
        some (rangeValue (left.lower - right.upper) (left.upper - right.lower) width)
      else none
    | .lshr =>
      if exactValue right ∧ right.lower.toNat < width then
        some (rangeValue (left.lower >>> right.lower.toNat) (left.upper >>> right.lower.toNat) width)
      else none
    | .shl =>
      if exactValue right ∧ right.lower.toNat < width ∧
          left.upper ≤ maximum width >>> right.lower.toNat then
        some (rangeValue (left.lower <<< right.lower.toNat) (left.upper <<< right.lower.toNat) width)
      else none
    | _ => none
  else none

def binaryExact (op : DolIROp) (width : ℕ) (a c : BitVec 64) : AbstractValue :=
  match op with
  | .add => knownValue (a + c) width
  | .sub => knownValue (a - c) width
  | .mul => knownValue (a * c) width
  | .udiv => if c = 0 then unknownValue else knownValue (a / c) width
  | .and => knownValue (a &&& c) width
  | .or => knownValue (a ||| c) width
  | .xor => knownValue (a ^^^ c) width
  | .shl => if c.toNat < width then knownValue (a <<< c.toNat) width else unknownValue
  | .lshr => if c.toNat < width then knownValue (a >>> c.toNat) width else unknownValue
  | .rotl =>
    let shift := (c.truncate 32 &&& BitVec.ofNat 32 (width - 1)).toNat
    if shift = 0 then knownValue a width
    else knownValue ((a <<< shift) ||| (a >>> (width - shift))) width
  | .icmpEq => knownValue ((BitVec.ofBool (a == c)).zeroExtend 64) 1
  | .icmpNe => knownValue ((BitVec.ofBool (a != c)).zeroExtend 64) 1
  | .icmpUlt => knownValue ((BitVec.ofBool (a < c)).zeroExtend 64) 1
  | .icmpUle => knownValue ((BitVec.ofBool (a ≤ c)).zeroExtend 64) 1
  | _ => unknownValue

def binaryValue (instruction : DolIRInstruction) (left right : AbstractValue) : AbstractValue :=
  let width := typeWidth instruction.type
  if width = 0 then unknownValue
  else if instruction.op = .and ∧ ¬(exactValue left ∧ exactValue right) ∧ exactValue left then
    rangeValue 0 (left.lower &&& maximum width) width
  else if instruction.op = .and ∧ ¬(exactValue left ∧ exactValue right) ∧ exactValue right then
    rangeValue 0 (right.lower &&& maximum width) width
  else
    match binaryRange instruction.op width left right with
    | some value => value
    | none =>
      if exactValue left ∧ exactValue right then
        binaryExact instruction.op width left.lower right.lower
      else unknownValue

def classifyAddress (address : BitVec 32) : DolIRAddressDomain :=
  let normalized := address &&& ~~~0x40000000#32
  if 0xCC008000#32 ≤ address ∧ address < 0xCC009000#32 then .fifo
  else if 0xCC000000#32 ≤ address ∧ address < 0xCE000000#32 then .mmio
  else if gcRamBase ≤ normalized ∧ normalized < gcRamBase + gcMainRamSize then .mem1
  else if wiiMem2Base ≤ normalized ∧ normalized < wiiMem2Base + wiiMem2Size then .mem2
  else if address < gcRamBase then .physical
  else if address < 0xE0000000#32 then .guestData
  else .unknown

def rangeInWindow (lower upper base size : BitVec 32) : Bool :=
  size ≠ 0 ∧ base ≤ lower ∧ lower ≤ upper ∧ lower - base < size ∧ upper - base < size

def classifyRange (lower upper : BitVec 32) : DolIRAddressDomain :=
  if lower = upper then classifyAddress lower
  else if rangeInWindow lower upper gcRamBase gcMainRamSize then .mem1
  else if rangeInWindow lower upper wiiMem2Base wiiMem2Size then .mem2
  else if rangeInWindow lower upper (gcRamBase ||| 0x40000000#32) gcMainRamSize then .mem1
  else if rangeInWindow lower upper (wiiMem2Base ||| 0x40000000#32) wiiMem2Size then .mem2
  else .unknown

/-- `find_region_leaders`. -/
def regionLeader (blocks : List DolIRBlock) (index : ℕ) : Bool :=
  index == 0 ||
    (blocks[index]?.any fun block => block.terminator.kind == .fallback) ||
    (blocks[index - 1]?.any fun block => index != 0 && block.terminator.kind != .fallthrough) ||
    blocks.any fun block => block.terminator.targets.contains index

structure Facts where
  values : DolIRValue → AbstractValue
  state : DolIRStateSlot → AbstractValue

def Facts.start : Facts := ⟨fun _ => unknownValue,fun _ => unknownValue⟩

def isAccess : DolIROp → Bool
  | .guestLoad .. | .guestStore _ => true
  | _ => false

/-- The access with the domain and bounds of its address. -/
def annotate (facts : Facts) (instruction : DolIRInstruction) : DolIRInstruction :=
  let address := facts.values (instruction.operands.getD 0 0)
  let lower : BitVec 32 := address.lower.truncate 32
  let upper : BitVec 32 := address.upper.truncate 32
  let plain :=
    { instruction with addressDomain := .unknown, addressLower := 0, addressUpper := 0 }
  if isAccess instruction.op ∧ address.bounded ∧ address.upper ≤ 0xFFFFFFFF#64 ∧
      classifyRange lower upper ≠ .unknown then
    { instruction with
      addressDomain := classifyRange lower upper, addressLower := lower, addressUpper := upper }
  else plain

def selectRange (width : ℕ) (condition yes no : AbstractValue) : AbstractValue :=
  if exactValue condition then if condition.lower ≠ 0 then yes else no
  else if yes.bounded ∧ no.bounded then
    rangeValue (if yes.lower < no.lower then yes.lower else no.lower)
      (if no.upper < yes.upper then yes.upper else no.upper) width
  else unknownValue

def instructionValue (instruction : DolIRInstruction) (facts : Facts) : AbstractValue :=
  let width := typeWidth instruction.type
  match instruction.op, instruction.operands.map facts.values with
  | .stateRead slot, _ => facts.state slot
  | .constant, operands =>
    if width ≠ 0 then knownValue instruction.immediate width
    else
      match operands with
      | [operand] => unaryValue instruction operand
      | [left,right] => binaryValue instruction left right
      | _ => unknownValue
  | _, [operand] => unaryValue instruction operand
  | _, [left,right] => binaryValue instruction left right
  | .select, [condition,yes,no] => selectRange width condition yes no
  | _, _ => unknownValue

/-- The facts after an instruction: its result is known, the slots it defines are not,
unless it writes them. -/
def transfer (facts : Facts) (instruction : DolIRInstruction) : Facts :=
  let values := if instruction.result ≠ dolirNoValue then
      Function.update facts.values instruction.result (instructionValue instruction facts)
    else facts.values
  { values
    state := fun slot =>
      if instruction.op = .stateWrite slot then values (instruction.operands.getD 0 0)
      else if slot ∈ instruction.stateDefs then unknownValue
      else facts.state slot }

def analyzeInstructions (facts : Facts) : List DolIRInstruction → Facts × List DolIRInstruction
  | [] => (facts,[])
  | i :: is =>
    let rest := analyzeInstructions (transfer facts i) is
    (rest.1,annotate facts i :: rest.2)

/-- The values stay known through the whole function, the state slots up to the next leader. -/
def analyzeBlocks (all : List DolIRBlock) (index : ℕ) (facts : Facts) :
    List DolIRBlock → List DolIRBlock
  | [] => []
  | block :: rest =>
    let facts := if regionLeader all index then { facts with state := fun _ => unknownValue }
      else facts
    let body := analyzeInstructions facts block.instructions
    { block with instructions := body.2 } :: analyzeBlocks all (index + 1) body.1 rest

end AddressAnalysis

def dolirAnalyzeAddresses (f : DolIRFunction) : DolIRFunction :=
  { f with blocks := AddressAnalysis.analyzeBlocks f.blocks 0 .start f.blocks }

/-- `dolir_build_chunk`; an empty chunk is refused. -/
def dolirBuildChunk (insts : List PPCInst) (guestStart : BitVec 32) : Option DolIRFunction :=
  if insts = [] then none else some (dolirAnalyzeAddresses (buildFunction insts guestStart))

end DolRecomp
