import DolRecomp.Emitter

/-!
# The control-flow graph of an emitted C function

Block leaders, the cycles charged at each leader, and the direct loops that the
C backend moves to functions of their own.
-/

namespace DolRecomp

/-- The chunk that `emit_function` prints, with what its text depends on besides. -/
structure CFunction where
  insts : List PPCInst
  address : BitVec 32
  host : Host
  chunkStarts : List (BitVec 32)
  callEnter : Bool
  otherStatements : PPCInst → CPUState → CFlow := fun _ cpu => .ret cpu

namespace CFunction

def instructionUsesFallback (i : PPCInst) : Bool :=
  match i.op with
  | .dcbst | .dcbf | .dcbi | .icbi | .unknown => true
  | .mfspr =>
    !([1,8,9,26,27,268,269,282,912,913,914,915,916,917,918,919,920].contains i.spr.toNat)
  | .mtspr => !([1,8,9,26,27,282,912,913,914,915,916,917,918,919,920].contains i.spr.toNat)
  | _ => false

def instructionEndsBlock (i : PPCInst) : Bool :=
  match i.op with
  | .b | .bc | .bclr | .bcctr | .sc | .rfi => true
  | _ => instructionUsesFallback i

def instructionCycles (i : PPCInst) : ℕ :=
  if i.embeddedData ∨ instructionUsesFallback i then 0
  else
    match i.op with
    | .mulli => 3
    | .sc | .rfi | .tw => 2
    | .lmw | .stmw => 11
    | .mullw | .mullwo | .mulhw | .mulhwu => 5
    | .divw | .divwo | .divwu | .divwuo => 40
    | .dcbz => 5
    | .dcbtst | .dcbt => 2
    | .mfsr | .mfsrin => 3
    | .mtspr => 2
    | .sync => 3
    | .mtfsb0 | .mtfsb1 | .mtfsf | .mtfsfi => 3
    | .fdivs => 17
    | .fdiv => 31
    | .psDiv => 17
    | .psRsqrte => 2
    | _ => 1

def instructionIsPcTransparent (i : PPCInst) : Bool :=
  match i.op with
  | .mulli | .subfic | .addi | .addic | .addicDot | .addis | .cmpi | .cmpli | .cmp | .cmpl | .ori
  | .oris | .xori | .xoris | .andi | .andis | .add | .addc | .adde | .addme | .addze | .subf
  | .subfc | .subfe | .subfme | .subfze | .neg | .and | .andc | .or | .orc | .xor | .nand | .nor
  | .eqv | .cntlzw | .extsb | .extsh | .slw | .srw | .sraw | .srawi | .rlwinm | .rlwimi | .rlwnm
  | .mullw | .mulhw | .mulhwu | .divw | .divwu | .crand | .crandc | .creqv | .crnand | .crnor
  | .cror | .crorc | .crxor | .mcrf | .mfcr | .mtcrf | .b | .bc => true
  | _ => false

def instructionIsOutlinable (i : PPCInst) : Bool :=
  instructionIsPcTransparent i ||
    match i.op with
    | .lwz | .lwzu | .lbz | .lbzu | .lhz | .lhzu | .lha | .lhau | .stw | .stwu | .stb | .stbu
    | .sth | .sthu | .lwzx | .lwzux | .lbzx | .lbzux | .lhzx | .lhzux | .lhax | .lhaux | .lwbrx
    | .lhbrx | .stwx | .stwux | .stbx | .stbux | .sthx | .sthux | .stwbrx | .sthbrx => true
    | _ => false

variable (f : CFunction)

def endAddress : BitVec 32 := f.address + BitVec.ofNat 32 (4*f.insts.length)

def contains (address : BitVec 32) : Bool :=
  f.address ≤ address ∧ address < f.endAddress ∧ (address - f.address) &&& 3#32 = 0

def indexOf (address : BitVec 32) : ℕ := (address - f.address).toNat / 4

/-- A branch of the function, to the instruction at `index`. -/
def branchesTo (i : PPCInst) (index : ℕ) : Bool :=
  !i.embeddedData && (i.op = .b ∨ i.op = .bc) && f.contains i.branchTarget &&
    f.indexOf i.branchTarget = index

/-- Whether the instruction before `index` ends a block. -/
def followsBlock (index : ℕ) : Bool :=
  index ≠ 0 && (f.insts[index - 1]?.any fun i => !i.embeddedData && instructionEndsBlock i)

def leaders (index : ℕ) : Bool :=
  index < f.insts.length &&
    (index = 0 || f.followsBlock index || f.insts.any fun i => f.branchesTo i index)

def returnTargets (index : ℕ) : Bool :=
  index < f.insts.length && index ≠ 0 &&
    (f.insts[index - 1]?.any fun i => !i.embeddedData && i.lk)

def cyclesFrom : ℕ → List PPCInst → ℕ
  | _, [] => 0
  | index, i :: is =>
    instructionCycles i +
      if instructionEndsBlock i ∨ is = [] ∨ f.leaders (index + 1) then 0
      else cyclesFrom (index + 1) is

def blockCycles (index : ℕ) : BitVec 32 :=
  if f.leaders index then BitVec.ofNat 32 (f.cyclesFrom index (f.insts.drop index)) else 0

def body (first last : ℕ) : List PPCInst := (f.insts.take (last + 1)).drop first

/-- The branch reads the time base nowhere in its loop and goes back within the function. -/
def canLoopDirectly (index : ℕ) : Bool :=
  f.insts[index]?.any fun branch =>
    (branch.op = .b ∨ branch.op = .bc) && !branch.lk && f.contains branch.branchTarget &&
      branch.branchTarget ≤ branch.address &&
      (f.body (f.indexOf branch.branchTarget) index).all fun i =>
        !(i.op = .mftb || i.op = .mfspr && (i.spr = 268 || i.spr = 269))

def loopStart (last : ℕ) : ℕ := (f.insts[last]?.map fun i => f.indexOf i.branchTarget).getD 0

/-- Instructions of a direct loop that cannot see the program counter leave it stale. -/
def materializePc (index : ℕ) : Bool :=
  !((List.range f.insts.length).any fun last =>
    f.canLoopDirectly last && f.loopStart last ≤ index && index ≤ last &&
      f.insts[index]?.any instructionIsPcTransparent)

/-- The direct loop from `first` to `last` has one block and may be printed as a function. -/
def outlines (first last : ℕ) : Bool :=
  f.canLoopDirectly last && f.loopStart last = first && first < last &&
    ((f.insts.take last).drop first).all (fun i => !instructionEndsBlock i) &&
    (f.body first last).all instructionIsOutlinable

def loopEnds (first : ℕ) : Option ℕ :=
  ((List.range f.insts.length).filter (f.outlines first)).getLast?

end CFunction

end DolRecomp
