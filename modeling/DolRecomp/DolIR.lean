import Mathlib.Data.Finset.Basic
import DolRecomp.Decoder

/-!
# The intermediate representation

Types, state slots, operations, blocks and functions of DolIR, with the state
slots that each instruction is recorded to use and define. An operation carries
the part of the source's `aux` word that it reads.
-/

namespace DolRecomp

inductive DolIRType
  | void | i1 | i8 | i16 | i32 | i64 | f32 | f64 | v2f32 | v2f64
  deriving DecidableEq, Repr

/-- State slots. `crField` and the three `xer` bits are views that exist only in
the IR; the packed words are rebuilt where the state is observed. -/
inductive DolIRStateSlot
  | gpr (r : BitVec 5) | fpr (r : BitVec 5) | ps1 (r : BitVec 5)
  | pc | lr | ctr | cr | crField (f : BitVec 3)
  | xer | xerCa | xerOv | xerSo | fpscr | msr | srr0 | srr1 | dar | dsisr | ear | hid2
  | timebase | sr (n : BitVec 4) | gqr (n : BitVec 3)
  | exception | programException | reserveAddr | reserveValid | downcount
  deriving DecidableEq, Repr

abbrev StateMask := Finset DolIRStateSlot

def dolirStateType : DolIRStateSlot → DolIRType
  | .fpr _ | .ps1 _ => .f64
  | .timebase | .downcount => .i64
  | .reserveValid | .xerCa | .xerOv | .xerSo => .i1
  | _ => .i32

inductive DolIRHelper
  | fallbackInstruction | fpAvailable | systemCall | rfi | programException | fpscrUpdated
  | psqLoad | psqStore | dcbzL | eciwx | ecowx | tlbie | memoryFence | exactFloat
  | storeConditional | fpscrBit | sprRead | sprWrite | lswx | cacheControl | exactPaired
  | timebaseRead | timebaseWrite
  deriving DecidableEq, Repr

/-- Guest values are numbered from one; zero stands for no value. -/
abbrev DolIRValue := Nat

def dolirNoValue : DolIRValue := 0

inductive DolIROp
  | phi | constant | stateRead (slot : DolIRStateSlot) | stateWrite (slot : DolIRStateSlot)
  | add | sub | mul | udiv | sdiv | and | or | xor | not | shl | lshr | ashr | rotl | clz | bswap
  | trunc | zext | sext | bitcast
  | icmpEq | icmpNe | icmpUlt | icmpUle | icmpSlt | icmpSle | fcmpOeq | fcmpOlt | fcmpOge
  | select | fadd | fsub | fmul | fdiv | fneg | fabs | fptrunc | fpext
  | vectorBuild | vectorExtract (lane : Nat) | vectorShuffle (left right : Nat)
  | guestLoad (width : Nat) (sign : Bool) | guestStore (width : Nat)
  | helperCall (helper : DolIRHelper)
  deriving DecidableEq, Repr

def dolirProgramTrap : BitVec 32 := 0x00020000
def dolirProgramPriv : BitVec 32 := 0x00040000

/-- Floating-point helpers, in source order; the number is the descriptor's low byte. -/
inductive DolIRExactFloat
  | fres | frsqrte | fmadd | fmsub | fnmadd | fnmsub | fmadds | fmsubs | fnmadds | fnmsubs
  | fctiw | fctiwz | fcmpu | fcmpo | fadds | fsubs | fmuls | fdivs | fadd | fsub | fmul | fdiv
  | frsp
  deriving DecidableEq, Repr

inductive DolIRExactPaired
  | psAdd | psSub | psMul | psDiv | psMadd | psMsub | psNmadd | psNmsub | psMadds0 | psMadds1
  | psSum0 | psSum1 | psMuls0 | psMuls1 | psRes | psRsqrte | psCmpu0 | psCmpo0 | psCmpu1 | psCmpo1
  deriving DecidableEq, Repr

inductive DolIRAddressDomain
  | unknown | guestData | mem1 | mem2 | physical | mmio | fifo
  deriving DecidableEq, Repr

structure DolIRInstruction where
  op : DolIROp
  type : DolIRType
  result : DolIRValue := dolirNoValue
  operands : List DolIRValue := []
  immediate : BitVec 64 := 0
  guestPc : BitVec 32 := 0
  stateUses : StateMask := ∅
  stateDefs : StateMask := ∅
  addressDomain : DolIRAddressDomain := .unknown
  addressLower : BitVec 32 := 0
  addressUpper : BitVec 32 := 0
  exactFp : Bool := false
  deriving DecidableEq

inductive DolIRTerminatorKind
  | none | fallthrough | branch | condBranch | indirect | return | sideExit | fallback
  | systemCall | rfi
  deriving DecidableEq, Repr

/-- `targets` are block indices; `none` stands for `DOLIR_NO_BLOCK`. -/
structure DolIRTerminator where
  kind : DolIRTerminatorKind := .none
  condition : DolIRValue := dolirNoValue
  targetValue : DolIRValue := dolirNoValue
  target0 : Option Nat := .none
  target1 : Option Nat := .none
  targetAddress0 : BitVec 32 := 0
  targetAddress1 : BitVec 32 := 0
  guestPc : BitVec 32 := 0
  raw : BitVec 32 := 0
  linked : Bool := false
  deriving DecidableEq, Repr

structure DolIRBlock where
  guestAddress : BitVec 32
  raw : BitVec 32 := 0
  cycleCost : Nat := 0
  instructions : List DolIRInstruction := []
  terminator : DolIRTerminator := {}
  deriving DecidableEq

structure DolIRFunction where
  guestStart : BitVec 32
  guestEnd : BitVec 32
  blocks : List DolIRBlock
  valueCount : Nat
  deriving DecidableEq

namespace DolIRTerminator

/-- How many of the two target fields the terminator kind reads. -/
def targetCount (t : DolIRTerminator) : Nat :=
  match t.kind with
  | .condBranch | .indirect => 2
  | .branch => 1
  | _ => 0

/-- The block targets of the fields the terminator kind reads. -/
def targets (t : DolIRTerminator) : List Nat :=
  match t.targetCount with
  | 0 => []
  | 1 => t.target0.toList
  | _ => t.target0.toList ++ t.target1.toList

end DolIRTerminator

namespace Effects

/-- Byte `n` of a helper descriptor. -/
def descriptorByte (descriptor : BitVec 64) (n : Nat) : Nat :=
  (descriptor.extractLsb' (8*n) 8).toNat

def register (descriptor : BitVec 64) (n : Nat) : BitVec 5 :=
  BitVec.ofNat 5 (descriptorByte descriptor n)

def crRegister (descriptor : BitVec 64) : DolIRStateSlot :=
  .crField (BitVec.ofNat 3 (descriptorByte descriptor 5))

def pair (r : BitVec 5) : StateMask := {.fpr r, .ps1 r}

/-- The descriptor's operation lies between two members of the enumeration. -/
def floatOpWithin (op : Nat) (first last : DolIRExactFloat) : Bool :=
  first.ctorIdx ≤ op && op ≤ last.ctorIdx

def floatOpIn (op : Nat) (ops : List DolIRExactFloat) : Bool := ops.any (·.ctorIdx == op)

def pairedOpIn (op : Nat) (ops : List DolIRExactPaired) : Bool := ops.any (·.ctorIdx == op)

def exactFloat (descriptor : BitVec 64) : StateMask × StateMask :=
  let op := descriptorByte descriptor 0
  let d := register descriptor 1
  let a := register descriptor 2
  let b := register descriptor 3
  let c := register descriptor 4
  if floatOpIn op [.fcmpu,.fcmpo] then
    ({.fpscr, .fpr a, .fpr b, crRegister descriptor}, {.fpscr, crRegister descriptor})
  else
    let single := floatOpIn op [.fres,.frsp] || floatOpWithin op .fadds .fdivs ||
      floatOpWithin op .fmadds .fnmsubs
    let uses : StateMask :=
      if floatOpIn op [.fres,.frsqrte,.fctiw,.fctiwz,.frsp] then {.fpr b}
      else if floatOpIn op [.fmuls,.fmul] then {.fpr a, .fpr c}
      else if floatOpWithin op .fmadd .fnmsubs then {.fpr a, .fpr b, .fpr c}
      else {.fpr a, .fpr b}
    (insert .fpscr uses, if single then {.fpscr, .fpr d, .ps1 d} else {.fpscr, .fpr d})

def exactPaired (descriptor : BitVec 64) : StateMask × StateMask :=
  let op := descriptorByte descriptor 0
  let d := register descriptor 1
  let a := register descriptor 2
  let b := register descriptor 3
  let c := register descriptor 4
  if DolIRExactPaired.psCmpu0.ctorIdx ≤ op then
    (insert .fpscr (insert (crRegister descriptor) (pair a ∪ pair b)),
      {.fpscr, crRegister descriptor})
  else
    let uses : StateMask :=
      if pairedOpIn op [.psRes,.psRsqrte] then pair b
      else if pairedOpIn op [.psMul,.psMuls0,.psMuls1] then pair a ∪ pair c
      else if DolIRExactPaired.psMadd.ctorIdx ≤ op ∧ op ≤ DolIRExactPaired.psSum1.ctorIdx then
        pair a ∪ pair b ∪ pair c
      else pair a ∪ pair b
    (insert .fpscr uses, insert .fpscr (pair d))

def gprs : StateMask := (List.ofFn fun r : Fin 32 => DolIRStateSlot.gpr (BitVec.ofFin r)).toFinset

def helperEffects (helper : DolIRHelper) (immediate : BitVec 64) : StateMask × StateMask :=
  match helper with
  | .fpAvailable => ({.msr, .exception}, {.exception})
  | .programException => ({.exception}, {.exception, .srr1})
  | .cacheControl => ({.msr}, ∅)
  | .exactFloat => exactFloat immediate
  | .exactPaired => exactPaired immediate
  | .psqLoad | .psqStore =>
    let reg := register immediate 0
    let gqr := DolIRStateSlot.gqr (immediate.extractLsb' 9 3)
    if helper = .psqLoad then (insert gqr (insert .hid2 (pair reg)), pair reg)
    else (insert gqr (insert .hid2 (insert .reserveAddr (insert .reserveValid (pair reg)))),
      {.reserveValid})
  | .storeConditional => ({.crField 0, .reserveAddr, .reserveValid}, {.crField 0, .reserveValid})
  | .fpscrUpdated | .fpscrBit => ({.fpscr}, {.fpscr})
  | .lswx => (insert .xer gprs, gprs)
  | _ => (∅, ∅)

def effects (op : DolIROp) (immediate : BitVec 64) : StateMask × StateMask :=
  match op with
  | .stateRead slot => ({slot}, ∅)
  | .stateWrite slot => (∅, {slot})
  | .guestStore _ => ({.reserveAddr, .reserveValid}, {.reserveValid})
  | .helperCall helper => helperEffects helper immediate
  | _ => (∅, ∅)

def isExact (op : DolIROp) : Bool :=
  op = .helperCall .exactFloat ∨ op = .helperCall .exactPaired

end Effects

def dolirPopulateEffects (instruction : DolIRInstruction) : DolIRInstruction :=
  { instruction with
    stateUses := (Effects.effects instruction.op instruction.immediate).1
    stateDefs := (Effects.effects instruction.op instruction.immediate).2
    exactFp := Effects.isExact instruction.op }

end DolRecomp
