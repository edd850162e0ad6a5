import DolRecomp.Cpu
import DolRecomp.DolIR

/-!
# Execution of the intermediate representation

Values are typed bit patterns. An instruction continues, leaves native code
with a committed processor state, or is undefined (`stuck`): division by zero,
`INT_MIN / -1`, a shift by the operand width or more, and ill-typed operands.
-/

namespace DolRecomp

/-- Result of executing IR: carry on, leave with a processor state, or no meaning. -/
inductive Exec (α : Type)
  | next (a : α)
  | exit (cpu : CPUState)
  | stuck

namespace Exec

variable {α β : Type}

def bind (x : Exec α) (f : α → Exec β) : Exec β :=
  match x with
  | .next a => f a
  | .exit cpu => .exit cpu
  | .stuck => .stuck

instance : Monad Exec where
  pure := .next
  bind := bind

instance : LawfulMonad Exec :=
  LawfulMonad.mk' Exec (fun x => by cases x <;> rfl) (fun _ _ => rfl)
    (fun x _ _ => by cases x <;> rfl)

@[simp ↓] theorem next_bind (a : α) (f : α → Exec β) : (Exec.next a >>= f) = f a := rfl

@[simp] theorem exit_bind (cpu : CPUState) (f : α → Exec β) :
    ((Exec.exit cpu : Exec α) >>= f) = Exec.exit cpu := rfl

@[simp] theorem stuck_bind (f : α → Exec β) : ((Exec.stuck : Exec α) >>= f) = Exec.stuck := rfl

@[simp] theorem pure_eq (a : α) : (pure a : Exec α) = Exec.next a := rfl

def ofOption : Option α → Exec α
  | some a => .next a
  | none => .stuck

@[simp] theorem ofOption_some (a : α) : ofOption (some a) = .next a := rfl

@[simp] theorem ofOption_none : ofOption (none : Option α) = .stuck := rfl

end Exec

inductive Value
  | i1 (b : Bool) | i8 (v : BitVec 8) | i16 (v : BitVec 16) | i32 (v : BitVec 32)
  | i64 (v : BitVec 64) | f32 (bits : BitVec 32) | f64 (bits : BitVec 64)
  | v2f64 (a b : BitVec 64)
  deriving DecidableEq, Repr

namespace Value

/-- Integer bits as a 64-bit word together with the width. -/
def toInt : Value → Option (Nat × BitVec 64)
  | .i1 b => some (1, (BitVec.ofBool b).zeroExtend 64)
  | .i8 v => some (8, v.zeroExtend 64)
  | .i16 v => some (16, v.zeroExtend 64)
  | .i32 v => some (32, v.zeroExtend 64)
  | .i64 v => some (64, v)
  | _ => none

def type : Value → DolIRType
  | .i1 _ => .i1
  | .i8 _ => .i8
  | .i16 _ => .i16
  | .i32 _ => .i32
  | .i64 _ => .i64
  | .f32 _ => .f32
  | .f64 _ => .f64
  | .v2f64 _ _ => .v2f64

/-- The low bits of a word at an integer type. -/
def ofBits (t : DolIRType) (bits : BitVec 64) : Option Value :=
  match t with
  | .i1 => some (.i1 (bits.getLsbD 0))
  | .i8 => some (.i8 (bits.setWidth 8))
  | .i16 => some (.i16 (bits.setWidth 16))
  | .i32 => some (.i32 (bits.setWidth 32))
  | .i64 => some (.i64 bits)
  | _ => none

section

variable (bits : BitVec 64)

@[simp] theorem toInt_i1 (b : Bool) : (i1 b).toInt = some (1, (BitVec.ofBool b).zeroExtend 64) := rfl

@[simp] theorem toInt_i8 (v : BitVec 8) : (i8 v).toInt = some (8, v.zeroExtend 64) := rfl

@[simp] theorem toInt_i16 (v : BitVec 16) : (i16 v).toInt = some (16, v.zeroExtend 64) := rfl

@[simp] theorem toInt_i32 (v : BitVec 32) : (i32 v).toInt = some (32, v.zeroExtend 64) := rfl

@[simp] theorem toInt_i64 (v : BitVec 64) : (i64 v).toInt = some (64, v) := rfl

@[simp] theorem ofBits_i1 : ofBits .i1 bits = some (i1 (bits.getLsbD 0)) := rfl

@[simp] theorem ofBits_i8 : ofBits .i8 bits = some (i8 (bits.setWidth 8)) := rfl

@[simp] theorem ofBits_i16 : ofBits .i16 bits = some (i16 (bits.setWidth 16)) := rfl

@[simp] theorem ofBits_i32 : ofBits .i32 bits = some (i32 (bits.setWidth 32)) := rfl

@[simp] theorem ofBits_i64 : ofBits .i64 bits = some (i64 bits) := rfl

end

def asI32 : Value → Option (BitVec 32)
  | .i32 v => some v
  | _ => none

@[simp] theorem asI32_i32 (v : BitVec 32) : (i32 v).asI32 = some v := rfl

def asI64 : Value → Option (BitVec 64)
  | .i64 v => some v
  | _ => none

@[simp] theorem asI64_i64 (v : BitVec 64) : (i64 v).asI64 = some v := rfl

theorem asI64_eq_some {v : Value} {x : BitVec 64} : v.asI64 = some x ↔ v = i64 x := by
  cases v <;> simp [asI64]

theorem asI32_eq_some {v : Value} {x : BitVec 32} : v.asI32 = some x ↔ v = i32 x := by
  cases v <;> simp [asI32]

end Value

/-- Integer operators that keep the operand width. -/
def intOp (op : DolIROp) {w : Nat} (a b : BitVec w) : Option (BitVec w) :=
  match op with
  | .add => some (a + b)
  | .sub => some (a - b)
  | .mul => some (a * b)
  | .udiv => if b = 0 then none else some (a / b)
  | .sdiv => if b = 0 ∨ (a = BitVec.intMin w ∧ b = -1) then none else some (a.sdiv b)
  | .and => some (a &&& b)
  | .or => some (a ||| b)
  | .xor => some (a ^^^ b)
  | .shl => if b.toNat < w then some (a <<< b.toNat) else none
  | .lshr => if b.toNat < w then some (a >>> b.toNat) else none
  | .ashr => if b.toNat < w then some (a.sshiftRight b.toNat) else none
  | .rotl => some (a.rotateLeft b.toNat)
  | _ => none

def compareOp (op : DolIROp) {w : Nat} (a b : BitVec w) : Option Bool :=
  match op with
  | .icmpEq => some (a == b)
  | .icmpNe => some (a != b)
  | .icmpUlt => some (a.ult b)
  | .icmpUle => some (a.ule b)
  | .icmpSlt => some (a.slt b)
  | .icmpSle => some (a.sle b)
  | _ => none

section

variable {w : Nat} (a b : BitVec w)

@[simp] theorem intOp_add : intOp .add a b = some (a + b) := rfl

@[simp] theorem intOp_sub : intOp .sub a b = some (a - b) := rfl

@[simp] theorem intOp_mul : intOp .mul a b = some (a * b) := rfl

@[simp] theorem intOp_and : intOp .and a b = some (a &&& b) := rfl

@[simp] theorem intOp_or : intOp .or a b = some (a ||| b) := rfl

@[simp] theorem intOp_xor : intOp .xor a b = some (a ^^^ b) := rfl

@[simp] theorem intOp_rotl : intOp .rotl a b = some (a.rotateLeft b.toNat) := rfl

@[simp] theorem intOp_shl (h : b.toNat < w) : intOp .shl a b = some (a <<< b.toNat) := if_pos h

@[simp] theorem intOp_lshr (h : b.toNat < w) : intOp .lshr a b = some (a >>> b.toNat) := if_pos h

@[simp] theorem intOp_ashr (h : b.toNat < w) : intOp .ashr a b = some (a.sshiftRight b.toNat) := if_pos h

theorem intOp_udiv (h : b ≠ 0) : intOp .udiv a b = some (a / b) := if_neg h

theorem intOp_sdiv (h : ¬(b = 0 ∨ (a = BitVec.intMin w ∧ b = -1))) :
    intOp .sdiv a b = some (a.sdiv b) := if_neg h

@[simp] theorem compareOp_eq : compareOp .icmpEq a b = some (a == b) := rfl

@[simp] theorem compareOp_ne : compareOp .icmpNe a b = some (a != b) := rfl

@[simp] theorem compareOp_ult : compareOp .icmpUlt a b = some (a.ult b) := rfl

@[simp] theorem compareOp_slt : compareOp .icmpSlt a b = some (a.slt b) := rfl

end

/-- The operators on two values; floating-point arithmetic has no meaning here. -/
def evalBinary (op : DolIROp) (t : DolIRType) (a b : Value) : Option Value :=
  match a, b, t with
  | .i1 a, .i1 b, .i1 =>
    (intOp op (BitVec.ofBool a) (BitVec.ofBool b)).map (fun v => .i1 (v.getLsbD 0)) <|>
      (compareOp op (BitVec.ofBool a) (BitVec.ofBool b)).map .i1
  | .i8 a, .i8 b, .i8 => (intOp op a b).map .i8
  | .i8 a, .i8 b, .i1 => (compareOp op a b).map .i1
  | .i16 a, .i16 b, .i16 => (intOp op a b).map .i16
  | .i16 a, .i16 b, .i1 => (compareOp op a b).map .i1
  | .i32 a, .i32 b, .i32 => (intOp op a b).map .i32
  | .i32 a, .i32 b, .i1 => (compareOp op a b).map .i1
  | .i64 a, .i64 b, .i64 => (intOp op a b).map .i64
  | .i64 a, .i64 b, .i1 => (compareOp op a b).map .i1
  | .f64 a, .f64 b, .v2f64 => if op = .vectorBuild then some (.v2f64 a b) else none
  | .v2f64 a b, .v2f64 c d, .v2f64 =>
    match op with
    | .vectorShuffle left right =>
      match [a,b,c,d][left]?, [a,b,c,d][right]? with
      | some x, some y => some (.v2f64 x y)
      | _, _ => none
    | _ => none
  | _, _, _ => none

@[simp] theorem evalBinary_i32 (op : DolIROp) (a b : BitVec 32) :
    evalBinary op .i32 (.i32 a) (.i32 b) = (intOp op a b).map .i32 := rfl

@[simp] theorem evalBinary_i64 (op : DolIROp) (a b : BitVec 64) :
    evalBinary op .i64 (.i64 a) (.i64 b) = (intOp op a b).map .i64 := rfl

@[simp] theorem evalBinary_compare (op : DolIROp) (a b : BitVec 32) :
    evalBinary op .i1 (.i32 a) (.i32 b) = (compareOp op a b).map .i1 := rfl

@[simp] theorem evalBinary_and_i1 (a b : Bool) :
    evalBinary .and .i1 (.i1 a) (.i1 b) = some (.i1 (a && b)) := by cases a <;> cases b <;> rfl

@[simp] theorem evalBinary_or_i1 (a b : Bool) :
    evalBinary .or .i1 (.i1 a) (.i1 b) = some (.i1 (a || b)) := by cases a <;> cases b <;> rfl

def signBit64 : BitVec 64 := 0x8000000000000000

def signOp (op : DolIROp) (bits : BitVec 64) : Option (BitVec 64) :=
  match op with
  | .fneg => some (bits ^^^ signBit64)
  | .fabs => some (bits &&& ~~~signBit64)
  | _ => none

def evalUnary (op : DolIROp) (t : DolIRType) (a : Value) : Option Value :=
  match op, a, t with
  | .not, .i1 a, .i1 => some (.i1 !a)
  | .not, .i8 a, .i8 => some (.i8 (~~~a))
  | .not, .i16 a, .i16 => some (.i16 (~~~a))
  | .not, .i32 a, .i32 => some (.i32 (~~~a))
  | .not, .i64 a, .i64 => some (.i64 (~~~a))
  | .clz, .i32 a, .i32 => some (.i32 a.clz)
  | .clz, .i64 a, .i64 => some (.i64 a.clz)
  | .bswap, .i16 a, .i16 => some (.i16 (bswap16 a))
  | .bswap, .i32 a, .i32 => some (.i32 (bswap32 a))
  | .trunc, a, t | .zext, a, t => a.toInt.bind fun (_, bits) => Value.ofBits t bits
  | .sext, a, t => a.toInt.bind fun (w, bits) => Value.ofBits t ((bits.truncate w).signExtend 64)
  | .bitcast, .i32 a, .f32 => some (.f32 a)
  | .bitcast, .f32 a, .i32 => some (.i32 a)
  | .bitcast, .i64 a, .f64 => some (.f64 a)
  | .bitcast, .f64 a, .i64 => some (.i64 a)
  | .fneg, .f64 a, .f64 | .fabs, .f64 a, .f64 => (signOp op a).map .f64
  | .fneg, .v2f64 a b, .v2f64 | .fabs, .v2f64 a b, .v2f64 =>
    (signOp op a).bind fun x => (signOp op b).map fun y => .v2f64 x y
  | .vectorExtract lane, .v2f64 a b, .f64 => [a,b][lane]?.map .f64
  | _, _, _ => none

section

variable (t : DolIRType) (a : Value)

@[simp] theorem evalUnary_trunc :
    evalUnary .trunc t a = a.toInt.bind fun x => Value.ofBits t x.2 := by
  cases a <;> cases t <;> rfl

@[simp] theorem evalUnary_zext :
    evalUnary .zext t a = a.toInt.bind fun x => Value.ofBits t x.2 := by
  cases a <;> cases t <;> rfl

@[simp] theorem evalUnary_sext : evalUnary .sext t a =
    a.toInt.bind fun x => Value.ofBits t ((x.2.truncate x.1).signExtend 64) := by
  cases a <;> cases t <;> rfl

@[simp] theorem evalUnary_not_i32 (v : BitVec 32) :
    evalUnary .not .i32 (.i32 v) = some (.i32 (~~~v)) := rfl

@[simp] theorem evalUnary_not_i1 (b : Bool) : evalUnary .not .i1 (.i1 b) = some (.i1 !b) := rfl

@[simp] theorem evalUnary_clz (v : BitVec 32) :
    evalUnary .clz .i32 (.i32 v) = some (.i32 v.clz) := rfl

@[simp] theorem evalUnary_bswap (v : BitVec 32) :
    evalUnary .bswap .i32 (.i32 v) = some (.i32 (bswap32 v)) := rfl

end

def evalSelect (c a b : Value) : Option Value :=
  match c with
  | .i1 c => if a.type = b.type then some (if c then a else b) else none
  | _ => none

@[simp] theorem evalSelect_i32 (c : Bool) (a b : BitVec 32) :
    evalSelect (.i1 c) (.i32 a) (.i32 b) = some (.i32 (if c then a else b)) := by cases c <;> rfl

@[simp] theorem evalSelect_i1 (c a b : Bool) :
    evalSelect (.i1 c) (.i1 a) (.i1 b) = some (.i1 (if c then a else b)) := by cases c <;> rfl

/-- Slots with a field of their own live in `cpu`; the condition-register fields
and the XER bits are kept apart until the state is materialised. -/
structure IRState where
  cpu : CPUState
  crField : BitVec 3 → BitVec 32
  xer : BitVec 32
  xerCa : Bool
  xerOv : Bool
  xerSo : Bool

/-- The packed condition register, field 0 in the highest nibble. -/
def packCr (f : BitVec 3 → BitVec 32) : BitVec 32 :=
  ((f 0 &&& 0xF#32) <<< 28) ||| ((f 1 &&& 0xF#32) <<< 24) ||| ((f 2 &&& 0xF#32) <<< 20) |||
    ((f 3 &&& 0xF#32) <<< 16) ||| ((f 4 &&& 0xF#32) <<< 12) ||| ((f 5 &&& 0xF#32) <<< 8) |||
    ((f 6 &&& 0xF#32) <<< 4) ||| (f 7 &&& 0xF#32)

/-- Field `f` of the packed condition register. -/
def unpackCr (cr : BitVec 32) (f : BitVec 3) : BitVec 32 :=
  (cr >>> (28 - 4*f.toNat)) &&& 0xF#32

/-- The low 29 bits of the XER slot below its three one-bit slots. -/
def packXer (xer : BitVec 32) (ca ov so : Bool) : BitVec 32 :=
  (xer &&& ~~~0xE0000000#32) ||| ((BitVec.ofBool ca).zeroExtend 32 <<< 29) |||
    ((BitVec.ofBool ov).zeroExtend 32 <<< 30) ||| ((BitVec.ofBool so).zeroExtend 32 <<< 31)

namespace IRState

def load (cpu : CPUState) : IRState where
  cpu
  crField := unpackCr cpu.cr
  xer := cpu.xer
  xerCa := cpu.xer.getLsbD 29
  xerOv := cpu.xer.getLsbD 30
  xerSo := cpu.xer.getLsbD 31

def commit (st : IRState) : CPUState :=
  { st.cpu with cr := packCr st.crField, xer := packXer st.xer st.xerCa st.xerOv st.xerSo }

/-- Commit with the program counter of the instruction at hand. -/
def materialize (st : IRState) (pc : BitVec 32) : CPUState := { st.commit with pc }

def readSlot (st : IRState) : DolIRStateSlot → Value
  | .gpr r => .i32 (st.cpu.gpr r)
  | .fpr r => .f64 (st.cpu.fpr r)
  | .ps1 r => .f64 (st.cpu.ps1 r)
  | .pc => .i32 st.cpu.pc
  | .lr => .i32 st.cpu.lr
  | .ctr => .i32 st.cpu.ctr
  | .cr => .i32 st.cpu.cr
  | .crField f => .i32 (st.crField f)
  | .xer => .i32 st.xer
  | .xerCa => .i1 st.xerCa
  | .xerOv => .i1 st.xerOv
  | .xerSo => .i1 st.xerSo
  | .fpscr => .i32 st.cpu.fpscr
  | .msr => .i32 st.cpu.msr
  | .srr0 => .i32 st.cpu.srr0
  | .srr1 => .i32 st.cpu.srr1
  | .dar => .i32 st.cpu.dar
  | .dsisr => .i32 st.cpu.dsisr
  | .ear => .i32 st.cpu.ear
  | .hid2 => .i32 st.cpu.hid2
  | .timebase => .i64 st.cpu.timebase
  | .sr n => .i32 (st.cpu.sr n)
  | .gqr n => .i32 (st.cpu.gqr n)
  | .exception => .i32 st.cpu.exception
  | .programException => .i32 st.cpu.programException
  | .reserveAddr => .i32 st.cpu.reserveAddr
  | .reserveValid => .i1 st.cpu.reserveValid
  | .downcount => .i64 st.cpu.downcount

/-- Write a slot; a value of another type has no meaning. -/
def writeSlot (st : IRState) : DolIRStateSlot → Value → Option IRState
  | .gpr r, .i32 v => some { st with cpu := st.cpu.setGpr r v }
  | .fpr r, .f64 v => some { st with cpu := st.cpu.setFpr r v }
  | .ps1 r, .f64 v => some { st with cpu := st.cpu.setPs1 r v }
  | .pc, .i32 v => some { st with cpu := { st.cpu with pc := v } }
  | .lr, .i32 v => some { st with cpu := { st.cpu with lr := v } }
  | .ctr, .i32 v => some { st with cpu := { st.cpu with ctr := v } }
  | .cr, .i32 v => some { st with cpu := { st.cpu with cr := v } }
  | .crField f, .i32 v => some { st with crField := Function.update st.crField f v }
  | .xer, .i32 v => some { st with xer := v }
  | .xerCa, .i1 v => some { st with xerCa := v }
  | .xerOv, .i1 v => some { st with xerOv := v }
  | .xerSo, .i1 v => some { st with xerSo := v }
  | .fpscr, .i32 v => some { st with cpu := { st.cpu with fpscr := v } }
  | .msr, .i32 v => some { st with cpu := { st.cpu with msr := v } }
  | .srr0, .i32 v => some { st with cpu := { st.cpu with srr0 := v } }
  | .srr1, .i32 v => some { st with cpu := { st.cpu with srr1 := v } }
  | .dar, .i32 v => some { st with cpu := { st.cpu with dar := v } }
  | .dsisr, .i32 v => some { st with cpu := { st.cpu with dsisr := v } }
  | .ear, .i32 v => some { st with cpu := { st.cpu with ear := v } }
  | .hid2, .i32 v => some { st with cpu := { st.cpu with hid2 := v } }
  | .timebase, .i64 v => some { st with cpu := { st.cpu with timebase := v } }
  | .sr n, .i32 v => some { st with cpu := st.cpu.setSr n v }
  | .gqr n, .i32 v => some { st with cpu := st.cpu.setGqr n v }
  | .exception, .i32 v => some { st with cpu := { st.cpu with exception := v } }
  | .programException, .i32 v => some { st with cpu := { st.cpu with programException := v } }
  | .reserveAddr, .i32 v => some { st with cpu := { st.cpu with reserveAddr := v } }
  | .reserveValid, .i1 v => some { st with cpu := { st.cpu with reserveValid := v } }
  | .downcount, .i64 v => some { st with cpu := { st.cpu with downcount := v } }
  | _, _ => none

section

variable (st : IRState)

def setGpr (r : BitVec 5) (v : BitVec 32) : IRState := { st with cpu := st.cpu.setGpr r v }

def setCrField (f : BitVec 3) (v : BitVec 32) : IRState :=
  { st with crField := Function.update st.crField f v }

def setCa (ca : Bool) : IRState := { st with xerCa := ca }

def setCtr (v : BitVec 32) : IRState := { st with cpu := { st.cpu with ctr := v } }

def setLr (v : BitVec 32) : IRState := { st with cpu := { st.cpu with lr := v } }

@[simp] theorem setGpr_cpu (r : BitVec 5) (v : BitVec 32) :
    (st.setGpr r v).cpu = st.cpu.setGpr r v := by cases st; rfl

@[simp] theorem setGpr_xerSo (r : BitVec 5) (v : BitVec 32) :
    (st.setGpr r v).xerSo = st.xerSo := by cases st; rfl

@[simp] theorem setGpr_xerCa (r : BitVec 5) (v : BitVec 32) :
    (st.setGpr r v).xerCa = st.xerCa := by cases st; rfl

@[simp] theorem setCa_cpu (ca : Bool) : (st.setCa ca).cpu = st.cpu := by cases st; rfl

@[simp] theorem setCa_xerSo (ca : Bool) : (st.setCa ca).xerSo = st.xerSo := by cases st; rfl

@[simp] theorem setCrField_cpu (f : BitVec 3) (v : BitVec 32) :
    (st.setCrField f v).cpu = st.cpu := by cases st; rfl

@[simp] theorem setGpr_self (r : BitVec 5) : st.setGpr r (st.cpu.gpr r) = st := by
  cases st
  simp [setGpr,CPUState.setGpr]

@[simp] theorem setGpr_setCa (r : BitVec 5) (v : BitVec 32) (ca : Bool) :
    (st.setGpr r v).setCa ca = (st.setCa ca).setGpr r v := by cases st; rfl

@[simp] theorem writeSlot_gpr (r : BitVec 5) (v : BitVec 32) :
    st.writeSlot (.gpr r) (.i32 v) = some (st.setGpr r v) := by cases st; rfl

@[simp] theorem writeSlot_crField (f : BitVec 3) (v : BitVec 32) :
    st.writeSlot (.crField f) (.i32 v) = some (st.setCrField f v) := by cases st; rfl

@[simp] theorem writeSlot_xerCa (ca : Bool) :
    st.writeSlot .xerCa (.i1 ca) = some (st.setCa ca) := by cases st; rfl

@[simp] theorem writeSlot_ctr (v : BitVec 32) :
    st.writeSlot .ctr (.i32 v) = some (st.setCtr v) := by cases st; rfl

@[simp] theorem writeSlot_lr (v : BitVec 32) :
    st.writeSlot .lr (.i32 v) = some (st.setLr v) := by cases st; rfl

@[simp] theorem readSlot_ctr : st.readSlot .ctr = .i32 st.cpu.ctr := by cases st; rfl

@[simp] theorem readSlot_lr : st.readSlot .lr = .i32 st.cpu.lr := by cases st; rfl

@[simp] theorem setCtr_crField (v : BitVec 32) : (st.setCtr v).crField = st.crField := by
  cases st; rfl

@[simp] theorem setLr_crField (v : BitVec 32) : (st.setLr v).crField = st.crField := by
  cases st; rfl

@[simp] theorem setCtr_cpu (v : BitVec 32) :
    (st.setCtr v).cpu = { st.cpu with ctr := v } := by cases st; rfl

@[simp] theorem setLr_cpu (v : BitVec 32) :
    (st.setLr v).cpu = { st.cpu with lr := v } := by cases st; rfl

@[simp] theorem readSlot_gpr (r : BitVec 5) : st.readSlot (.gpr r) = .i32 (st.cpu.gpr r) := by cases st; rfl

@[simp] theorem readSlot_crField (f : BitVec 3) :
    st.readSlot (.crField f) = .i32 (st.crField f) := by cases st; rfl

@[simp] theorem readSlot_xerCa : st.readSlot .xerCa = .i1 st.xerCa := by cases st; rfl

@[simp] theorem readSlot_xerSo : st.readSlot .xerSo = .i1 st.xerSo := by cases st; rfl

/-- The four bits of a comparison: less, greater, equal and summary overflow. -/
def fieldBits (less greater equal so : Bool) : BitVec 32 :=
  (if less then 8#32 else 0) ||| (if greater then 4#32 else 0) |||
    (if equal then 2#32 else 0) ||| (BitVec.ofBool so).zeroExtend 32

@[simp] theorem fieldBits_nibble (less greater equal so : Bool) :
    fieldBits less greater equal so &&& 0xF#32 = fieldBits less greater equal so := by
  cases less <;> cases greater <;> cases equal <;> cases so <;> rfl

/-- Record the comparison of a result with zero. -/
def recordCr0 (v : BitVec 32) : IRState :=
  st.setCrField 0 (fieldBits (v.slt 0) ((0#32).slt v) (v == 0) st.xerSo)

def recordIf (rc : Bool) (v : BitVec 32) : IRState := if rc then st.recordCr0 v else st

@[simp] theorem recordIf_true (v : BitVec 32) : st.recordIf true v = st.recordCr0 v := by
  rw [recordIf,if_pos rfl]

@[simp] theorem recordIf_false (v : BitVec 32) : st.recordIf false v = st := by
  rw [recordIf,if_neg Bool.false_ne_true]

end

end IRState

/-- Runtime helpers outside this model (floating-point arithmetic, quantised and
cache operations), as functions of the committed state. -/
abbrev OtherHelpers :=
  DolIRHelper → BitVec 64 → BitVec 32 → List Value → CPUState → Option Value × CPUState

structure Machine where
  host : Host
  otherHelpers : OtherHelpers := fun _ _ _ _ cpu => (none, cpu)

namespace Machine

variable (m : Machine)

/-- A runtime call on the committed state; native code is left when an
exception is pending afterwards. -/
def runtimeBoundary (cpu : CPUState) : Exec IRState :=
  if cpu.exception = 0 then .next (IRState.load cpu) else .exit cpu

def callHelper (st : IRState) (helper : DolIRHelper) (immediate : BitVec 64) (pc : BitVec 32)
    (args : List Value) : Exec (Option Value × IRState) :=
  match helper, args with
  | .fpAvailable, [] =>
    let (available, cpu) := Runtime.ppcFpAvailable (st.materialize pc) pc
    if available then .next (some (.i1 true), st) else .exit cpu
  | .programException, [.i1 taken] =>
    if taken then
      .exit (Runtime.ppcProgramException (st.materialize pc) (immediate.truncate 32) pc)
    else .next (none, st)
  | .fpscrUpdated, [] =>
    .next (none, { st with cpu := Runtime.ppcFpscrControlUpdated st.cpu })
  | .fpscrBit, [] =>
    let bit : BitVec 5 := immediate.truncate 5
    let cpu := if immediate.getLsbD 8 then Runtime.ppcMtfsb1Op st.cpu bit
      else Runtime.ppcMtfsb0Op st.cpu bit
    .next (none, { st with cpu })
  | .storeConditional, [.i32 ea, .i32 _] => do
    let st ← runtimeBoundary
      (Runtime.ppcStwcxOp (st.materialize pc) (immediate.truncate 5) ea pc)
    pure (none, st)
  | .sprRead, [] => do
    let (value, cpu) := Runtime.ppcMfspr m.host (st.materialize pc) (immediate.truncate 10) pc
    let st ← runtimeBoundary cpu
    pure (some (.i32 value), st)
  | .sprWrite, [.i32 value] => do
    let st ← runtimeBoundary
      (Runtime.ppcMtspr m.host (st.materialize pc) (immediate.truncate 10) value pc)
    pure (none, st)
  | .lswx, [] => do
    let st ← runtimeBoundary (Runtime.ppcLswx m.host (st.materialize pc)
      (immediate.extractLsb' 0 5) (immediate.extractLsb' 8 5) (immediate.extractLsb' 16 5) pc)
    pure (none, st)
  | .timebaseRead, [] => .next (some (.i64 st.cpu.timebase), st)
  | .timebaseWrite, [.i64 value] =>
    .next (none, { st with cpu := { st.cpu with timebase := value } })
  | .memoryFence, [] => .next (none, st)
  | helper, args => do
    let (value, cpu) := m.otherHelpers helper immediate pc args (st.materialize pc)
    let st ← runtimeBoundary cpu
    pure (value, st)

/-- A guest access goes through the runtime's memory. -/
def guestLoad (st : IRState) (ea : BitVec 32) (t : DolIRType) (width : Nat) (sign : Bool) :
    Exec (Option Value × IRState) :=
  let (bits, cpu) := Runtime.memRead m.host st.cpu ea width
  let bits := if sign then (bits.truncate (8*width)).signExtend 64 else bits
  (Exec.ofOption (Value.ofBits t bits)) >>= fun v => .next (some v, { st with cpu })

def guestStore (st : IRState) (ea : BitVec 32) (v : Value) (width : Nat) :
    Exec (Option Value × IRState) :=
  Exec.ofOption v.toInt >>= fun (_, bits) =>
    .next (none, { st with cpu := Runtime.memWrite st.cpu ea (Runtime.truncateWidth width bits) width })

/-- Effect of one operation on operand values. -/
def execOp (st : IRState) (i : DolIRInstruction) (args : List Value) :
    Exec (Option Value × IRState) :=
  match i.op, args with
  | .constant, [] => Exec.ofOption (Value.ofBits i.type i.immediate) >>= fun v => .next (some v, st)
  | .stateRead slot, [] => .next (some (st.readSlot slot), st)
  | .stateWrite slot, [v] => Exec.ofOption (st.writeSlot slot v) >>= fun st => .next (none, st)
  | .select, [c,a,b] => Exec.ofOption (evalSelect c a b) >>= fun v => .next (some v, st)
  | .guestLoad width sign, [.i32 ea] => m.guestLoad st ea i.type width sign
  | .guestStore width, [.i32 ea, v] => guestStore st ea v width
  | .helperCall helper, args => m.callHelper st helper i.immediate i.guestPc args
  | op, [a] => Exec.ofOption (evalUnary op i.type a) >>= fun v => .next (some v, st)
  | op, [a,b] => Exec.ofOption (evalBinary op i.type a b) >>= fun v => .next (some v, st)
  | _, _ => .stuck

structure Frame where
  st : IRState
  env : DolIRValue → Option Value

/-- Values of the operands; an undefined one has no meaning. -/
def operands (env : DolIRValue → Option Value) (ids : List DolIRValue) : Option (List Value) :=
  ids.mapM env

def Frame.define (f : Frame) (result : DolIRValue) (v : Option Value) : Option Frame :=
  if result = dolirNoValue then some f
  else v.map fun v => { f with env := Function.update f.env result (some v) }

def execInstruction (i : DolIRInstruction) (f : Frame) : Exec Frame := do
  let args ← Exec.ofOption (operands f.env i.operands)
  let (v, st) ← m.execOp f.st i args
  Exec.ofOption (Frame.define { f with st } i.result v)

def execInstructions (is : List DolIRInstruction) (f : Frame) : Exec Frame :=
  match is with
  | [] => .next f
  | i :: is => m.execInstruction i f >>= execInstructions is

theorem execInstructions_append (xs ys : List DolIRInstruction) (f : Frame) :
    m.execInstructions (xs ++ ys) f = m.execInstructions xs f >>= m.execInstructions ys := by
  induction xs generalizing f with
  | nil => rfl
  | cons x xs ih =>
    simp only [List.cons_append,execInstructions,bind_assoc]
    congr 1
    funext g
    exact ih g

end Machine

end DolRecomp
