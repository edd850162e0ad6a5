import DolRecomp.Cpu
import DolRecomp.DolIR

/-!
# The state buffer of native code

Staged values of state slots, with the masks of the slots that are to be
written back and of those that hold the host's value, and the two cold
functions that move slots between the buffer and the host.
-/

namespace DolRecomp

abbrev StateValues := DolIRStateSlot → BitVec 64

/-- `state_values`, `dirty_mask` and `valid_mask`. -/
structure Staged where
  values : StateValues
  dirty : StateMask
  valid : StateMask

def Staged.zero : Staged := ⟨fun _ => 0,∅,∅⟩

namespace NativeState

def fields : List (BitVec 3) := (List.finRange 8).map BitVec.ofFin

/-- The packed condition register with the dirty fields put in, from `crField 0` on. -/
def commitCr (values : StateValues) (mask : StateMask) (host : BitVec 32) : BitVec 32 :=
  fields.foldl (fun cr field =>
      if .crField field ∈ mask then
        let shift := 28 - 4 * field.toNat
        (cr &&& ~~~(15#32 <<< shift)) ||| (((values (.crField field)).truncate 32 &&& 15) <<< shift)
      else cr)
    (if .cr ∈ mask then (values .cr).truncate 32 else host)

def xerSlots : List (DolIRStateSlot × ℕ) := [(.xerCa,29),(.xerOv,30),(.xerSo,31)]

def commitXer (values : StateValues) (mask : StateMask) (host : BitVec 32) : BitVec 32 :=
  xerSlots.foldl (fun xer (slot,shift) =>
      if slot ∈ mask then
        (xer &&& ~~~(1#32 <<< shift)) ||| (((values slot).truncate 32 &&& 1) <<< shift)
      else xer)
    (if .xer ∈ mask then (host &&& 0xe0000000) ||| ((values .xer).truncate 32 &&& 0x1fffffff)
      else host)

/-- `moderngekko_commit_state`. The general and floating-point registers go to the host in
bulk or one at a time; `pc`, `timebase`, `programException` and `downcount` never go. -/
def commitState (values : StateValues) (mask : StateMask) (s : CPUState) : CPUState :=
  let word (slot : DolIRStateSlot) (host : BitVec 32) : BitVec 32 :=
    if slot ∈ mask then (values slot).truncate 32 else host
  { s with
    gpr := fun r => word (.gpr r) (s.gpr r)
    fpr := fun r => if .fpr r ∈ mask then values (.fpr r) else s.fpr r
    ps1 := fun r => if .ps1 r ∈ mask then values (.ps1 r) else s.ps1 r
    cr := commitCr values mask s.cr
    xer := commitXer values mask s.xer
    lr := word .lr s.lr
    ctr := word .ctr s.ctr
    srr0 := word .srr0 s.srr0
    srr1 := word .srr1 s.srr1
    dar := word .dar s.dar
    dsisr := word .dsisr s.dsisr
    ear := word .ear s.ear
    hid2 := word .hid2 s.hid2
    sr := fun n => word (.sr n) (s.sr n)
    gqr := fun n => word (.gqr n) (s.gqr n)
    fpscr := word .fpscr s.fpscr
    msr := word .msr s.msr
    exception := word .exception s.exception
    reserveAddr := word .reserveAddr s.reserveAddr
    reserveValid :=
      if .reserveValid ∈ mask then (values .reserveValid).truncate 32 != 0#32 else s.reserveValid }

/-- What the host answers for a slot; `none` for a slot without an accessor. -/
def hostValue (s : CPUState) : DolIRStateSlot → Option (BitVec 64)
  | .gpr r => some ((s.gpr r).zeroExtend 64)
  | .fpr r => some (s.fpr r)
  | .ps1 r => some (s.ps1 r)
  | .lr => some (s.lr.zeroExtend 64)
  | .ctr => some (s.ctr.zeroExtend 64)
  | .cr => some (s.cr.zeroExtend 64)
  | .crField field => some (((s.cr >>> (28 - 4 * field.toNat)) &&& 15).zeroExtend 64)
  | .xer => some (s.xer.zeroExtend 64)
  | .xerCa => some (((s.xer >>> 29) &&& 1).zeroExtend 64)
  | .xerOv => some (((s.xer >>> 30) &&& 1).zeroExtend 64)
  | .xerSo => some (((s.xer >>> 31) &&& 1).zeroExtend 64)
  | .fpscr => some (s.fpscr.zeroExtend 64)
  | .msr => some (s.msr.zeroExtend 64)
  | .srr0 => some (s.srr0.zeroExtend 64)
  | .srr1 => some (s.srr1.zeroExtend 64)
  | .dar => some (s.dar.zeroExtend 64)
  | .dsisr => some (s.dsisr.zeroExtend 64)
  | .ear => some (s.ear.zeroExtend 64)
  | .hid2 => some (s.hid2.zeroExtend 64)
  | .sr n => some ((s.sr n).zeroExtend 64)
  | .gqr n => some ((s.gqr n).zeroExtend 64)
  | .exception => some (s.exception.zeroExtend 64)
  | .reserveAddr => some (s.reserveAddr.zeroExtend 64)
  | .reserveValid => some (if s.reserveValid then 1 else 0)
  | .pc | .timebase | .programException | .downcount => none

/-- `moderngekko_reload_state`. -/
def reloadState (s : CPUState) (values : StateValues) (mask : StateMask) : StateValues :=
  fun slot => if slot ∈ mask then (hostValue s slot).getD (values slot) else values slot

/-- The slots that stay staged between two entries: `DOLIR_STATE_GPR0` to
`DOLIR_STATE_PS1_31`. -/
def Persistent : DolIRStateSlot → Prop
  | .gpr _ | .fpr _ | .ps1 _ => True
  | _ => False

instance : DecidablePred Persistent
  | .gpr _ | .fpr _ | .ps1 _ => isTrue trivial
  | .pc | .lr | .ctr | .cr | .crField _ | .xer | .xerCa | .xerOv | .xerSo | .fpscr | .msr | .srr0
  | .srr1 | .dar | .dsisr | .ear | .hid2 | .timebase | .sr _ | .gqr _ | .exception
  | .programException | .reserveAddr | .reserveValid | .downcount => isFalse id

/-- The bits that a persistent slot has in the host. -/
def committed (value : BitVec 64) : DolIRStateSlot → BitVec 64
  | .gpr _ => (value.truncate 32 : BitVec 32).zeroExtend 64
  | _ => value

theorem hostValue_commitState {values : StateValues} {mask : StateMask} (s : CPUState)
    {slot : DolIRStateSlot} (hp : Persistent slot) (hm : slot ∈ mask) :
    hostValue (commitState values mask s) slot = some (committed (values slot) slot) := by
  cases slot <;> simp_all [Persistent,hostValue,commitState,committed]

theorem hostValue_commitState_of_notMem {values : StateValues} {mask : StateMask} (s : CPUState)
    {slot : DolIRStateSlot} (hp : Persistent slot) (hm : slot ∉ mask) :
    hostValue (commitState values mask s) slot = hostValue s slot := by
  cases slot <;> simp_all [Persistent,hostValue,commitState]

theorem reloadState_of_notMem (s : CPUState) (values : StateValues) {mask : StateMask}
    {slot : DolIRStateSlot} (hm : slot ∉ mask) : reloadState s values mask slot = values slot :=
  if_neg hm

end NativeState

end DolRecomp
