import DolRecomp.Decoder

/-!
# The runtime: processor state, guest memory and helper functions

The runtime functions that both backends call. Floating-point registers are
bit patterns. Host callbacks are parameters: a device answers from the history
of guest accesses, the other callbacks act on the whole state.
-/

namespace DolRecomp

def gcMainRamSize : BitVec 32 := 0x01800000
def gcRamBase : BitVec 32 := 0x80000000
def gcRamUncached : BitVec 32 := 0xC0000000
def wiiMem2Size : BitVec 32 := 0x04000000
def wiiMem2Base : BitVec 32 := 0x90000000
def wiiMem2Uncached : BitVec 32 := 0xD0000000

/-- One guest memory access; `value` is what was read or written. -/
structure MemAccess where
  write : Bool
  ea : BitVec 32
  width : Nat
  value : BitVec 64
  deriving DecidableEq, Repr

structure CPUState where
  gpr : BitVec 5 → BitVec 32
  fpr : BitVec 5 → BitVec 64
  ps1 : BitVec 5 → BitVec 64
  pc : BitVec 32
  lr : BitVec 32
  ctr : BitVec 32
  cr : BitVec 32
  xer : BitVec 32
  fpscr : BitVec 32
  msr : BitVec 32
  srr0 : BitVec 32
  srr1 : BitVec 32
  dar : BitVec 32
  dsisr : BitVec 32
  ear : BitVec 32
  hid2 : BitVec 32
  timebase : BitVec 64
  sr : BitVec 4 → BitVec 32
  gqr : BitVec 3 → BitVec 32
  exception : BitVec 32
  programException : BitVec 32
  reserveAddr : BitVec 32
  reserveValid : Bool
  downcount : BitVec 64
  ram : Nat → BitVec 8
  ramSize : BitVec 32
  mem2 : Nat → BitVec 8
  /-- Zero when no MEM2 is allocated. -/
  mem2Size : BitVec 32
  /-- Every guest access so far, the latest first. -/
  history : List MemAccess

/-- The state `cpu_init` sets up: zeroed, with main memory. -/
def cpuInit : CPUState where
  gpr _ := 0
  fpr _ := 0
  ps1 _ := 0
  pc := 0
  lr := 0
  ctr := 0
  cr := 0
  xer := 0
  fpscr := 0
  msr := 0
  srr0 := 0
  srr1 := 0
  dar := 0
  dsisr := 0
  ear := 0
  hid2 := 0
  timebase := 0
  sr _ := 0
  gqr _ := 0
  exception := 0
  programException := 0
  reserveAddr := 0
  reserveValid := false
  downcount := 0
  ram _ := 0
  ramSize := gcMainRamSize
  mem2 _ := 0
  mem2Size := 0
  history := []

/-- The callbacks a host may install. -/
structure Host where
  externalRead : Option (List MemAccess → BitVec 32 → Nat → BitVec 64) := none
  instructionFallback : Option (CPUState → BitVec 32 → BitVec 32 → CPUState) := none
  sprRead : Option (CPUState → BitVec 10 → BitVec 32 → BitVec 32 × CPUState) := none
  sprWrite : Option (CPUState → BitVec 10 → BitVec 32 → BitVec 32 → CPUState) := none

def bswap32 (v : BitVec 32) : BitVec 32 :=
  v.extractLsb' 0 8 ++ v.extractLsb' 8 8 ++ v.extractLsb' 16 8 ++ v.extractLsb' 24 8

def bswap16 (v : BitVec 16) : BitVec 16 := v.extractLsb' 0 8 ++ v.extractLsb' 8 8

namespace CPUState

def setGpr (cpu : CPUState) (r : BitVec 5) (value : BitVec 32) : CPUState :=
  { cpu with gpr := Function.update cpu.gpr r value }

def setFpr (cpu : CPUState) (r : BitVec 5) (value : BitVec 64) : CPUState :=
  { cpu with fpr := Function.update cpu.fpr r value }

def setPs1 (cpu : CPUState) (r : BitVec 5) (value : BitVec 64) : CPUState :=
  { cpu with ps1 := Function.update cpu.ps1 r value }

def setSr (cpu : CPUState) (n : BitVec 4) (value : BitVec 32) : CPUState :=
  { cpu with sr := Function.update cpu.sr n value }

def setGqr (cpu : CPUState) (n : BitVec 3) (value : BitVec 32) : CPUState :=
  { cpu with gqr := Function.update cpu.gqr n value }

@[simp] theorem setGpr_gpr (cpu : CPUState) (r r' : BitVec 5) (value : BitVec 32) :
    (cpu.setGpr r value).gpr r' = if r' = r then value else cpu.gpr r' := by
  simp only [setGpr,Function.update_apply]

end CPUState

namespace Runtime

inductive Region
  | ram | mem2
  deriving DecidableEq, Repr

/-- The region that holds `addr`, the offset in it and the bytes left from there. -/
def resolveAddr (cpu : CPUState) (addr : BitVec 32) : Option (Region × BitVec 32 × BitVec 32) :=
  let within (region : Region) (base size : BitVec 32) :=
    if base ≤ addr ∧ addr < base + size then
      some (region, addr - base, size - (addr - base))
    else none
  within .ram gcRamBase cpu.ramSize <|> within .ram gcRamUncached cpu.ramSize <|>
    if cpu.mem2Size ≠ 0 then
      within .mem2 wiiMem2Base cpu.mem2Size <|> within .mem2 wiiMem2Uncached cpu.mem2Size
    else none

/-- Big-endian value of `width` bytes. -/
def readBe (bytes : Nat → BitVec 8) (offset : Nat) : Nat → BitVec 64
  | 0 => 0
  | n+1 => (readBe bytes offset n <<< 8) ||| (bytes (offset + n)).zeroExtend 64

/-- Store the low `width` bytes of `value` in big-endian order. -/
def writeBe (bytes : Nat → BitVec 8) (offset width : Nat) (value : BitVec 64) : Nat → BitVec 8 :=
  fun n => if offset ≤ n ∧ n < offset + width then
    (value >>> (8*(offset + width - 1 - n))).truncate 8 else bytes n

def truncateWidth (width : Nat) (value : BitVec 64) : BitVec 64 :=
  value &&& BitVec.ofNat 64 (2 ^ (8*width) - 1)

def bytesOf (cpu : CPUState) : Region → Nat → BitVec 8
  | .ram => cpu.ram
  | .mem2 => cpu.mem2

def setBytes (cpu : CPUState) (region : Region) (bytes : Nat → BitVec 8) : CPUState :=
  match region with
  | .ram => { cpu with ram := bytes }
  | .mem2 => { cpu with mem2 := bytes }

/-- A store to the reserved granule, through either alias, ends the reservation. -/
def clearMatchingReservation (cpu : CPUState) (addr : BitVec 32) : CPUState :=
  let reserveAddr := cpu.reserveAddr &&& ~~~0x40000000#32
  let storeAddr := addr &&& ~~~0x40000000#32
  if cpu.reserveValid ∧ (reserveAddr ^^^ storeAddr) &&& ~~~31#32 = 0 then
    { cpu with reserveValid := false }
  else cpu

variable (host : Host)

/-- The value a read of `width` bytes returns; reads outside both regions go to
the device. -/
def memValue (cpu : CPUState) (addr : BitVec 32) (width : Nat) : BitVec 64 :=
  let external := match host.externalRead with
    | some read => truncateWidth width (read cpu.history addr width)
    | none => 0
  match resolveAddr cpu addr with
  | some (region, offset, avail) =>
    if avail.toNat < width then external else readBe (bytesOf cpu region) offset.toNat width
  | none => external

def memRead (cpu : CPUState) (addr : BitVec 32) (width : Nat) : BitVec 64 × CPUState :=
  let value := memValue host cpu addr width
  (value, { cpu with history := ⟨false, addr, width, value⟩ :: cpu.history })

/-- A write outside both regions goes to the device, which sees it in the history. -/
def memWrite (cpu : CPUState) (addr : BitVec 32) (value : BitVec 64) (width : Nat) : CPUState :=
  let cpu := { cpu with history := ⟨true, addr, width, value⟩ :: cpu.history }
  match resolveAddr cpu addr with
  | some (region, offset, avail) =>
    if avail.toNat < width then cpu
    else
      let cpu := clearMatchingReservation cpu addr
      setBytes cpu region (writeBe (bytesOf cpu region) offset.toNat width value)
  | none => cpu

def memRead8 (cpu : CPUState) (addr : BitVec 32) : BitVec 8 × CPUState :=
  ((memRead host cpu addr 1).1.truncate 8, (memRead host cpu addr 1).2)

def memRead16 (cpu : CPUState) (addr : BitVec 32) : BitVec 16 × CPUState :=
  ((memRead host cpu addr 2).1.truncate 16, (memRead host cpu addr 2).2)

def memRead32 (cpu : CPUState) (addr : BitVec 32) : BitVec 32 × CPUState :=
  ((memRead host cpu addr 4).1.truncate 32, (memRead host cpu addr 4).2)

def memWrite8 (cpu : CPUState) (addr : BitVec 32) (value : BitVec 8) : CPUState :=
  memWrite cpu addr (value.zeroExtend 64) 1

def memWrite16 (cpu : CPUState) (addr : BitVec 32) (value : BitVec 16) : CPUState :=
  memWrite cpu addr (value.zeroExtend 64) 2

def memWrite32 (cpu : CPUState) (addr : BitVec 32) (value : BitVec 32) : CPUState :=
  memWrite cpu addr (value.zeroExtend 64) 4

def ppcExcProgram : BitVec 32 := 0x00000001
def ppcExcAlignment : BitVec 32 := 0x00000004
def ppcExcMachineCheck : BitVec 32 := 0x00000010
def ppcExcFpUnavailable : BitVec 32 := 0x00000020
def ppcProgramIllegal : BitVec 32 := 0x00080000
def ppcProgramPriv : BitVec 32 := 0x00040000
def ppcProgramTrap : BitVec 32 := 0x00020000
def ppcVectorAlignment : BitVec 32 := 0x00600
def ppcVectorProgram : BitVec 32 := 0x00700
def ppcVectorFpUnavailable : BitVec 32 := 0x00800
def ppcMsrRfiMask : BitVec 32 := 0x87C0FFFF
def ppcMsrIle : BitVec 32 := 0x00010000
def ppcMsrPr : BitVec 32 := 0x00004000
def ppcMsrFp : BitVec 32 := 0x00002000
def ppcMsrMe : BitVec 32 := 0x00001000
def ppcMsrIp : BitVec 32 := 0x00000040
def ppcMsrLe : BitVec 32 := 0x00000001

/-- POW, EE, PR, FP, FE0, SE, BE, FE1, IR, DR, PM, RI and LE. -/
def ppcMsrExceptionClear : BitVec 32 := 0x0004EF37

def exceptionVectorAddress (msr vector : BitVec 32) : BitVec 32 :=
  (if msr &&& ppcMsrIp ≠ 0 then 0xFFF00000 else 0) + vector

def exceptionMsr (oldMsr exception : BitVec 32) : BitVec 32 :=
  let clear := if exception &&& ppcExcMachineCheck ≠ 0 then ppcMsrExceptionClear ||| ppcMsrMe
    else ppcMsrExceptionClear
  let next := oldMsr &&& ~~~clear
  if oldMsr &&& ppcMsrIle ≠ 0 then next ||| ppcMsrLe else next

def ppcTakeException (cpu : CPUState) (exception vector srr0 srr1Info : BitVec 32) : CPUState :=
  let msr := exceptionMsr cpu.msr exception
  { cpu with
    srr0
    srr1 := (cpu.msr &&& ppcMsrRfiMask) ||| srr1Info
    exception := cpu.exception ||| exception
    msr
    pc := exceptionVectorAddress msr vector }

def ppcProgramException (cpu : CPUState) (cause cia : BitVec 32) : CPUState :=
  ppcTakeException { cpu with programException := cpu.programException ||| cause }
    ppcExcProgram ppcVectorProgram cia cause

def ppcAlignmentException (cpu : CPUState) (ea cia : BitVec 32) : CPUState :=
  ppcTakeException { cpu with dar := ea } ppcExcAlignment ppcVectorAlignment cia 0

/-- The result is false when the exception has been taken. -/
def ppcFpAvailable (cpu : CPUState) (cia : BitVec 32) : Bool × CPUState :=
  if cpu.msr &&& ppcMsrFp ≠ 0 then (true, cpu)
  else (false, ppcTakeException cpu ppcExcFpUnavailable ppcVectorFpUnavailable cia 0)

def ppcFallbackInstruction (cpu : CPUState) (raw cia : BitVec 32) : CPUState :=
  match host.instructionFallback with
  | some fallback => fallback cpu raw cia
  | none => ppcProgramException cpu ppcProgramIllegal cia

def ppcExcSystemCall : BitVec 32 := 0x00000008
def ppcVectorSystemCall : BitVec 32 := 0x00C00
def ppcMsrPow : BitVec 32 := 0x00040000

def ppcSystemCallException (cpu : CPUState) (cia : BitVec 32) : CPUState :=
  ppcTakeException cpu ppcExcSystemCall ppcVectorSystemCall (cia + 4) 0

def ppcRfi (cpu : CPUState) (cia : BitVec 32) : CPUState :=
  if cpu.msr &&& ppcMsrPr ≠ 0 then ppcProgramException cpu ppcProgramPriv cia
  else
    let msr := (cpu.msr &&& ~~~ppcMsrRfiMask) ||| (cpu.srr1 &&& ppcMsrRfiMask)
    { cpu with msr := msr &&& ~~~ppcMsrPow, pc := cpu.srr0 &&& ~~~3#32 }

def ppcMftb (cpu : CPUState) (tbr : BitVec 10) (cia : BitVec 32) : BitVec 32 × CPUState :=
  if tbr = 268 then (cpu.timebase.truncate 32, cpu)
  else if tbr = 269 then ((cpu.timebase >>> 32).truncate 32, cpu)
  else (0, ppcProgramException cpu ppcProgramIllegal cia)

def ppcGekkoPvr : BitVec 32 := 0x00083214

/-- Numbers that `ppc_spr_access` marks readable. -/
def sprReadable (spr : BitVec 10) : Bool :=
  spr.toNat ∈ [22,25,287,1008,1009,1010,1013,1017] ||
    (272 ≤ spr.toNat && spr.toNat ≤ 275) || (528 ≤ spr.toNat && spr.toNat ≤ 543) ||
    (921 ≤ spr.toNat && spr.toNat ≤ 923) || (936 ≤ spr.toNat && spr.toNat ≤ 942) ||
    (952 ≤ spr.toNat && spr.toNat ≤ 958) || (1019 ≤ spr.toNat && spr.toNat ≤ 1022)

/-- The writable numbers: all readable ones but the processor version. -/
def sprWritable (spr : BitVec 10) : Bool := sprReadable spr && spr ≠ 287

def isGqr (spr : BitVec 10) : Bool := 912 ≤ spr.toNat && spr.toNat ≤ 919

def gqrIndex (spr : BitVec 10) : BitVec 3 := (spr - 912).truncate 3

def sprUserReadable (spr : BitVec 10) : Bool := spr.toNat ∈ [1,8,9,268,269]

def sprUserWritable (spr : BitVec 10) : Bool := spr.toNat ∈ [1,8,9]

/-- The registers that `ppc_mfspr` reads from their own field. -/
def sprField (cpu : CPUState) (spr : BitVec 10) : Option (BitVec 32) :=
  match spr.toNat with
  | 1 => some cpu.xer
  | 8 => some cpu.lr
  | 9 => some cpu.ctr
  | 18 => some cpu.dsisr
  | 19 => some cpu.dar
  | 26 => some cpu.srr0
  | 27 => some cpu.srr1
  | 282 => some cpu.ear
  | 920 => some cpu.hid2
  | _ => if isGqr spr then some (cpu.gqr (gqrIndex spr)) else none

def ppcMfspr (cpu : CPUState) (spr : BitVec 10) (cia : BitVec 32) : BitVec 32 × CPUState :=
  if cpu.msr &&& ppcMsrPr ≠ 0 ∧ !sprUserReadable spr then
    (0, ppcProgramException cpu ppcProgramPriv cia)
  else
    match sprField cpu spr with
    | some value => (value, cpu)
    | none =>
      match host.sprRead with
      | some read => if sprReadable spr then read cpu spr cia
          else (0, ppcProgramException cpu ppcProgramIllegal cia)
      | none => if spr = 287 then (ppcGekkoPvr, cpu)
          else (0, ppcProgramException cpu ppcProgramIllegal cia)

/-- The registers that `ppc_mtspr` writes in their own field. -/
def setSprField (cpu : CPUState) (spr : BitVec 10) (value : BitVec 32) : Option CPUState :=
  match spr.toNat with
  | 1 => some { cpu with xer := value }
  | 8 => some { cpu with lr := value }
  | 9 => some { cpu with ctr := value }
  | 18 => some { cpu with dsisr := value }
  | 19 => some { cpu with dar := value }
  | 26 => some { cpu with srr0 := value }
  | 27 => some { cpu with srr1 := value }
  | 282 => some { cpu with ear := value }
  | 284 => some { cpu with
      timebase := (cpu.timebase &&& 0xFFFFFFFF00000000#64) ||| value.zeroExtend 64 }
  | 285 => some { cpu with
      timebase := (value.zeroExtend 64 <<< 32) ||| (cpu.timebase &&& 0xFFFFFFFF#64) }
  | 920 => some { cpu with hid2 := value }
  | _ => if isGqr spr then some (cpu.setGqr (gqrIndex spr) value) else none

def ppcMtspr (cpu : CPUState) (spr : BitVec 10) (value cia : BitVec 32) : CPUState :=
  if cpu.msr &&& ppcMsrPr ≠ 0 ∧ !sprUserWritable spr then ppcProgramException cpu ppcProgramPriv cia
  else
    match setSprField cpu spr value with
    | some cpu => cpu
    | none =>
      match host.sprWrite with
      | some write => if sprWritable spr then write cpu spr value cia
          else ppcProgramException cpu ppcProgramIllegal cia
      | none => ppcProgramException cpu ppcProgramIllegal cia

def wrappedRegisterRangeContains (first : BitVec 5) (count : Nat) (reg : BitVec 5) : Bool :=
  (List.range count).any fun i => (first + BitVec.ofNat 5 i) == reg

/-- Byte `n` of a string transfer goes to byte `n % 4` of register `rD + n/4`. -/
def lswByte (rD : BitVec 5) (ea : BitVec 32) (cpu : CPUState) (n : Nat) : CPUState :=
  let reg := rD + BitVec.ofNat 5 (n / 4)
  let cpu := if n % 4 = 0 then cpu.setGpr reg 0 else cpu
  let (byte, cpu) := memRead8 host cpu (ea + BitVec.ofNat 32 n)
  cpu.setGpr reg (cpu.gpr reg ||| (byte.zeroExtend 32 <<< (24 - 8*(n % 4))))

def lswBytes (rD : BitVec 5) (ea : BitVec 32) (count : Nat) (cpu : CPUState) : CPUState :=
  (List.range count).foldl (lswByte host rD ea) cpu

def ppcLswx (cpu : CPUState) (rD rA rB : BitVec 5) (cia : BitVec 32) : CPUState :=
  let count := (cpu.xer &&& 0x7F#32).toNat
  let regCount := (count + 3) / 4
  if wrappedRegisterRangeContains rD regCount rA ∨ wrappedRegisterRangeContains rD regCount rB then
    ppcProgramException cpu ppcProgramIllegal cia
  else
    let ea := (if rA ≠ 0 then cpu.gpr rA else 0) + cpu.gpr rB
    lswBytes host rD ea count cpu

def ppcStwcxOp (cpu : CPUState) (s : BitVec 5) (ea cia : BitVec 32) : CPUState :=
  if ea &&& 3#32 ≠ 0 then ppcAlignmentException cpu ea cia
  else
    let so := (cpu.xer >>> 31) &&& 1#32
    let success : Bool := cpu.reserveValid && ea = cpu.reserveAddr
    let cpu := if success then { memWrite32 cpu ea (cpu.gpr s) with reserveValid := false } else cpu
    { cpu with
      cr := (cpu.cr &&& 0x0FFFFFFF#32) ||| (((if success then 2#32 else 0#32) ||| so) <<< 28) }

def fpscrVxAny : BitVec 32 := 0x01F80700
def fpscrAnyE : BitVec 32 := 0x000000F8

/-- Recompute the summary bits VX and FEX. -/
def fpscrUpdated (fpscr : BitVec 32) : BitVec 32 :=
  let fpscr := (fpscr &&& ~~~0x20000000#32) |||
    (if fpscr &&& fpscrVxAny ≠ 0 then 0x20000000#32 else 0#32)
  (fpscr &&& ~~~0x40000000#32) |||
    (if (fpscr >>> 22) &&& fpscr &&& fpscrAnyE ≠ 0 then 0x40000000#32 else 0#32)

def ppcFpscrUpdated (cpu : CPUState) : CPUState := { cpu with fpscr := fpscrUpdated cpu.fpscr }

/-- The host rounding mode it also sets is not part of the guest state. -/
def ppcFpscrControlUpdated (cpu : CPUState) : CPUState := ppcFpscrUpdated cpu

def setFpException (cpu : CPUState) (bit : BitVec 32) : CPUState :=
  let fpscr := if cpu.fpscr &&& bit ≠ bit then cpu.fpscr ||| 0x80000000#32 else cpu.fpscr
  ppcFpscrUpdated { cpu with fpscr := fpscr ||| bit }

def ppcMtfsb0Op (cpu : CPUState) (bit : BitVec 5) : CPUState :=
  ppcFpscrControlUpdated { cpu with fpscr := cpu.fpscr &&& ~~~(0x80000000#32 >>> bit.toNat) }

def ppcMtfsb1Op (cpu : CPUState) (bit : BitVec 5) : CPUState :=
  let mask := 0x80000000#32 >>> bit.toNat
  ppcFpscrControlUpdated
    (if mask &&& fpscrVxAny ≠ 0 then setFpException cpu mask
     else { cpu with fpscr := cpu.fpscr ||| mask })

end Runtime

end DolRecomp
