import DolRecomp.FpscrSummary

/-!
# Floating-point helpers

The functions of `cpu.c` that raise floating-point exceptions. Both backends call them. What the
host makes of doubles, and the estimates of reciprocals, are left open: the FPSCR only sees
classes of values and comparisons.
-/

namespace DolRecomp

namespace Fpscr

open DolRecomp.Runtime

abbrev F64 := BitVec 64
abbrev F32 := BitVec 32

/-- The operations of the host on doubles, and the two estimates. -/
structure FloatOps where
  add : F64 → F64 → F64
  sub : F64 → F64 → F64
  mul : F64 → F64 → F64
  div : F64 → F64 → F64
  fma : F64 → F64 → F64 → F64
  fmod : F64 → F64 → F64
  trunc : F64 → F64
  ceil : F64 → F64
  floor : F64 → F64
  lt : F64 → F64 → Bool
  le : F64 → F64 → Bool
  eq : F64 → F64 → Bool
  toSingle : F64 → F32
  fromSingle : F32 → F64
  toWord : F64 → BitVec 32
  approxReciprocal : F64 → F64
  approxRsqrt : F64 → F64

def fpZero : F64 := 0
def fpHalf : F64 := 0x3FE0000000000000
def fpOne : F64 := 0x3FF0000000000000
def fpTwo : F64 := 0x4000000000000000
def fpQuietNan : F64 := 0x7FF8000000000000

def isNan (x : F64) : Bool :=
  x &&& 0x7FF0000000000000#64 = 0x7FF0000000000000#64 ∧ x &&& 0x000FFFFFFFFFFFFF#64 ≠ 0

def isInf (x : F64) : Bool :=
  x &&& 0x7FF0000000000000#64 = 0x7FF0000000000000#64 ∧ x &&& 0x000FFFFFFFFFFFFF#64 = 0

def isFinite (x : F64) : Bool := x &&& 0x7FF0000000000000#64 ≠ 0x7FF0000000000000#64

def isSubnormal (x : F64) : Bool :=
  x &&& 0x7FF0000000000000#64 = 0 ∧ x &&& 0x000FFFFFFFFFFFFF#64 ≠ 0

def isSubnormalSingle (x : F32) : Bool :=
  x &&& 0x7F800000#32 = 0 ∧ x &&& 0x007FFFFF#32 ≠ 0

def isSnan (x : F64) : Bool := isNan x ∧ x &&& 0x0008000000000000#64 = 0

def fpAbs (x : F64) : F64 := x &&& 0x7FFFFFFFFFFFFFFF#64
def fpNeg (x : F64) : F64 := x ^^^ 0x8000000000000000#64
def quietNan (x : F64) : F64 := x ||| 0x0008000000000000#64

def classifyF64 (x : F64) : BitVec 32 :=
  let sign := x.getLsbD 63
  if x &&& 0x7FF0000000000000#64 = 0x7FF0000000000000#64 then
    if x &&& 0x000FFFFFFFFFFFFF#64 ≠ 0 then 0x11 else if sign then 0x09 else 0x05
  else if x &&& 0x7FF0000000000000#64 = 0 then
    if x &&& 0x000FFFFFFFFFFFFF#64 ≠ 0 then if sign then 0x18 else 0x14
    else if sign then 0x12 else 0x02
  else if sign then 0x08 else 0x04

def classifyF32 (x : F32) : BitVec 32 :=
  let sign := x.getLsbD 31
  if x &&& 0x7F800000#32 = 0x7F800000#32 then
    if x &&& 0x007FFFFF#32 ≠ 0 then 0x11 else if sign then 0x09 else 0x05
  else if x &&& 0x7F800000#32 = 0 then
    if x &&& 0x007FFFFF#32 ≠ 0 then if sign then 0x18 else 0x14
    else if sign then 0x12 else 0x02
  else if sign then 0x08 else 0x04

def clearFpscr (cpu : CPUState) (mask : BitVec 32) : CPUState :=
  { cpu with fpscr := cpu.fpscr &&& ~~~mask }

def orFpscr (cpu : CPUState) (mask : BitVec 32) : CPUState :=
  { cpu with fpscr := cpu.fpscr ||| mask }

def hasFpscr (cpu : CPUState) (mask : BitVec 32) : Bool := cpu.fpscr &&& mask ≠ 0

def setFprf (cpu : CPUState) (value : BitVec 32) : CPUState :=
  { cpu with fpscr := (cpu.fpscr &&& ~~~(0x1F#32 <<< 12)) ||| ((value &&& 0x1F#32) <<< 12) }

def fpscrZX : BitVec 32 := 0x04000000
def fpscrXX : BitVec 32 := 0x02000000
def fpscrVXSNAN : BitVec 32 := 0x01000000
def fpscrVXISI : BitVec 32 := 0x00800000
def fpscrVXIDI : BitVec 32 := 0x00400000
def fpscrVXZDZ : BitVec 32 := 0x00200000
def fpscrVXIMZ : BitVec 32 := 0x00100000
def fpscrVXVC : BitVec 32 := 0x00080000
def fpscrVXSQRT : BitVec 32 := 0x00000200
def fpscrVXCVI : BitVec 32 := 0x00000100
def fpscrFR : BitVec 32 := 0x00040000
def fpscrFI : BitVec 32 := 0x00020000
def fpscrVE : BitVec 32 := 0x00000080
def fpscrZE : BitVec 32 := 0x00000010
def fpscrNI : BitVec 32 := 0x00000004

def raiseWhen (p : Bool) (bit : BitVec 32) (cpu : CPUState) : CPUState :=
  if p then setFpException cpu bit else cpu

def clearWhen (p : Bool) (mask : BitVec 32) (cpu : CPUState) : CPUState :=
  if p then clearFpscr cpu mask else cpu

section

variable (F : FloatOps)

/-- `ppc_fres`; without a result where it returns false. -/
def ppcFres (cpu : CPUState) (value : F64) : CPUState × Option F64 :=
  let (cpu,stopped) : CPUState × Bool :=
    if F.eq value fpZero then
      let cpu := clearFpscr (setFpException cpu fpscrZX) 0x6000
      (cpu,hasFpscr cpu fpscrZE)
    else if isSnan value then
      let cpu := clearFpscr (setFpException cpu fpscrVXSNAN) 0x6000
      (cpu,hasFpscr cpu fpscrVE)
    else (clearWhen (isNan value || isInf value) 0x6000 cpu,false)
  if stopped then (cpu,none)
  else
    let result := F.approxReciprocal value
    (setFprf cpu (classifyF32 (F.toSingle result)),some result)

def ppcFrsqrte (cpu : CPUState) (value : F64) : CPUState × Option F64 :=
  let (cpu,stopped) : CPUState × Bool :=
    if F.lt value fpZero then
      let cpu := clearFpscr (setFpException cpu fpscrVXSQRT) 0x6000
      (cpu,hasFpscr cpu fpscrVE)
    else if F.eq value fpZero then
      let cpu := clearFpscr (setFpException cpu fpscrZX) 0x6000
      (cpu,hasFpscr cpu fpscrZE)
    else if isSnan value then
      let cpu := clearFpscr (setFpException cpu fpscrVXSNAN) 0x6000
      (cpu,hasFpscr cpu fpscrVE)
    else (clearWhen (isNan value || isInf value) 0x6000 cpu,false)
  if stopped then (cpu,none)
  else
    let result := F.approxRsqrt value
    (setFprf cpu (classifyF64 result),some result)

def ppcPsRes (cpu : CPUState) (a b : F64) : CPUState × F64 × F64 :=
  let zero := F.eq a fpZero || F.eq b fpZero
  let cpu := clearWhen zero 0x6000 (raiseWhen zero fpscrZX cpu)
  let cpu := raiseWhen (isSnan a || isSnan b) fpscrVXSNAN cpu
  let cpu := clearWhen (isNan a || isInf a || isNan b || isInf b) 0x6000 cpu
  let resultA := F.approxReciprocal a
  (setFprf cpu (classifyF32 (F.toSingle resultA)),resultA,F.approxReciprocal b)

def ppcPsRsqrte (cpu : CPUState) (a b : F64) : CPUState × F64 × F64 :=
  let zero := F.eq a fpZero || F.eq b fpZero
  let cpu := clearWhen zero 0x6000 (raiseWhen zero fpscrZX cpu)
  let negative := F.lt a fpZero || F.lt b fpZero
  let cpu := clearWhen negative 0x6000 (raiseWhen negative fpscrVXSQRT cpu)
  let cpu := raiseWhen (isSnan a || isSnan b) fpscrVXSNAN cpu
  let cpu := clearWhen (isNan a || isInf a || isNan b || isInf b) 0x6000 cpu
  let resultA := F.approxRsqrt a
  (setFprf cpu (classifyF32 (F.toSingle resultA)),resultA,F.approxRsqrt b)

/-- `leading_zeroes_u64` of a value that is not zero. -/
def leadingZeroesU64 (value : BitVec 64) : ℕ := 63 - value.toNat.log2

def force25Bit (value : F64) : F64 :=
  let fraction := value &&& 0x000FFFFFFFFFFFFF#64
  let (keepMask,round) : BitVec 64 × BitVec 64 :=
    if value &&& 0x7FF0000000000000#64 = 0 ∧ fraction ≠ 0 then
      let shift := leadingZeroesU64 fraction - 11
      if shift < 28 then (~~~((1#64 <<< (27 - shift)) - 1),0x0000000008000000#64 >>> shift)
      else (BitVec.allOnes 64,0)
    else (0xFFFFFFFFF8000000,0x0000000008000000)
  (value &&& keepMask) + (value &&& round)

def correctSingleFmaTie (a c addend result : F64) : F64 :=
  if result &&& 0x000000001FFFFFFF#64 ≠ 0x0000000010000000#64 then result
  else
    let aPrime := F.sub addend result
    let bPrime := F.add result aPrime
    let error := F.add (F.fma a c aPrime) (F.sub addend bPrime)
    if F.eq error fpZero then result
    else if F.lt fpZero error = F.lt fpZero result then result + 1 else result - 1

def singleFmaValue (cpu : CPUState) (a c addend : F64) : F64 :=
  let roundedC := force25Bit c
  let result := F.fma a roundedC addend
  if cpu.fpscr &&& 3#32 = 0 then correctSingleFmaTie F a roundedC addend result else result

def ppcFma (cpu : CPUState) (a c b : F64) (single subtract negative : Bool) :
    CPUState × Option F64 :=
  let addend := if subtract then fpNeg b else b
  let result := if single then F.fromSingle (F.toSingle (singleFmaValue F cpu a c addend))
    else F.fma a c addend
  let (cpu,result,stopped) : CPUState × F64 × Bool :=
    if isNan result then
      let snan := if isSnan a || isSnan b || isSnan c then fpscrVXSNAN else 0
      let cpu := clearFpscr cpu 0x6000
      let (result,invalid) : F64 × BitVec 32 :=
        if isNan a then (quietNan a,snan)
        else if isNan b then (quietNan b,snan)
        else if isNan c then (quietNan c,snan)
        else
          let invalidMultiply := (F.eq a fpZero && isInf c) || (isInf a && F.eq c fpZero)
          (fpQuietNan,snan ||| if invalidMultiply then fpscrVXIMZ else fpscrVXISI)
      let cpu := raiseWhen (invalid ≠ 0) invalid cpu
      (cpu,result,invalid ≠ 0 && hasFpscr cpu fpscrVE)
    else (clearWhen (isInf a || isInf b || isInf c) 0x6000 cpu,result,false)
  if stopped then (cpu,none)
  else
    let result := if negative && !isNan result then fpNeg result else result
    (setFprf cpu (if single then classifyF32 (F.toSingle result) else classifyF64 result),
      some result)

def roundNearestEven (value : F64) : F64 :=
  let lo := F.floor value
  let fraction := F.sub value lo
  if F.lt fraction fpHalf then lo
  else if F.lt fpHalf fraction then F.add lo fpOne
  else if F.eq (F.fmod lo fpTwo) fpZero then lo else F.add lo fpOne

/-- The switch over the rounding mode in `ppc_fctiw`. -/
def fctiwRounded (cpu : CPUState) (value : F64) (towardZero : Bool) : F64 :=
  let mode : BitVec 32 := if towardZero then 1 else cpu.fpscr &&& 3#32
  if mode = 1 then F.trunc value
  else if mode = 2 then F.ceil value
  else if mode = 3 then F.floor value
  else roundNearestEven F value

def ppcFctiw (cpu : CPUState) (value : F64) (towardZero : Bool) : CPUState × Option (BitVec 64) :=
  let rounded := fctiwRounded F cpu value towardZero
  let nan := isNan value
  let cpu := raiseWhen (nan && isSnan value) fpscrVXSNAN cpu
  let (result,invalid) : BitVec 32 × Bool :=
    if nan then (0x80000000,true)
    else if F.le 0x41E0000000000000 rounded then (0x7FFFFFFF,true)
    else if F.lt rounded 0xC1E0000000000000 then (0x80000000,true)
    else (F.toWord rounded,false)
  let cpu := clearFpscr cpu 0x6000
  let cpu :=
    if invalid then setFpException cpu fpscrVXCVI
    else if !F.eq rounded value then
      let cpu := orFpscr (setFpException cpu fpscrXX) 0x4000
      if F.lt (fpAbs value) (fpAbs rounded) then orFpscr cpu 0x2000 else cpu
    else cpu
  if invalid && hasFpscr cpu fpscrVE then (cpu,none)
  else (cpu,some (0xFFF8000000000000#64 ||| result.zeroExtend 64 |||
    if result = 0 ∧ value.getLsbD 63 = true then 0x100000000#64 else 0#64))

def ppcFcmp (cpu : CPUState) (crfd : BitVec 3) (a b : F64) (ordered : Bool) : CPUState :=
  let (compare,cpu) : BitVec 32 × CPUState :=
    if isNan a || isNan b then
      if isSnan a || isSnan b then
        let cpu := setFpException cpu fpscrVXSNAN
        (1,raiseWhen (ordered && !hasFpscr cpu fpscrVE) fpscrVXVC cpu)
      else (1,raiseWhen ordered fpscrVXVC cpu)
    else if F.lt a b then (8,cpu)
    else if F.lt b a then (4,cpu)
    else (2,cpu)
  let shift := 4*(7 - crfd.toNat)
  { cpu with
    fpscr := (cpu.fpscr &&& ~~~(0xF#32 <<< 12)) ||| (compare <<< 12)
    cr := (cpu.cr &&& ~~~(0xF#32 <<< shift)) ||| (compare <<< shift) }

inductive FPBinaryOp
  | add | sub | mul | div
  deriving DecidableEq

structure FPBinaryResult where
  value : F64
  exception : BitVec 32

def clearFiFr (cpu : CPUState) : CPUState := clearFpscr cpu (fpscrFI ||| fpscrFR)

def forceSingle (cpu : CPUState) (value : F64) : F32 :=
  if hasFpscr cpu fpscrNI ∧ value &&& 0x7FFFFFFFFFFFFFFF#64 < 0x3810000000000000#64 then
    (value >>> 32).truncate 32 &&& 0x80000000#32
  else
    let result := F.toSingle value
    if hasFpscr cpu fpscrNI ∧ isSubnormalSingle result then result &&& 0x80000000#32 else result

def forceDouble (cpu : CPUState) (value : F64) : F64 :=
  if hasFpscr cpu fpscrNI ∧ isSubnormal value then value &&& 0x8000000000000000#64 else value

def setFiFr (cpu : CPUState) (exact rounded : F64) : CPUState :=
  let cpu := clearFiFr cpu
  if isNan exact || F.eq exact rounded then cpu
  else
    let cpu := orFpscr (setFpException cpu fpscrXX) fpscrFI
    if F.lt (fpAbs exact) (fpAbs rounded) then orFpscr cpu fpscrFR else cpu

def FPBinaryOp.eval : FPBinaryOp → F64 → F64 → F64
  | .add => F.add
  | .sub => F.sub
  | .mul => F.mul
  | .div => F.div

def binaryFp (cpu : CPUState) (op : FPBinaryOp) (a b : F64) : CPUState × FPBinaryResult :=
  let value := op.eval F a b
  let (cpu,result) : CPUState × FPBinaryResult :=
    if op = .div ∧ isInf value ∧ F.eq b fpZero then (cpu,⟨value,fpscrZX⟩)
    else if isNan value then
      let snan := if isSnan a || isSnan b then fpscrVXSNAN else 0
      (clearFiFr cpu,
        if isNan a then ⟨quietNan a,snan⟩
        else if isNan b then ⟨quietNan b,snan⟩
        else match op with
          | .mul => ⟨fpQuietNan,fpscrVXIMZ⟩
          | .div => ⟨fpQuietNan,if F.eq b fpZero then fpscrVXZDZ else fpscrVXIDI⟩
          | _ => ⟨fpQuietNan,fpscrVXISI⟩)
    else (if (op = .add ∨ op = .sub) ∧ (isInf a ∨ isInf b) then clearFiFr cpu else cpu,⟨value,0⟩)
  (raiseWhen (result.exception ≠ 0) result.exception cpu,result)

def binaryResultEnabled (cpu : CPUState) (result : FPBinaryResult) : Bool :=
  let invalid := fpscrVXSNAN ||| fpscrVXISI ||| fpscrVXIDI ||| fpscrVXZDZ ||| fpscrVXIMZ
  if result.exception &&& invalid ≠ 0 ∧ hasFpscr cpu fpscrVE then false
  else if result.exception = fpscrZX ∧ hasFpscr cpu fpscrZE then false
  else true

def writeSingleResult (cpu : CPUState) (d : BitVec 5) (value : F32) : CPUState :=
  setFprf ((cpu.setFpr d (F.fromSingle value)).setPs1 d (F.fromSingle value)) (classifyF32 value)

def binarySingle (cpu : CPUState) (d : BitVec 5) (a b : F64) (op : FPBinaryOp) : CPUState :=
  let (cpu,result) := binaryFp F cpu op a b
  if !binaryResultEnabled cpu result then cpu
  else
    let rounded := forceSingle F cpu result.value
    let cpu := if isFinite result.value then setFiFr F cpu result.value (F.fromSingle rounded)
      else cpu
    writeSingleResult F cpu d rounded

def binaryDouble (cpu : CPUState) (d : BitVec 5) (a b : F64) (op : FPBinaryOp) : CPUState :=
  let (cpu,result) := binaryFp F cpu op a b
  if !binaryResultEnabled cpu result then cpu
  else
    let value := forceDouble cpu result.value
    let cpu := cpu.setFpr d value
    let cpu := if op = .mul then clearFiFr cpu else cpu
    setFprf cpu (classifyF64 value)

def ppcFrsp (cpu : CPUState) (d b : BitVec 5) : CPUState :=
  let value := cpu.fpr b
  let rounded := forceSingle F cpu value
  if isNan value then
    let snan := isSnan value
    let cpu := clearFiFr (raiseWhen snan fpscrVXSNAN cpu)
    if snan && hasFpscr cpu fpscrVE then cpu else writeSingleResult F cpu d rounded
  else writeSingleResult F (setFiFr F cpu value (F.fromSingle rounded)) d rounded

end

/-- What holds of the FPSCR whatever steps the helpers take. -/
structure HelperClosed (P : BitVec 32 → Prop) : Prop where
  exception : ∀ (cpu : CPUState) (bit : BitVec 32), P cpu.fpscr → P (setFpException cpu bit).fpscr
  clear : ∀ x mask, mask ∈ [0x6000,fpscrFI ||| fpscrFR] → P x → P (x &&& ~~~mask)
  set : ∀ x mask, mask ∈ [0x4000,0x2000,fpscrFI,fpscrFR] → P x → P (x ||| mask)
  fprf : ∀ x mask value, mask ∈ [0x1F#32,0xF#32] → value &&& 0x1F#32 = value → P x →
    P ((x &&& ~~~(mask <<< 12)) ||| (value <<< 12))

section

variable {P : BitVec 32 → Prop} (hP : HelperClosed P) {F : FloatOps} {cpu : CPUState}
  (h : P cpu.fpscr)

include hP h

theorem closed_clear : P (clearFpscr cpu 0x6000).fpscr := hP.clear _ _ (by decide) h

theorem closed_raiseWhen (p : Bool) (bit : BitVec 32) : P (raiseWhen p bit cpu).fpscr := by
  unfold raiseWhen
  split
  · exact hP.exception _ _ h
  · exact h

theorem closed_clearWhen (p : Bool) : P (clearWhen p 0x6000 cpu).fpscr := by
  unfold clearWhen
  split
  · exact closed_clear hP h
  · exact h

theorem closed_setFprf (value : BitVec 32) : P (setFprf cpu value).fpscr :=
  hP.fprf _ _ _ (by decide) (by rw [BitVec.and_assoc,BitVec.and_self]) h

theorem closed_clearFiFr : P (clearFiFr cpu).fpscr := hP.clear _ _ (by decide) h

theorem closed_setFiFr (exact rounded : F64) : P (setFiFr F cpu exact rounded).fpscr := by
  have hcleared := closed_clearFiFr hP h
  unfold setFiFr
  dsimp only
  split
  · exact hcleared
  · have hset : P (orFpscr (setFpException (clearFiFr cpu) fpscrXX) fpscrFI).fpscr :=
      hP.set _ _ (by decide) (hP.exception _ _ hcleared)
    split
    · exact hP.set _ _ (by decide) hset
    · exact hset

theorem closed_writeSingleResult (d : BitVec 5) (value : F32) :
    P (writeSingleResult F cpu d value).fpscr :=
  @closed_setFprf _ hP ((cpu.setFpr d _).setPs1 d _) h _

/-- What `ppc_fres` and its like do where an exception is raised. -/
theorem closed_raised (bit : BitVec 32) : P (clearFpscr (setFpException cpu bit) 0x6000).fpscr :=
  closed_clear hP (hP.exception _ _ h)

omit h in
/-- A result and its class, unless an enabled exception stopped the helper. -/
theorem closed_finish {α : Type} {x : CPUState × Bool} (hx : P x.1.fpscr)
    (value : BitVec 32) (result : α) :
    P (if x.2 = true then (x.1,none) else (setFprf x.1 value,some result) :
      CPUState × Option α).1.fpscr := by
  split
  · exact hx
  · exact closed_setFprf hP hx _

theorem closed_ppcFres (value : F64) : P (ppcFres F cpu value).1.fpscr := by
  unfold ppcFres
  dsimp only
  refine closed_finish hP ?_ _ _
  split
  · exact closed_raised hP h _
  · split
    · exact closed_raised hP h _
    · exact closed_clearWhen hP h _

theorem closed_ppcFrsqrte (value : F64) : P (ppcFrsqrte F cpu value).1.fpscr := by
  unfold ppcFrsqrte
  dsimp only
  refine closed_finish hP ?_ _ _
  split
  · exact closed_raised hP h _
  · split
    · exact closed_raised hP h _
    · split
      · exact closed_raised hP h _
      · exact closed_clearWhen hP h _

theorem closed_ppcPsRes (a b : F64) : P (ppcPsRes F cpu a b).1.fpscr := by
  unfold ppcPsRes
  refine closed_setFprf hP (closed_clearWhen hP (closed_raiseWhen hP ?_ _ _) _) _
  exact closed_clearWhen hP (closed_raiseWhen hP h _ _) _

theorem closed_ppcPsRsqrte (a b : F64) : P (ppcPsRsqrte F cpu a b).1.fpscr := by
  unfold ppcPsRsqrte
  refine closed_setFprf hP (closed_clearWhen hP (closed_raiseWhen hP ?_ _ _) _) _
  refine closed_clearWhen hP (closed_raiseWhen hP ?_ _ _) _
  exact closed_clearWhen hP (closed_raiseWhen hP h _ _) _

theorem closed_ppcFma (a c b : F64) (single subtract negative : Bool) :
    P (ppcFma F cpu a c b single subtract negative).1.fpscr := by
  have hcleared := closed_clear hP h
  unfold ppcFma
  dsimp only
  generalize (if single then F.fromSingle _ else _ : F64) = result
  by_cases hnan : isNan result = true
  · simp only [if_pos hnan]
    generalize (if isNan a = true then _ else _ : F64 × BitVec 32) = quieted
    split
    · exact closed_raiseWhen hP hcleared _ _
    · exact closed_setFprf hP (closed_raiseWhen hP hcleared _ _) _
  · simp only [if_neg hnan,Bool.false_eq_true,if_false]
    exact closed_setFprf hP (closed_clearWhen hP h _) _

theorem closed_ppcFctiw (value : F64) (towardZero : Bool) :
    P (ppcFctiw F cpu value towardZero).1.fpscr := by
  unfold ppcFctiw
  dsimp only
  generalize (if isNan value = true then _ else _ : BitVec 32 × Bool) = converted
  have hcleared := closed_clear hP
    (closed_raiseWhen hP h (isNan value && isSnan value) fpscrVXSNAN)
  have hmain : ∀ x : CPUState, P x.fpscr → ∀ (p : Bool) (r : BitVec 64),
      P (if p = true then (x,none) else (x,some r) :
        CPUState × Option (BitVec 64)).1.fpscr := fun x hx p r => by
    split <;> exact hx
  refine hmain _ ?_ _ _
  split
  · exact hP.exception _ _ hcleared
  · split
    · have hset : P (orFpscr (setFpException (clearFpscr
          (raiseWhen (isNan value && isSnan value) fpscrVXSNAN cpu) 0x6000) fpscrXX) 0x4000).fpscr :=
        hP.set _ _ (by decide) (hP.exception _ _ hcleared)
      split
      · exact hP.set _ _ (by decide) hset
      · exact hset
    · exact hcleared

theorem closed_ppcFcmp (crfd : BitVec 3) (a b : F64) (ordered : Bool) :
    P (ppcFcmp F cpu crfd a b ordered).fpscr := by
  unfold ppcFcmp
  dsimp only
  have hmain : ∀ x : BitVec 32 × CPUState, P x.2.fpscr → x.1 ∈ [1,2,4,8] →
      P ((x.2.fpscr &&& ~~~(0xF#32 <<< 12)) ||| (x.1 <<< 12)) := by
    intro x hx hm
    refine hP.fprf _ _ _ (by decide) ?_ hx
    simp only [List.mem_cons,List.not_mem_nil,or_false] at hm
    rcases hm with hm | hm | hm | hm <;> rw [hm] <;> rfl
  refine hmain _ ?_ ?_
  · split
    · split
      · exact closed_raiseWhen hP (hP.exception _ _ h) _ _
      · exact closed_raiseWhen hP h _ _
    · split
      · exact h
      · split <;> exact h
  · split
    · split <;> simp
    · split
      · simp
      · split <;> simp

theorem closed_binaryFp (op : FPBinaryOp) (a b : F64) : P (binaryFp F cpu op a b).1.fpscr := by
  unfold binaryFp
  refine closed_raiseWhen hP ?_ _ _
  split
  · exact h
  · split
    · exact closed_clearFiFr hP h
    · show P (if _ then _ else _ : CPUState).fpscr
      split
      · exact closed_clearFiFr hP h
      · exact h

theorem closed_binarySingle (d : BitVec 5) (a b : F64) (op : FPBinaryOp) :
    P (binarySingle F cpu d a b op).fpscr := by
  have hresult := @closed_binaryFp _ hP F _ h op a b
  unfold binarySingle
  dsimp only
  split
  · exact hresult
  · refine closed_writeSingleResult hP ?_ _ _
    split
    · exact closed_setFiFr hP hresult _ _
    · exact hresult

theorem closed_binaryDouble (d : BitVec 5) (a b : F64) (op : FPBinaryOp) :
    P (binaryDouble F cpu d a b op).fpscr := by
  have hresult := @closed_binaryFp _ hP F _ h op a b
  unfold binaryDouble
  dsimp only
  split
  · exact hresult
  · refine closed_setFprf hP ?_ _
    split
    · exact @closed_clearFiFr _ hP ((binaryFp F cpu op a b).1.setFpr d _) hresult
    · exact hresult

theorem closed_ppcFrsp (d b : BitVec 5) : P (ppcFrsp F cpu d b).fpscr := by
  have hcleared := closed_clearFiFr hP (closed_raiseWhen hP h (isSnan (cpu.fpr b)) fpscrVXSNAN)
  unfold ppcFrsp
  dsimp only
  split
  · split
    · exact hcleared
    · exact closed_writeSingleResult hP hcleared _ _
  · exact closed_writeSingleResult hP (closed_setFiFr hP h _ _) _ _

end

inductive ArithmeticHelper
  | fres (value : F64)
  | frsqrte (value : F64)
  | psRes (a b : F64)
  | psRsqrte (a b : F64)
  | fma (a c b : F64) (single subtract negative : Bool)
  | fctiw (value : F64) (towardZero : Bool)
  | fcmp (crfd : BitVec 3) (a b : F64) (ordered : Bool)
  | binarySingle (op : FPBinaryOp) (d a b : BitVec 5)
  | binaryDouble (op : FPBinaryOp) (d a b : BitVec 5)
  | frsp (d b : BitVec 5)

def ArithmeticHelper.run (F : FloatOps) (cpu : CPUState) : ArithmeticHelper → CPUState
  | .fres value => (ppcFres F cpu value).1
  | .frsqrte value => (ppcFrsqrte F cpu value).1
  | .psRes a b => (ppcPsRes F cpu a b).1
  | .psRsqrte a b => (ppcPsRsqrte F cpu a b).1
  | .fma a c b single subtract negative => (ppcFma F cpu a c b single subtract negative).1
  | .fctiw value towardZero => (ppcFctiw F cpu value towardZero).1
  | .fcmp crfd a b ordered => ppcFcmp F cpu crfd a b ordered
  | .binarySingle op d a b =>
    Fpscr.binarySingle F cpu d (cpu.fpr a)
      (if op = .mul then force25Bit (cpu.fpr b) else cpu.fpr b) op
  | .binaryDouble op d a b => Fpscr.binaryDouble F cpu d (cpu.fpr a) (cpu.fpr b) op
  | .frsp d b => ppcFrsp F cpu d b

theorem HelperClosed.helper {P : BitVec 32 → Prop} (hP : HelperClosed P) (F : FloatOps)
    {cpu : CPUState} (h : P cpu.fpscr) (call : ArithmeticHelper) : P (call.run F cpu).fpscr := by
  cases call with
  | fres => exact closed_ppcFres hP h _
  | frsqrte => exact closed_ppcFrsqrte hP h _
  | psRes => exact closed_ppcPsRes hP h _ _
  | psRsqrte => exact closed_ppcPsRsqrte hP h _ _
  | fma => exact closed_ppcFma hP h _ _ _ _ _ _
  | fctiw => exact closed_ppcFctiw hP h _ _
  | fcmp => exact closed_ppcFcmp hP h _ _ _ _
  | binarySingle => exact closed_binarySingle hP h _ _ _ _
  | binaryDouble => exact closed_binaryDouble hP h _ _ _ _
  | frsp => exact closed_ppcFrsp hP h _ _

/-- FPRF, FI and FR. -/
def classBits : List ℕ := [12,13,14,15,16,17,18]

/-- A step on FPRF, FI and FR is one of these. -/
theorem HelperClosed.of_bits {P : BitVec 32 → Prop}
    (exception : ∀ (cpu : CPUState) (bit : BitVec 32), P cpu.fpscr →
      P (setFpException cpu bit).fpscr)
    (congr : ∀ x y, (∀ n, n ∉ classBits → y.getLsbD n = x.getLsbD n) → P x → P y) :
    HelperClosed P := by
  have hwide : ∀ (x y : BitVec 32), (∀ n < 32, n ∉ classBits → y.getLsbD n = x.getLsbD n) →
      P x → P y := fun x y h => congr x y fun n hn => by
    by_cases hlt : n < 32
    · exact h n hlt hn
    · rw [BitVec.getLsbD_of_ge _ _ (by omega),BitVec.getLsbD_of_ge _ _ (by omega)]
  refine ⟨exception,fun x mask hm => hwide _ _ fun n hn hc => ?_,
    fun x mask hm => hwide _ _ fun n hn hc => ?_,
    fun x mask value hm hv => hwide _ _ fun n hn hc => ?_⟩
  · have hmask : ∀ n < 32, n ∉ classBits → (~~~0x6000#32).getLsbD n = true ∧
        (~~~(fpscrFI ||| fpscrFR)).getLsbD n = true := by decide
    have hkept : (~~~mask).getLsbD n = true := by
      simp only [List.mem_cons,List.not_mem_nil,or_false] at hm
      rcases hm with rfl | rfl
      · exact (hmask n hn hc).1
      · exact (hmask n hn hc).2
    rw [BitVec.getLsbD_and,hkept,Bool.and_true]
  · have hmask : ∀ n < 32, n ∉ classBits → (0x4000#32).getLsbD n = false ∧
        (0x2000#32).getLsbD n = false ∧ fpscrFI.getLsbD n = false ∧
        fpscrFR.getLsbD n = false := by decide
    have hkept : mask.getLsbD n = false := by
      simp only [List.mem_cons,List.not_mem_nil,or_false] at hm
      rcases hm with rfl | rfl | rfl | rfl
      · exact (hmask n hn hc).1
      · exact (hmask n hn hc).2.1
      · exact (hmask n hn hc).2.2.1
      · exact (hmask n hn hc).2.2.2
    rw [BitVec.getLsbD_or,hkept,Bool.or_false]
  · have hmask : ∀ n < 32, n ∉ classBits → (~~~(0x1F#32 <<< 12)).getLsbD n = true ∧
        (~~~(0xF#32 <<< 12)).getLsbD n = true ∧
        (n < 12 ∨ (0x1F#32).getLsbD (n - 12) = false) := by decide
    obtain ⟨hlong,hshort,hlow⟩ := hmask n hn hc
    have hkept : (~~~(mask <<< 12)).getLsbD n = true := by
      simp only [List.mem_cons,List.not_mem_nil,or_false] at hm
      rcases hm with rfl | rfl
      · exact hlong
      · exact hshort
    have hvalue : (value <<< 12).getLsbD n = false := by
      rw [BitVec.getLsbD_shiftLeft]
      rcases hlow with hlt | hzero
      · simp [hlt]
      · rw [← hv,BitVec.getLsbD_and,hzero,Bool.and_false,Bool.and_false]
    rw [BitVec.getLsbD_or,BitVec.getLsbD_and,hkept,hvalue,Bool.and_true,Bool.or_false]

theorem consistent_closed : HelperClosed Consistent :=
  .of_bits (fun _ _ _ => consistent_fpscrUpdated _) fun _ _ h hx => hx.congr fun n hn =>
    h n (by revert n; decide)

theorem consistent_helper (F : FloatOps) {cpu : CPUState} (h : Consistent cpu.fpscr)
    (call : ArithmeticHelper) : Consistent (call.run F cpu).fpscr :=
  consistent_closed.helper F h call

end Fpscr

end DolRecomp
