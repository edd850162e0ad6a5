import Mathlib.Data.BitVec
import Mathlib.Tactic

/-!
# Instruction words and the decoder

`ppcDecode` splits a host-endian instruction word into the fields of `PPCInst`.
Register numbers and other bit fields carry their width in their type.
-/

namespace DolRecomp

/-- Opcodes in the order of the source enumeration. -/
inductive PPCOpcode
  | unknown | mulli | subfic | addi | addic | addicDot | addis | cmpi | cmpli | ori | oris | xori
  | xoris | andi | andis | lwz | lwzu | lbz | lbzu | stw | stwu | stb | stbu | lhz | lhzu | lha
  | lhau | sth | sthu | lmw | stmw | b | bc | bclr | bcctr | sc | rfi | crand | crandc | creqv
  | crnand | crnor | cror | crorc | crxor | mcrf | mfcr | mtcrf | mfspr | mtspr | mftb | cmp
  | cmpl | twi | tw | add | addo | addc | addco | adde | addeo | addme | addmeo | addze | addzeo
  | subf | subfo | subfc | subfco | subfe | subfeo | subfme | subfmeo | subfze | subfzeo | neg
  | nego | and | andc | or | orc | xor | nand | nor | eqv | cntlzw | extsb | extsh | slw | srw
  | sraw | srawi | rlwinm | rlwnm | rlwimi | lwzx | lwzux | lbzx | lbzux | lhzx | lhzux | lhax
  | lhaux | lwbrx | lhbrx | stwx | stwux | stbx | stbux | sthx | sthux | stwbrx | sthbrx | lswi
  | lswx | stswi | stswx | lwarx | stwcx | stfiwx | lfs | lfsu | lfd | lfdu | stfs | stfsu | stfd
  | stfdu | lfsx | lfsux | lfdx | lfdux | stfsx | stfsux | stfdx | stfdux | fadds | fsubs | fmuls
  | fdivs | fres | fmadds | fmsubs | fnmadds | fnmsubs | fadd | fsub | fmul | fdiv | frsqrte
  | fmadd | fmsub | fnmadd | fnmsub | fctiw | fctiwz | fmr | fneg | fabs | fnabs | frsp | fsel
  | fcmpu | fcmpo | mtfsb0 | mtfsb1 | mcrfs | mffs | mtfsf | mtfsfi | psqL | psqLu | psqSt
  | psqStu | psqLx | psqLux | psqStx | psqStux | psAdd | psSub | psMul | psDiv | psRes | psRsqrte
  | psMadd | psMsub | psNmadd | psNmsub | psNeg | psAbs | psNabs | psMr | psSum0 | psSum1
  | psMuls0 | psMuls1 | psMadds0 | psMadds1 | psMerge00 | psMerge01 | psMerge10 | psMerge11
  | psCmpu0 | psCmpo0 | psCmpu1 | psCmpo1 | psSel | mullw | mullwo | mulhw | mulhwu | divw
  | divwo | divwu | divwuo | dcbz | dcbzL | dcbst | dcbf | dcbtst | dcbt | dcbi | icbi | sync
  | eieio | isync | mcrxr | mfmsr | mtmsr | mfsr | mfsrin | mtsr | mtsrin | tlbie | tlbsync
  | eciwx | ecowx
  deriving DecidableEq, Repr

/-- A decoded instruction; unset fields are zero. -/
structure PPCInst where
  op : PPCOpcode := .unknown
  raw : BitVec 32 := 0
  address : BitVec 32 := 0
  embeddedData : Bool := false
  rD : BitVec 5 := 0
  rA : BitVec 5 := 0
  rS : BitVec 5 := 0
  rB : BitVec 5 := 0
  rC : BitVec 5 := 0
  crfD : BitVec 3 := 0
  crfS : BitVec 3 := 0
  crm : BitVec 8 := 0
  fm : BitVec 8 := 0
  imm : BitVec 4 := 0
  nb : BitVec 5 := 0
  toField : BitVec 5 := 0
  sr : BitVec 4 := 0
  l : Bool := false
  w : Bool := false
  i : BitVec 3 := 0
  bo : BitVec 5 := 0
  bi : BitVec 5 := 0
  mb : BitVec 5 := 0
  me : BitVec 5 := 0
  sh : BitVec 5 := 0
  simm : BitVec 16 := 0
  uimm : BitVec 16 := 0
  spr : BitVec 10 := 0
  branchTarget : BitVec 32 := 0
  aa : Bool := false
  lk : Bool := false
  rc : Bool := false
  oe : Bool := false
  deriving DecidableEq, Repr

/-- The opcodes from `stfiwx` to `psSel` need `MSR[FP]`. -/
def ppcOpUsesFpu (op : PPCOpcode) : Bool :=
  PPCOpcode.stfiwx.ctorIdx ≤ op.ctorIdx && op.ctorIdx ≤ PPCOpcode.psSel.ctorIdx

namespace Decoder

variable (raw : BitVec 32)

def ppcPrimary : Nat := (raw.extractLsb' 26 6).toNat
def ppcRd : BitVec 5 := raw.extractLsb' 21 5
def ppcRs : BitVec 5 := raw.extractLsb' 21 5
def ppcRa : BitVec 5 := raw.extractLsb' 16 5
def ppcRb : BitVec 5 := raw.extractLsb' 11 5
def ppcRcReg : BitVec 5 := raw.extractLsb' 6 5
def ppcBo : BitVec 5 := raw.extractLsb' 21 5
def ppcBi : BitVec 5 := raw.extractLsb' 16 5
def ppcXo : Nat := (raw.extractLsb' 1 10).toNat
def ppcAXo : Nat := (raw.extractLsb' 1 5).toNat
def ppcSpr : BitVec 10 := raw.extractLsb' 11 5 ++ raw.extractLsb' 16 5
def ppcCrm : BitVec 8 := raw.extractLsb' 12 8
def ppcMb : BitVec 5 := raw.extractLsb' 6 5
def ppcMe : BitVec 5 := raw.extractLsb' 1 5
def ppcSh : BitVec 5 := raw.extractLsb' 11 5
def ppcRc : Bool := raw.getLsbD 0
def ppcSimm : BitVec 16 := raw.extractLsb' 0 16
def ppcUimm : BitVec 16 := raw.extractLsb' 0 16
def ppcCrfD : BitVec 3 := raw.extractLsb' 23 3
def ppcCrfS : BitVec 3 := raw.extractLsb' 18 3

variable (inst : PPCInst) (op : PPCOpcode)

def unknown : PPCInst := { inst with op := .unknown }

def decodeDRtRa : PPCInst :=
  { inst with op, rD := ppcRd raw, rA := ppcRa raw, simm := ppcSimm raw }

def decodeDRtRaUpdate : PPCInst :=
  if ppcRa raw = 0 ∨ ppcRa raw = ppcRd raw then unknown inst else decodeDRtRa raw inst op

def decodeDFrtRaUpdate : PPCInst :=
  if ppcRa raw = 0 then unknown inst else decodeDRtRa raw inst op

def decodeDRsRa : PPCInst :=
  { inst with op, rS := ppcRs raw, rA := ppcRa raw, simm := ppcSimm raw }

def decodeDRsRaUpdate : PPCInst :=
  if ppcRa raw = 0 then unknown inst else decodeDRsRa raw inst op

def decodeXRtRaRb : PPCInst :=
  { inst with op, rD := ppcRd raw, rA := ppcRa raw, rB := ppcRb raw, rc := ppcRc raw }

def decodeXRtRaRbNorc : PPCInst :=
  if ppcRc raw then unknown inst else decodeXRtRaRb raw inst op

def decodeXRtRaRbUpdate : PPCInst :=
  if ppcRc raw ∨ ppcRa raw = 0 ∨ ppcRa raw = ppcRd raw then unknown inst
  else decodeXRtRaRb raw inst op

def decodeXFrtRaRbUpdate : PPCInst :=
  if ppcRc raw ∨ ppcRa raw = 0 then unknown inst else decodeXRtRaRb raw inst op

def decodeXoRtRaRb : PPCInst :=
  { decodeXRtRaRb raw inst op with oe := raw.getLsbD 10 }

def decodeXRsRaRb : PPCInst :=
  { inst with op, rS := ppcRs raw, rA := ppcRa raw, rB := ppcRb raw, rc := ppcRc raw }

def decodeXRsRaRbNorc : PPCInst :=
  if ppcRc raw then unknown inst else decodeXRsRaRb raw inst op

def decodeXRsRaRbUpdate : PPCInst :=
  if ppcRc raw ∨ ppcRa raw = 0 then unknown inst else decodeXRsRaRb raw inst op

def decodeAFrtFraFrbFrc : PPCInst :=
  { inst with
    op, rD := ppcRd raw, rA := ppcRa raw, rB := ppcRb raw, rC := ppcRcReg raw,
    rc := ppcRc raw }

def decodeXFrtFrb : PPCInst :=
  if ppcRa raw ≠ 0 then unknown inst
  else { inst with op, rD := ppcRd raw, rB := ppcRb raw, rc := ppcRc raw }

def decodeFcmp : PPCInst :=
  if raw &&& 0x00600001#32 ≠ 0 then unknown inst
  else { inst with op, crfD := ppcCrfD raw, rA := ppcRa raw, rB := ppcRb raw }

def decodeCrLogical : PPCInst :=
  if ppcRc raw then unknown inst
  else { inst with op, rD := ppcRd raw, rA := ppcRa raw, rB := ppcRb raw }

def decodeMtfsb : PPCInst :=
  if ppcRa raw ≠ 0 ∨ ppcRb raw ≠ 0 then unknown inst
  else { inst with op, rD := ppcRd raw, rc := ppcRc raw }

def decodeXoRtRa : PPCInst :=
  { inst with op, rD := ppcRd raw, rA := ppcRa raw, rc := ppcRc raw, oe := raw.getLsbD 10 }

def decodePsqDRtRa : PPCInst :=
  { inst with
    op, rD := ppcRd raw, rA := ppcRa raw, w := raw.getLsbD 15,
    i := raw.extractLsb' 12 3, simm := (raw.extractLsb' 0 12).signExtend 16 }

def decodePsqDRtRaUpdate : PPCInst :=
  if ppcRa raw = 0 then unknown inst else decodePsqDRtRa raw inst op

def decodePsqDRsRa : PPCInst :=
  { inst with
    op, rS := ppcRs raw, rA := ppcRa raw, w := raw.getLsbD 15,
    i := raw.extractLsb' 12 3, simm := (raw.extractLsb' 0 12).signExtend 16 }

def decodePsqDRsRaUpdate : PPCInst :=
  if ppcRa raw = 0 then unknown inst else decodePsqDRsRa raw inst op

def decodePsqXRtRaRb : PPCInst :=
  { inst with
    op, rD := ppcRd raw, rA := ppcRa raw, rB := ppcRb raw, w := raw.getLsbD 10,
    i := raw.extractLsb' 7 3 }

def decodePsqXRtRaRbNorc : PPCInst :=
  if ppcRc raw then unknown inst else decodePsqXRtRaRb raw inst op

def decodePsqXRtRaRbUpdate : PPCInst :=
  if ppcRc raw ∨ ppcRa raw = 0 then unknown inst else decodePsqXRtRaRb raw inst op

def decodePsqXRsRaRb : PPCInst :=
  { inst with
    op, rS := ppcRs raw, rA := ppcRa raw, rB := ppcRb raw, w := raw.getLsbD 10,
    i := raw.extractLsb' 7 3 }

def decodePsqXRsRaRbNorc : PPCInst :=
  if ppcRc raw then unknown inst else decodePsqXRsRaRb raw inst op

def decodePsqXRsRaRbUpdate : PPCInst :=
  if ppcRc raw ∨ ppcRa raw = 0 then unknown inst else decodePsqXRsRaRb raw inst op

/-- `reg` is one of the `count` registers from `start` on, counted modulo 32. -/
def regInWrappedRange (start : BitVec 5) (count : Nat) (reg : BitVec 5) : Bool :=
  (List.range count).any fun i => (start.toNat + i) % 32 == reg.toNat

def stringRegisterCount (byteCount : BitVec 5) : Nat :=
  ((if byteCount = 0 then 32 else byteCount.toNat) + 3) / 4

/-- Primary opcode 4: paired singles. -/
def decodePaired : PPCInst :=
  match ppcXo raw with
  | 0 => decodeFcmp raw inst .psCmpu0
  | 18 => decodeAFrtFraFrbFrc raw inst .psDiv
  | 24 => if ppcRa raw = 0 then decodeXFrtFrb raw inst .psRes else unknown inst
  | 26 => if ppcRa raw = 0 then decodeXFrtFrb raw inst .psRsqrte else unknown inst
  | 20 => decodeAFrtFraFrbFrc raw inst .psSub
  | 21 => decodeAFrtFraFrbFrc raw inst .psAdd
  | 32 => decodeFcmp raw inst .psCmpo0
  | 40 => decodeXFrtFrb raw inst .psNeg
  | 64 => decodeFcmp raw inst .psCmpu1
  | 72 => decodeXFrtFrb raw inst .psMr
  | 96 => decodeFcmp raw inst .psCmpo1
  | 136 => decodeXFrtFrb raw inst .psNabs
  | 264 => decodeXFrtFrb raw inst .psAbs
  | 528 => decodeAFrtFraFrbFrc raw inst .psMerge00
  | 560 => decodeAFrtFraFrbFrc raw inst .psMerge01
  | 592 => decodeAFrtFraFrbFrc raw inst .psMerge10
  | 624 => decodeAFrtFraFrbFrc raw inst .psMerge11
  | 1014 =>
    if ppcRd raw = 0 ∧ !ppcRc raw then
      { inst with op := .dcbzL, rA := ppcRa raw, rB := ppcRb raw }
    else unknown inst
  | xo =>
    match xo % 64 with
    | 6 => decodePsqXRtRaRbNorc raw inst .psqLx
    | 7 => decodePsqXRsRaRbNorc raw inst .psqStx
    | 38 => decodePsqXRtRaRbUpdate raw inst .psqLux
    | 39 => decodePsqXRsRaRbUpdate raw inst .psqStux
    | _ =>
      match ppcAXo raw with
      | 10 => decodeAFrtFraFrbFrc raw inst .psSum0
      | 11 => decodeAFrtFraFrbFrc raw inst .psSum1
      | 12 => decodeAFrtFraFrbFrc raw inst .psMuls0
      | 13 => decodeAFrtFraFrbFrc raw inst .psMuls1
      | 14 => decodeAFrtFraFrbFrc raw inst .psMadds0
      | 15 => decodeAFrtFraFrbFrc raw inst .psMadds1
      | 23 => decodeAFrtFraFrbFrc raw inst .psSel
      | 25 => decodeAFrtFraFrbFrc raw inst .psMul
      | 28 => decodeAFrtFraFrbFrc raw inst .psMsub
      | 29 => decodeAFrtFraFrbFrc raw inst .psMadd
      | 30 => decodeAFrtFraFrbFrc raw inst .psNmsub
      | 31 => decodeAFrtFraFrbFrc raw inst .psNmadd
      | _ => unknown inst

/-- Primary opcode 19: condition-register logic and branches to registers. -/
def decodeBranchRegister : PPCInst :=
  let xo := ppcXo raw
  if xo = 0 then
    if raw &&& 0x0063F801#32 ≠ 0 then unknown inst
    else { inst with op := .mcrf, crfD := ppcCrfD raw, crfS := ppcCrfS raw }
  else if raw = 0x4C000064#32 then { inst with op := .rfi }
  else if xo = 16 then
    { inst with op := .bclr, bo := ppcBo raw, bi := ppcBi raw, lk := raw.getLsbD 0 }
  else if raw = 0x4C00012C#32 then { inst with op := .isync }
  else if xo = 33 then decodeCrLogical raw inst .crnor
  else if xo = 129 then decodeCrLogical raw inst .crandc
  else if xo = 193 then decodeCrLogical raw inst .crxor
  else if xo = 225 then decodeCrLogical raw inst .crnand
  else if xo = 257 then decodeCrLogical raw inst .crand
  else if xo = 289 then decodeCrLogical raw inst .creqv
  else if xo = 417 then decodeCrLogical raw inst .crorc
  else if xo = 449 then decodeCrLogical raw inst .cror
  else if xo = 528 then
    if ppcBo raw &&& 4#5 = 0 then unknown inst
    else { inst with op := .bcctr, bo := ppcBo raw, bi := ppcBi raw, lk := raw.getLsbD 0 }
  else unknown inst

/-- The overflow-form arithmetic of primary opcode 31, keyed by the low nine bits. -/
def decodeOverflowForm : PPCInst :=
  let oe := raw.getLsbD 10
  let pick (plain o : PPCOpcode) : PPCOpcode := if oe then o else plain
  match ppcXo raw % 512 with
  | 8 => decodeXoRtRaRb raw inst (pick .subfc .subfco)
  | 10 => decodeXoRtRaRb raw inst (pick .addc .addco)
  | 40 => decodeXoRtRaRb raw inst (pick .subf .subfo)
  | 104 => if ppcRb raw = 0 then decodeXoRtRa raw inst (pick .neg .nego) else inst
  | 136 => decodeXoRtRaRb raw inst (pick .subfe .subfeo)
  | 138 => decodeXoRtRaRb raw inst (pick .adde .addeo)
  | 200 => if ppcRb raw = 0 then decodeXoRtRa raw inst (pick .subfze .subfzeo) else inst
  | 202 => if ppcRb raw = 0 then decodeXoRtRa raw inst (pick .addze .addzeo) else inst
  | 232 => if ppcRb raw = 0 then decodeXoRtRa raw inst (pick .subfme .subfmeo) else inst
  | 234 => if ppcRb raw = 0 then decodeXoRtRa raw inst (pick .addme .addmeo) else inst
  | 235 => decodeXoRtRaRb raw inst (pick .mullw .mullwo)
  | 266 => decodeXoRtRaRb raw inst (pick .add .addo)
  | 459 => decodeXoRtRaRb raw inst (pick .divwu .divwuo)
  | 491 => decodeXoRtRaRb raw inst (pick .divw .divwo)
  | _ => inst

/-- Cache operations and `dcbz`: no destination register and no record bit. -/
def decodeCacheForm : PPCInst :=
  if ppcRd raw = 0 ∧ !ppcRc raw then { inst with op, rA := ppcRa raw, rB := ppcRb raw }
  else unknown inst

def decodeCompare : PPCInst :=
  if raw.getLsbD 21 then unknown inst
  else { inst with op, crfD := ppcCrfD raw, l := raw.getLsbD 21, rA := ppcRa raw, rB := ppcRb raw }

/-- Primary opcode 31: the extended-opcode switch. -/
def decodeExtended : PPCInst :=
  match ppcXo raw with
  | 0 => decodeCompare raw inst .cmp
  | 4 =>
    if !ppcRc raw then { inst with op := .tw, toField := ppcRd raw, rA := ppcRa raw, rB := ppcRb raw }
    else unknown inst
  | 11 => decodeXRtRaRb raw inst .mulhwu
  | 19 =>
    if ppcRa raw = 0 ∧ ppcRb raw = 0 ∧ !ppcRc raw then { inst with op := .mfcr, rD := ppcRd raw }
    else unknown inst
  | 20 => if !ppcRc raw then decodeXRtRaRb raw inst .lwarx else unknown inst
  | 23 => decodeXRtRaRbNorc raw inst .lwzx
  | 24 => decodeXRsRaRb raw inst .slw
  | 26 => decodeXRsRaRb raw inst .cntlzw
  | 28 => decodeXRsRaRb raw inst .and
  | 32 => decodeCompare raw inst .cmpl
  | 54 => decodeCacheForm raw inst .dcbst
  | 55 => decodeXRtRaRbUpdate raw inst .lwzux
  | 60 => decodeXRsRaRb raw inst .andc
  | 75 => decodeXRtRaRb raw inst .mulhw
  | 83 =>
    if ppcRa raw = 0 ∧ ppcRb raw = 0 ∧ !ppcRc raw then { inst with op := .mfmsr, rD := ppcRd raw }
    else unknown inst
  | 86 => decodeCacheForm raw inst .dcbf
  | 87 => decodeXRtRaRbNorc raw inst .lbzx
  | 119 => decodeXRtRaRbUpdate raw inst .lbzux
  | 124 => decodeXRsRaRb raw inst .nor
  | 144 =>
    if raw &&& 0x00100001#32 = 0 then { inst with op := .mtcrf, rS := ppcRs raw, crm := ppcCrm raw }
    else unknown inst
  | 146 =>
    if ppcRa raw = 0 ∧ ppcRb raw = 0 ∧ !ppcRc raw then { inst with op := .mtmsr, rS := ppcRs raw }
    else unknown inst
  | 151 => decodeXRsRaRbNorc raw inst .stwx
  | 183 => decodeXRsRaRbUpdate raw inst .stwux
  | 210 =>
    if !raw.getLsbD 20 ∧ ppcRb raw = 0 ∧ !ppcRc raw then
      { inst with op := .mtsr, rS := ppcRs raw, sr := (ppcRa raw).truncate 4 }
    else unknown inst
  | 215 => decodeXRsRaRbNorc raw inst .stbx
  | 242 =>
    if ppcRa raw = 0 ∧ !ppcRc raw then { inst with op := .mtsrin, rS := ppcRs raw, rB := ppcRb raw }
    else unknown inst
  | 246 => decodeCacheForm raw inst .dcbtst
  | 247 => decodeXRsRaRbUpdate raw inst .stbux
  | 278 => decodeCacheForm raw inst .dcbt
  | 279 => decodeXRtRaRbNorc raw inst .lhzx
  | 284 => decodeXRsRaRb raw inst .eqv
  | 306 =>
    if ppcRd raw = 0 ∧ ppcRa raw = 0 ∧ !ppcRc raw then { inst with op := .tlbie, rB := ppcRb raw }
    else unknown inst
  | 310 => if !ppcRc raw then decodeXRtRaRb raw inst .eciwx else unknown inst
  | 311 => decodeXRtRaRbUpdate raw inst .lhzux
  | 316 => decodeXRsRaRb raw inst .xor
  | 339 =>
    if !ppcRc raw then { inst with op := .mfspr, rD := ppcRd raw, spr := ppcSpr raw }
    else unknown inst
  | 371 =>
    if !ppcRc raw then { inst with op := .mftb, rD := ppcRd raw, spr := ppcSpr raw }
    else unknown inst
  | 343 => decodeXRtRaRbNorc raw inst .lhax
  | 375 => decodeXRtRaRbUpdate raw inst .lhaux
  | 407 => decodeXRsRaRbNorc raw inst .sthx
  | 412 => decodeXRsRaRb raw inst .orc
  | 438 => if !ppcRc raw then decodeXRsRaRb raw inst .ecowx else unknown inst
  | 439 => decodeXRsRaRbUpdate raw inst .sthux
  | 444 => decodeXRsRaRb raw inst .or
  | 470 => decodeCacheForm raw inst .dcbi
  | 467 =>
    if !ppcRc raw then { inst with op := .mtspr, rS := ppcRs raw, spr := ppcSpr raw }
    else unknown inst
  | 476 => decodeXRsRaRb raw inst .nand
  | 512 =>
    if raw &&& 0x007FF801#32 = 0 then { inst with op := .mcrxr, crfD := ppcCrfD raw }
    else unknown inst
  | 533 =>
    if !ppcRc raw ∧ ppcRd raw ≠ ppcRa raw ∧ ppcRd raw ≠ ppcRb raw then
      decodeXRtRaRb raw inst .lswx
    else unknown inst
  | 534 => decodeXRtRaRbNorc raw inst .lwbrx
  | 535 => decodeXRtRaRbNorc raw inst .lfsx
  | 536 => decodeXRsRaRb raw inst .srw
  | 567 => decodeXFrtRaRbUpdate raw inst .lfsux
  | 597 =>
    if !ppcRc raw ∧ !regInWrappedRange (ppcRd raw) (stringRegisterCount (ppcRb raw)) (ppcRa raw) then
      { inst with op := .lswi, rD := ppcRd raw, rA := ppcRa raw, nb := ppcRb raw }
    else unknown inst
  | 598 => { inst with op := if raw &&& 0xFF9FFFFF#32 = 0x7C0004AC#32 then .sync else .unknown }
  | 599 => decodeXRtRaRbNorc raw inst .lfdx
  | 631 => decodeXFrtRaRbUpdate raw inst .lfdux
  | 595 =>
    if !raw.getLsbD 20 ∧ ppcRb raw = 0 ∧ !ppcRc raw then
      { inst with op := .mfsr, rD := ppcRd raw, sr := (ppcRa raw).truncate 4 }
    else unknown inst
  | 661 => if !ppcRc raw then decodeXRsRaRb raw inst .stswx else unknown inst
  | 662 => decodeXRsRaRbNorc raw inst .stwbrx
  | 659 =>
    if ppcRa raw = 0 ∧ !ppcRc raw then { inst with op := .mfsrin, rD := ppcRd raw, rB := ppcRb raw }
    else unknown inst
  | 663 => decodeXRsRaRbNorc raw inst .stfsx
  | 695 => decodeXRsRaRbUpdate raw inst .stfsux
  | 727 => decodeXRsRaRbNorc raw inst .stfdx
  | 759 => decodeXRsRaRbUpdate raw inst .stfdux
  | 725 =>
    if !ppcRc raw then { inst with op := .stswi, rS := ppcRs raw, rA := ppcRa raw, nb := ppcRb raw }
    else unknown inst
  | 790 => decodeXRtRaRbNorc raw inst .lhbrx
  | 792 => decodeXRsRaRb raw inst .sraw
  | 824 =>
    { inst with op := .srawi, rS := ppcRs raw, rA := ppcRa raw, sh := ppcSh raw, rc := ppcRc raw }
  | 918 => decodeXRsRaRbNorc raw inst .sthbrx
  | 922 => decodeXRsRaRb raw inst .extsh
  | 954 => decodeXRsRaRb raw inst .extsb
  | 982 => decodeCacheForm raw inst .icbi
  | 150 =>
    if ppcRc raw then { decodeXRsRaRb raw inst .stwcx with rc := true } else unknown inst
  | 854 => { inst with op := if raw = 0x7C0006AC#32 then .eieio else .unknown }
  | 566 => { inst with op := if raw = 0x7C00046C#32 then .tlbsync else .unknown }
  | 983 => if !ppcRc raw then decodeXRsRaRb raw inst .stfiwx else unknown inst
  | 1014 => decodeCacheForm raw inst .dcbz
  | _ => unknown inst

/-- Primary opcode 59: single-precision arithmetic. -/
def decodeSingle : PPCInst :=
  match ppcAXo raw with
  | 18 => decodeAFrtFraFrbFrc raw inst .fdivs
  | 20 => decodeAFrtFraFrbFrc raw inst .fsubs
  | 21 => decodeAFrtFraFrbFrc raw inst .fadds
  | 24 =>
    if ppcRa raw = 0 ∧ ppcRcReg raw = 0 then decodeXFrtFrb raw inst .fres else unknown inst
  | 25 => decodeAFrtFraFrbFrc raw inst .fmuls
  | 28 => decodeAFrtFraFrbFrc raw inst .fmsubs
  | 29 => decodeAFrtFraFrbFrc raw inst .fmadds
  | 30 => decodeAFrtFraFrbFrc raw inst .fnmsubs
  | 31 => decodeAFrtFraFrbFrc raw inst .fnmadds
  | _ => unknown inst

/-- Primary opcode 63: double-precision arithmetic and the FPSCR. -/
def decodeDouble : PPCInst :=
  match ppcXo raw with
  | 0 => decodeFcmp raw inst .fcmpu
  | 12 => decodeXFrtFrb raw inst .frsp
  | 14 => if ppcRa raw = 0 then decodeXFrtFrb raw inst .fctiw else unknown inst
  | 15 => if ppcRa raw = 0 then decodeXFrtFrb raw inst .fctiwz else unknown inst
  | 32 => decodeFcmp raw inst .fcmpo
  | 38 => decodeMtfsb raw inst .mtfsb1
  | 40 => decodeXFrtFrb raw inst .fneg
  | 64 =>
    if raw &&& 0x0063F801#32 ≠ 0 then unknown inst
    else { inst with op := .mcrfs, crfD := ppcCrfD raw, crfS := ppcCrfS raw }
  | 70 => decodeMtfsb raw inst .mtfsb0
  | 72 => decodeXFrtFrb raw inst .fmr
  | 136 => decodeXFrtFrb raw inst .fnabs
  | 134 =>
    if raw &&& 0x007F0800#32 ≠ 0 then unknown inst
    else { inst with op := .mtfsfi, crfD := ppcCrfD raw, imm := raw.extractLsb' 12 4,
                     rc := ppcRc raw }
  | 264 => decodeXFrtFrb raw inst .fabs
  | 583 =>
    if ppcRa raw ≠ 0 ∨ ppcRb raw ≠ 0 then unknown inst
    else { inst with op := .mffs, rD := ppcRd raw, rc := ppcRc raw }
  | 711 =>
    if raw &&& 0x02010000#32 ≠ 0 then unknown inst
    else { inst with op := .mtfsf, fm := raw.extractLsb' 17 8, rB := ppcRb raw, rc := ppcRc raw }
  | _ =>
    match ppcAXo raw with
    | 18 => decodeAFrtFraFrbFrc raw inst .fdiv
    | 20 => decodeAFrtFraFrbFrc raw inst .fsub
    | 21 => decodeAFrtFraFrbFrc raw inst .fadd
    | 23 => decodeAFrtFraFrbFrc raw inst .fsel
    | 25 => decodeAFrtFraFrbFrc raw inst .fmul
    | 26 =>
      if ppcRa raw = 0 ∧ ppcRcReg raw = 0 then decodeXFrtFrb raw inst .frsqrte else unknown inst
    | 28 => decodeAFrtFraFrbFrc raw inst .fmsub
    | 29 => decodeAFrtFraFrbFrc raw inst .fmadd
    | 30 => decodeAFrtFraFrbFrc raw inst .fnmsub
    | 31 => decodeAFrtFraFrbFrc raw inst .fnmadd
    | _ => unknown inst

/-- The rotate forms of primary opcodes 20, 21 and 23. -/
def decodeRotate : PPCInst :=
  { inst with
    op, rS := ppcRs raw, rA := ppcRa raw, mb := ppcMb raw, me := ppcMe raw,
    rc := ppcRc raw }

def decodeLogicalImmediate : PPCInst :=
  { inst with op, rS := ppcRs raw, rA := ppcRa raw, uimm := ppcUimm raw }

def displacement14 : BitVec 32 := (raw.extractLsb' 2 14 ++ 0#2).signExtend 32
def displacement24 : BitVec 32 := (raw.extractLsb' 2 24 ++ 0#2).signExtend 32

/-- Branch displacements are relative to the instruction unless `AA` is set. -/
def branchDestination (address displacement : BitVec 32) : BitVec 32 :=
  if raw.getLsbD 1 then displacement else address + displacement

end Decoder

open Decoder in
def ppcDecode (raw address : BitVec 32) : PPCInst :=
  let inst : PPCInst := { raw, address }
  match ppcPrimary raw with
  | 3 => { inst with op := .twi, toField := ppcRd raw, rA := ppcRa raw, simm := ppcSimm raw }
  | 4 => decodePaired raw inst
  | 7 => decodeDRtRa raw inst .mulli
  | 8 => decodeDRtRa raw inst .subfic
  | 10 =>
    if raw.getLsbD 21 then unknown inst
    else { inst with op := .cmpli, crfD := ppcCrfD raw, l := raw.getLsbD 21, rA := ppcRa raw,
                     uimm := ppcUimm raw }
  | 11 =>
    if raw.getLsbD 21 then unknown inst
    else { inst with op := .cmpi, crfD := ppcCrfD raw, l := raw.getLsbD 21, rA := ppcRa raw,
                     simm := ppcSimm raw }
  | 12 => decodeDRtRa raw inst .addic
  | 13 => { decodeDRtRa raw inst .addicDot with rc := true }
  | 14 => decodeDRtRa raw inst .addi
  | 15 => decodeDRtRa raw inst .addis
  | 16 =>
    { inst with
      op := .bc, bo := ppcBo raw, bi := ppcBi raw, aa := raw.getLsbD 1,
      lk := raw.getLsbD 0,
      branchTarget := branchDestination raw address (displacement14 raw) }
  | 17 => { inst with op := if raw = 0x44000002#32 then .sc else .unknown }
  | 18 =>
    { inst with
      op := .b, aa := raw.getLsbD 1, lk := raw.getLsbD 0,
      branchTarget := branchDestination raw address (displacement24 raw) }
  | 19 => decodeBranchRegister raw inst
  | 20 => { decodeRotate raw inst .rlwimi with sh := ppcSh raw }
  | 21 => { decodeRotate raw inst .rlwinm with sh := ppcSh raw }
  | 23 => { decodeRotate raw inst .rlwnm with rB := ppcRb raw }
  | 24 => decodeLogicalImmediate raw inst .ori
  | 25 => decodeLogicalImmediate raw inst .oris
  | 26 => decodeLogicalImmediate raw inst .xori
  | 27 => decodeLogicalImmediate raw inst .xoris
  | 28 => { decodeLogicalImmediate raw inst .andi with rc := true }
  | 29 => { decodeLogicalImmediate raw inst .andis with rc := true }
  | 31 =>
    let arithmetic := decodeOverflowForm raw inst
    if arithmetic.op ≠ .unknown then arithmetic else decodeExtended raw arithmetic
  | 32 => decodeDRtRa raw inst .lwz
  | 33 => decodeDRtRaUpdate raw inst .lwzu
  | 34 => decodeDRtRa raw inst .lbz
  | 35 => decodeDRtRaUpdate raw inst .lbzu
  | 36 => decodeDRsRa raw inst .stw
  | 37 => decodeDRsRaUpdate raw inst .stwu
  | 38 => decodeDRsRa raw inst .stb
  | 39 => decodeDRsRaUpdate raw inst .stbu
  | 40 => decodeDRtRa raw inst .lhz
  | 41 => decodeDRtRaUpdate raw inst .lhzu
  | 42 => decodeDRtRa raw inst .lha
  | 43 => decodeDRtRaUpdate raw inst .lhau
  | 44 => decodeDRsRa raw inst .sth
  | 45 => decodeDRsRaUpdate raw inst .sthu
  | 46 => decodeDRtRa raw inst .lmw
  | 47 => decodeDRsRa raw inst .stmw
  | 48 => decodeDRtRa raw inst .lfs
  | 49 => decodeDFrtRaUpdate raw inst .lfsu
  | 50 => decodeDRtRa raw inst .lfd
  | 51 => decodeDFrtRaUpdate raw inst .lfdu
  | 52 => decodeDRsRa raw inst .stfs
  | 53 => decodeDRsRaUpdate raw inst .stfsu
  | 54 => decodeDRsRa raw inst .stfd
  | 55 => decodeDRsRaUpdate raw inst .stfdu
  | 56 => decodePsqDRtRa raw inst .psqL
  | 57 => decodePsqDRtRaUpdate raw inst .psqLu
  | 60 => decodePsqDRsRa raw inst .psqSt
  | 61 => decodePsqDRsRaUpdate raw inst .psqStu
  | 59 => decodeSingle raw inst
  | 63 => decodeDouble raw inst
  | _ => unknown inst

namespace Decoder

/-- What an instruction has besides the fields of its word. -/
def origin (inst : PPCInst) : BitVec 32 × BitVec 32 × Bool :=
  (inst.raw, inst.address, inst.embeddedData)

section

variable (raw : BitVec 32) (inst : PPCInst)

variable (c : Prop) [Decidable c] (a b : PPCInst)

theorem origin_ite : origin (if c then a else b) = if c then origin a else origin b :=
  apply_ite origin c a b

@[simp] theorem raw_ite : (if c then a else b).raw = if c then a.raw else b.raw :=
  apply_ite PPCInst.raw c a b

@[simp] theorem address_ite : (if c then a else b).address = if c then a.address else b.address :=
  apply_ite PPCInst.address c a b

@[simp] theorem embeddedData_ite :
    (if c then a else b).embeddedData = if c then a.embeddedData else b.embeddedData :=
  apply_ite PPCInst.embeddedData c a b

attribute [local simp] unknown decodeDRtRa decodeDRtRaUpdate decodeDFrtRaUpdate decodeDRsRa
  decodeDRsRaUpdate decodeXRtRaRb decodeXRtRaRbNorc decodeXRtRaRbUpdate decodeXFrtRaRbUpdate
  decodeXoRtRaRb decodeXRsRaRb decodeXRsRaRbNorc decodeXRsRaRbUpdate decodeAFrtFraFrbFrc
  decodeXFrtFrb decodeFcmp decodeCrLogical decodeMtfsb decodeXoRtRa decodePsqDRtRa
  decodePsqDRtRaUpdate decodePsqDRsRa decodePsqDRsRaUpdate decodePsqXRtRaRb decodePsqXRtRaRbNorc
  decodePsqXRtRaRbUpdate decodePsqXRsRaRb decodePsqXRsRaRbNorc decodePsqXRsRaRbUpdate
  decodeCacheForm decodeCompare decodeRotate decodeLogicalImmediate

theorem decodePaired_origin : origin (decodePaired raw inst) = origin inst := by
  unfold decodePaired
  repeat' split
  all_goals simp [origin]

theorem decodeBranchRegister_origin : origin (decodeBranchRegister raw inst) = origin inst := by
  simp [decodeBranchRegister,origin]

theorem decodeOverflowForm_origin : origin (decodeOverflowForm raw inst) = origin inst := by
  unfold decodeOverflowForm
  split
  all_goals simp [origin]

theorem decodeExtended_origin : origin (decodeExtended raw inst) = origin inst := by
  unfold decodeExtended
  split
  all_goals simp [origin]

theorem decodeSingle_origin : origin (decodeSingle raw inst) = origin inst := by
  unfold decodeSingle
  split
  all_goals simp [origin]

theorem decodeDouble_origin : origin (decodeDouble raw inst) = origin inst := by
  unfold decodeDouble
  repeat' split
  all_goals simp [origin]

/-- Only the pass over embedded data marks a word as data. -/
theorem ppcDecode_origin (address : BitVec 32) :
    origin (ppcDecode raw address) = (raw, address, false) := by
  unfold ppcDecode
  split
  all_goals first
    | rw [decodePaired_origin]; rfl
    | rw [decodeBranchRegister_origin]; rfl
    | rw [decodeSingle_origin]; rfl
    | rw [decodeDouble_origin]; rfl
    | simp [origin]; done
    | (rw [origin_ite,decodeExtended_origin,decodeOverflowForm_origin]; exact ite_self _)

/-- A branch to the counter register does not count. -/
def KeepsCounter (inst : PPCInst) : Prop := inst.op = .bcctr → inst.bo &&& 4#5 ≠ 0

theorem keepsCounter_of_ne (h : inst.op ≠ .bcctr) : KeepsCounter inst := fun ho => absurd ho h

theorem keepsCounter_ite (ha : c → KeepsCounter a) (hb : ¬c → KeepsCounter b) :
    KeepsCounter (if c then a else b) := by
  by_cases h : c
  · simpa only [if_pos h] using ha h
  · simpa only [if_neg h] using hb h

theorem op_ite : (if c then a else b).op = if c then a.op else b.op := apply_ite PPCInst.op c a b

theorem decodePaired_op : (decodePaired raw inst).op ≠ .bcctr := by
  unfold decodePaired
  repeat' split
  all_goals simp [op_ite,ite_eq_iff]

theorem decodeBranchRegister_keepsCounter : KeepsCounter (decodeBranchRegister raw inst) := by
  unfold decodeBranchRegister
  repeat' refine keepsCounter_ite _ _ _ (fun _ => ?_) (fun _ => ?_)
  all_goals
    first
    | exact fun _ => ‹_›
    | exact keepsCounter_of_ne _ (by simp)

theorem decodeOverflowForm_op (h : inst.op ≠ .bcctr) :
    (decodeOverflowForm raw inst).op ≠ .bcctr := by
  unfold decodeOverflowForm
  split
  all_goals simp [op_ite,ite_eq_iff,h]

theorem decodeExtended_op : (decodeExtended raw inst).op ≠ .bcctr := by
  unfold decodeExtended
  split
  all_goals simp [op_ite,ite_eq_iff]

theorem decodeSingle_op : (decodeSingle raw inst).op ≠ .bcctr := by
  unfold decodeSingle
  split
  all_goals simp [op_ite,ite_eq_iff]

theorem decodeDouble_op : (decodeDouble raw inst).op ≠ .bcctr := by
  unfold decodeDouble
  repeat' split
  all_goals simp [op_ite,ite_eq_iff]

theorem ppcDecode_keepsCounter (address : BitVec 32) : KeepsCounter (ppcDecode raw address) := by
  unfold ppcDecode
  split
  all_goals first
    | exact decodeBranchRegister_keepsCounter raw _
    | exact keepsCounter_of_ne _ (decodePaired_op raw _)
    | exact keepsCounter_of_ne _ (decodeSingle_op raw _)
    | exact keepsCounter_of_ne _ (decodeDouble_op raw _)
    | exact keepsCounter_ite _ _ _
        (fun _ => keepsCounter_of_ne _ (decodeOverflowForm_op raw _ (by simp)))
        (fun _ => keepsCounter_of_ne _ (decodeExtended_op raw _))
    | exact keepsCounter_of_ne _ (by simp [op_ite,ite_eq_iff])

end

end Decoder

open Decoder in
@[simp] theorem ppcDecode_raw (raw address : BitVec 32) : (ppcDecode raw address).raw = raw :=
  congrArg Prod.fst (ppcDecode_origin raw address)

open Decoder in
@[simp] theorem ppcDecode_address (raw address : BitVec 32) :
    (ppcDecode raw address).address = address :=
  congrArg (fun o => o.2.1) (ppcDecode_origin raw address)

open Decoder in
@[simp] theorem ppcDecode_embeddedData (raw address : BitVec 32) :
    (ppcDecode raw address).embeddedData = false :=
  congrArg (fun o => o.2.2) (ppcDecode_origin raw address)

end DolRecomp
