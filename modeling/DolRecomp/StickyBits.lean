import DolRecomp.FpscrWriters

/-!
# The sticky bits of the FPSCR

Whether FX follows the exception bits that are set, and which bits `mcrfs` clears. The mask of
`mcrfs` leaves out OX, UX and ZX, `ppc_mtfsb1_op` raises the invalid operations only, and the
emitted C of `mtfsb1` raises none.
-/

namespace DolRecomp

namespace Fpscr

open Emitter

def fxBit : ℕ := 31

/-- OX, UX, ZX and XX. -/
def otherBits : List ℕ := [28,27,26,25]

def stickyBits : List ℕ := otherBits ++ vxBits

def exceptionBits : List ℕ := fxBit :: stickyBits

/-- A sticky bit that the step sets comes with FX. -/
def StickySet (x y : BitVec 32) : Prop :=
  ∀ n ∈ stickyBits, x.getLsbD n = false → y.getLsbD n = true → y.getLsbD fxBit = true

/-- The bits that `mcrfs` copies. -/
def InField (crf : BitVec 3) (n : ℕ) : Prop := crFieldShift crf ≤ n ∧ n < crFieldShift crf + 4

/-- The exception bits of the field are cleared, the others kept, and the summary worked out. -/
structure FieldCleared (crf : BitVec 3) (x y : BitVec 32) : Prop where
  cleared : ∀ n, InField crf n → n ∈ exceptionBits → y.getLsbD n = false
  kept : ∀ n, ¬(InField crf n ∧ n ∈ exceptionBits) → n ≠ vxBit → n ≠ fexBit →
    y.getLsbD n = x.getLsbD n
  summary : Consistent y

/-- FX stays, and a sticky bit that is new has set it. -/
def Raised (x y : BitVec 32) : Prop :=
  (x.getLsbD fxBit = true → y.getLsbD fxBit = true) ∧ StickySet x y

theorem fpscrUpdated_kept (x : BitVec 32) {n : ℕ} (hvx : n ≠ vxBit) (hfex : n ≠ fexBit) :
    (Runtime.fpscrUpdated x).getLsbD n = x.getLsbD n := by
  rw [fpscrUpdated_getLsbD,if_neg hfex,vxUpdated_getLsbD,if_neg hvx]

theorem setFpException_getLsbD (cpu : CPUState) (bit : BitVec 32) {n : ℕ} (hvx : n ≠ vxBit)
    (hfex : n ≠ fexBit) : (Runtime.setFpException cpu bit).fpscr.getLsbD n =
      ((cpu.fpscr.getLsbD n || (decide (cpu.fpscr &&& bit ≠ bit) && decide (n = fxBit))) ||
        bit.getLsbD n) := by
  have hfx : ∀ n, (0x80000000#32).getLsbD n = decide (n = fxBit) := fun n => by
    rw [BitVec.getLsbD,show (0x80000000#32).toNat = 2^31 from rfl,Nat.testBit_two_pow]
    exact decide_eq_decide.mpr eq_comm
  show (Runtime.fpscrUpdated _).getLsbD n = _
  rw [fpscrUpdated_kept _ hvx hfex]
  show ((if cpu.fpscr &&& bit ≠ bit then cpu.fpscr ||| 0x80000000#32 else cpu.fpscr) |||
    bit).getLsbD n = _
  rw [BitVec.getLsbD_or]
  split
  next h => rw [BitVec.getLsbD_or,hfx,decide_eq_true h,Bool.true_and]
  next h => rw [decide_eq_false h,Bool.false_and,Bool.or_false]

/-- `set_fp_exception` sets FX with a bit that was clear. -/
theorem raised_setFpException (cpu : CPUState) (bit : BitVec 32) :
    Raised cpu.fpscr (Runtime.setFpException cpu bit).fpscr := by
  have hne : ∀ n ∈ stickyBits, n ≠ vxBit ∧ n ≠ fexBit ∧ n ≠ fxBit := by decide
  have hfx := @setFpException_getLsbD cpu bit fxBit (by decide) (by decide)
  refine ⟨fun h => by rw [hfx,h,Bool.true_or,Bool.true_or],fun n hn hx hy => ?_⟩
  rw [setFpException_getLsbD cpu bit (hne n hn).1 (hne n hn).2.1,hx,
    decide_eq_false (hne n hn).2.2,Bool.and_false,Bool.false_or,Bool.false_or] at hy
  have hmissing : cpu.fpscr &&& bit ≠ bit := fun h => by
    have := congrArg (BitVec.getLsbD · n) h
    simp only [BitVec.getLsbD_and,hx,hy,Bool.and_true] at this
    exact Bool.false_ne_true this
  rw [hfx,decide_eq_true hmissing,decide_eq_true rfl,Bool.and_true,Bool.or_true,Bool.true_or]

theorem raised_closed (x : BitVec 32) : HelperClosed (Raised x) := by
  have hclass : ∀ n ∈ fxBit :: stickyBits, n ∉ classBits := by decide
  have hne : ∀ n ∈ stickyBits, n ≠ fxBit := by decide
  refine .of_bits (fun cpu bit h => ?_) fun y z h hy => ?_
  · have hset := raised_setFpException cpu bit
    refine ⟨fun hx => hset.1 (h.1 hx),fun n hn hx hz => ?_⟩
    by_cases hy : cpu.fpscr.getLsbD n = true
    · exact hset.1 (h.2 n hn hx hy)
    · exact hset.2 n hn (eq_false_of_ne_true hy) hz
  · have hfx := h fxBit (hclass _ List.mem_cons_self)
    refine ⟨fun hx => hfx.trans (hy.1 hx),fun n hn hx hz => ?_⟩
    rw [h n (hclass n (List.mem_cons_of_mem _ hn))] at hz
    exact hfx.trans (hy.2 n hn hx hz)

theorem raised_helper (F : FloatOps) (cpu : CPUState) (call : ArithmeticHelper) :
    StickySet cpu.fpscr (call.run F cpu).fpscr :=
  ((raised_closed cpu.fpscr).helper F ⟨id,fun n _ hx hy => absurd hy (by simp [hx])⟩ call).2

/-- A sticky bit set on its own, while FX is clear. -/
def Unraised (bits : List ℕ) (bit : BitVec 5) (x : BitVec 32) : Prop :=
  31 - bit.toNat ∈ bits ∧ x.getLsbD (31 - bit.toNat) = false ∧ x.getLsbD fxBit = false

/-- The bit alone is set, in a word that may have had its summary worked out since. -/
theorem stickySet_or_iff {x y : BitVec 32} (bit : BitVec 5) (hy : ∀ n ∈ fxBit :: stickyBits,
      y.getLsbD n = (x.getLsbD n || decide (n = 31 - bit.toNat))) :
    StickySet x y ↔ ¬Unraised stickyBits bit x := by
  have hne : ∀ n ∈ stickyBits, n ≠ fxBit := by decide
  constructor
  · rintro h ⟨hm,hx,hfx⟩
    have hset := h _ hm hx (by rw [hy _ (List.mem_cons_of_mem _ hm),hx,decide_eq_true rfl]; rfl)
    rw [hy _ List.mem_cons_self,hfx,decide_eq_false (hne _ hm).symm] at hset
    exact Bool.false_ne_true hset
  · intro h n hn hx hz
    rw [hy n (List.mem_cons_of_mem _ hn),hx,Bool.false_or,decide_eq_true_eq] at hz
    subst hz
    rw [hy _ List.mem_cons_self]
    cases hfx : x.getLsbD fxBit with
    | true => rfl
    | false => exact absurd ⟨hn,hx,hfx⟩ h

theorem stickySet_emitMtfsb_iff (i : PPCInst) (cpu : CPUState) (ho : i.op = .mtfsb1) :
    StickySet cpu.fpscr (emitMtfsb i cpu).fpscr ↔ ¬Unraised stickyBits i.rD cpu.fpscr := by
  unfold emitMtfsb
  by_cases hd : i.rD ≠ 1 ∧ i.rD ≠ 2
  · rw [if_pos hd]
    refine stickySet_or_iff i.rD fun n _ => ?_
    rw [if_neg (by rw [ho]; decide),BitVec.getLsbD_or,bitMask_getLsbD]
  · rw [if_neg hd]
    refine iff_of_true (fun n _ hx hy => absurd hy (by simp [hx])) fun h => ?_
    have hno : ∀ n ∈ stickyBits, n ≠ 30 ∧ n ≠ 29 := by decide
    have hcases : i.rD = 1 ∨ i.rD = 2 := by
      by_cases h1 : i.rD = 1
      · exact .inl h1
      · exact .inr (by_contra fun h2 => hd ⟨h1,h2⟩)
    rcases hcases with hb | hb
    · exact (hno _ h.1).1 (by rw [hb]; rfl)
    · exact (hno _ h.1).2 (by rw [hb]; rfl)

/-- `ppc_mtfsb1_op` raises an invalid operation, and sets the other bits on their own. -/
theorem stickySet_ppcMtfsb1Op_iff (cpu : CPUState) (bit : BitVec 5) :
    StickySet cpu.fpscr (Runtime.ppcMtfsb1Op cpu bit).fpscr ↔
      ¬Unraised otherBits bit cpu.fpscr := by
  have hvx : (0x80000000#32 >>> bit.toNat) &&& Runtime.fpscrVxAny ≠ 0 ↔
      31 - bit.toNat ∈ vxBits := by
    refine (vxAny_ne_zero _).trans ⟨?_,fun h => ⟨_,h,by rw [bitMask_getLsbD,decide_eq_true rfl]⟩⟩
    rintro ⟨n,hn,h⟩
    rw [bitMask_getLsbD,decide_eq_true_eq] at h
    exact h ▸ hn
  have happ : ∀ n, n ∈ stickyBits ↔ n ∈ otherBits ∨ n ∈ vxBits := fun n => List.mem_append
  have hupd : ∀ x : BitVec 32, ∀ n ∈ fxBit :: stickyBits,
      (Runtime.fpscrUpdated x).getLsbD n = x.getLsbD n := fun x n hn => by
    have hne : ∀ n ∈ fxBit :: stickyBits, n ≠ vxBit ∧ n ≠ fexBit := by decide
    exact fpscrUpdated_kept x (hne n hn).1 (hne n hn).2
  unfold Runtime.ppcMtfsb1Op
  dsimp only
  by_cases h : 31 - bit.toNat ∈ vxBits
  · have hdisjoint : ∀ n ∈ vxBits, n ∉ otherBits := by decide
    rw [if_pos (hvx.mpr h)]
    refine iff_of_true (fun n hn hx hy => ?_) fun hun => hdisjoint _ h hun.1
    have hset := (raised_setFpException cpu (0x80000000#32 >>> bit.toNat)).2 n hn hx
    show (Runtime.fpscrUpdated _).getLsbD fxBit = true
    rw [hupd _ _ List.mem_cons_self]
    refine hset ?_
    rw [← hupd _ n (List.mem_cons_of_mem _ hn)]
    exact hy
  · rw [if_neg fun hno => h (hvx.mp hno)]
    refine (stickySet_or_iff bit fun n hn => ?_).trans (not_congr ?_)
    · show (Runtime.fpscrUpdated _).getLsbD n = _
      rw [hupd _ n hn,BitVec.getLsbD_or,bitMask_getLsbD]
    · unfold Unraised
      rw [happ]
      exact and_congr_left' (or_iff_left h)

/-- The exception bits that the mask of `mcrfs` leaves out. -/
def missedBits : List ℕ := [28,27,26]

theorem mcrfsMask_getLsbD (crf : BitVec 3) {n : ℕ} (hn : n < 32) :
    ((0xF#32 <<< crFieldShift crf) &&& 0x83F80700#32).getLsbD n = true ↔
      InField crf n ∧ n ∈ exceptionBits ∧ n ∉ missedBits := by
  have hmask : ∀ n < 32, ((0x83F80700#32).getLsbD n = true ↔
      n ∈ exceptionBits ∧ n ∉ missedBits) := by decide
  rw [BitVec.getLsbD_and,Bool.and_eq_true,hmask n hn,BitVec.getLsbD_shiftLeft,decide_eq_true hn,
    Bool.true_and,BitVec.getLsbD,show (0xF#32).toNat = 2^4 - 1 from rfl,
    Nat.testBit_two_pow_sub_one,Bool.and_eq_true,Bool.not_eq_true',decide_eq_false_iff_not,
    decide_eq_true_eq,InField]
  exact and_congr_left' ⟨fun h => by omega,fun h => by omega⟩

theorem fieldCleared_mcrfs_iff (crf : BitVec 3) (x : BitVec 32) :
    FieldCleared crf x (Runtime.fpscrUpdated
      (x &&& ~~~((0xF#32 <<< crFieldShift crf) &&& 0x83F80700#32))) ↔
      ∀ n ∈ missedBits, InField crf n → x.getLsbD n = false := by
  have hexc : ∀ n ∈ exceptionBits, n ≠ vxBit ∧ n ≠ fexBit ∧ n < 32 := by decide
  have hmissed : ∀ n ∈ missedBits, n ∈ exceptionBits := by decide
  have hbit : ∀ n, n < 32 → n ≠ vxBit → n ≠ fexBit → (Runtime.fpscrUpdated
      (x &&& ~~~((0xF#32 <<< crFieldShift crf) &&& 0x83F80700#32))).getLsbD n =
        (x.getLsbD n && !((0xF#32 <<< crFieldShift crf) &&& 0x83F80700#32).getLsbD n) :=
    fun n hn hvx hfex => by
      rw [fpscrUpdated_kept _ hvx hfex,BitVec.getLsbD_and,BitVec.getLsbD_not,decide_eq_true hn,
        Bool.true_and]
  constructor
  · intro h n hm hf
    obtain ⟨hvx,hfex,hn⟩ := hexc n (hmissed n hm)
    have hclear := h.cleared n hf (hmissed n hm)
    rw [hbit n hn hvx hfex,eq_false_of_ne_true fun hb => ((mcrfsMask_getLsbD crf hn).mp hb).2.2 hm,
      Bool.not_false,Bool.and_true] at hclear
    exact hclear
  · intro h
    refine ⟨fun n hf he => ?_,fun n hno hvx hfex => ?_,consistent_fpscrUpdated _⟩
    · obtain ⟨hvx,hfex,hn⟩ := hexc n he
      rw [hbit n hn hvx hfex]
      by_cases hm : n ∈ missedBits
      · rw [h n hm hf,Bool.false_and]
      · rw [(mcrfsMask_getLsbD crf hn).mpr ⟨hf,he,hm⟩,Bool.not_true,Bool.and_false]
    · by_cases hn : n < 32
      · rw [hbit n hn hvx hfex,eq_false_of_ne_true fun hb => hno
          ⟨((mcrfsMask_getLsbD crf hn).mp hb).1,((mcrfsMask_getLsbD crf hn).mp hb).2.1⟩,
          Bool.not_false,Bool.and_true]
      · rw [BitVec.getLsbD_of_ge _ _ (by omega),BitVec.getLsbD_of_ge _ _ (by omega)]

/-- The writers of the sticky bits: `mtfsb1` and `mcrfs` of either backend, and the helpers. -/
def Writer.ofSticky : Writer → Prop
  | .emitted raw address => (ppcDecode raw address).op ∈ [PPCOpcode.mtfsb1,.mcrfs]
  | .lowered insts _ k raw address =>
    insts[k]? = some (ppcDecode raw address) ∧
      (ppcDecode raw address).op ∈ [PPCOpcode.mtfsb1,.mcrfs]
  | .helper _ => True

/-- What the instruction of the word has to do to the FPSCR: nothing, where floating point is not
available. -/
def InstSticky (i : PPCInst) (cpu : CPUState) (y : BitVec 32) : Prop :=
  (i.op = .mtfsb1 → StickySet cpu.fpscr y) ∧
    (i.op = .mcrfs → cpu.msr &&& Runtime.ppcMsrFp ≠ 0 → FieldCleared i.crfS cpu.fpscr y)

def Writer.Sticky (cpu : CPUState) (y : BitVec 32) : Writer → Prop
  | .emitted raw address => InstSticky (ppcDecode raw address) cpu y
  | .lowered _ _ _ raw address => InstSticky (ppcDecode raw address) cpu y
  | .helper _ => StickySet cpu.fpscr y

/-- The bit that `mtfsb1` sets is one that FX follows, or needs no FX; the field of `mcrfs` has
none of the bits that are missed. -/
def InstMeets (bits : List ℕ) (i : PPCInst) (cpu : CPUState) : Prop :=
  cpu.msr &&& Runtime.ppcMsrFp ≠ 0 →
    (i.op = .mtfsb1 → ¬Unraised bits i.rD cpu.fpscr) ∧
      (i.op = .mcrfs → ∀ n ∈ missedBits, InField i.crfS n → cpu.fpscr.getLsbD n = false)

def Writer.Meets (cpu : CPUState) : Writer → Prop
  | .emitted raw address => InstMeets stickyBits (ppcDecode raw address) cpu
  | .lowered _ _ _ raw address => InstMeets otherBits (ppcDecode raw address) cpu
  | .helper _ => True

theorem instSticky_iff {bits : List ℕ} (i : PPCInst) (cpu : CPUState) {y : BitVec 32}
    (hset : cpu.msr &&& Runtime.ppcMsrFp ≠ 0 → i.op = .mtfsb1 →
      (StickySet cpu.fpscr y ↔ ¬Unraised bits i.rD cpu.fpscr))
    (hclear : cpu.msr &&& Runtime.ppcMsrFp ≠ 0 → i.op = .mcrfs →
      (FieldCleared i.crfS cpu.fpscr y ↔
        ∀ n ∈ missedBits, InField i.crfS n → cpu.fpscr.getLsbD n = false))
    (hsame : ¬cpu.msr &&& Runtime.ppcMsrFp ≠ 0 → y = cpu.fpscr) :
    InstSticky i cpu y ↔ InstMeets bits i cpu := by
  by_cases hfp : cpu.msr &&& Runtime.ppcMsrFp ≠ 0
  · exact ⟨fun h _ => ⟨fun ho => (hset hfp ho).mp (h.1 ho),
        fun ho => (hclear hfp ho).mp (h.2 ho hfp)⟩,
      fun h => ⟨fun ho => (hset hfp ho).mpr ((h hfp).1 ho),
        fun ho _ => (hclear hfp ho).mpr ((h hfp).2 ho)⟩⟩
  · refine iff_of_true ⟨fun _ n _ hx hy => ?_,fun _ h => absurd h hfp⟩ fun h => absurd h hfp
    rw [hsame hfp,hx] at hy
    exact absurd hy Bool.false_ne_true

/-- A writer keeps FX with the sticky bits it sets, and clears the exception bits of the field it
copies, exactly when it needs no bit that it misses. -/
theorem fpscr_sticky_iff (m : Machine) (cfg : EmitConfig) (F : FloatOps) (cpu : CPUState)
    (w : Writer) (hw : w.ofSticky) :
    (∃ cpu', w.run m cfg F cpu = some cpu' ∧ w.Sticky cpu cpu'.fpscr) ↔ w.Meets cpu := by
  have hops : ∀ op ∈ [PPCOpcode.mtfsb1,.mcrfs], op ∈ fpscrOps := by decide
  cases w with
  | emitted raw address =>
    have hfpscr := emitInstruction_fpscr cfg (ppcDecode raw address) cpu
      (ppcDecode_embeddedData raw address) (hops _ hw)
    rw [ppcDecode_address] at hfpscr
    simp only [Writer.run,Option.some.injEq,exists_eq_left',Writer.Sticky,Writer.Meets,hfpscr]
    refine instSticky_iff _ _ (fun hfp ho => ?_) (fun hfp ho => ?_) fun hfp => if_neg hfp
    · rw [if_pos hfp,emitFpscr,ho]
      show StickySet _ (Emitter.recordCr1 _ _).fpscr ↔ _
      rw [emitRecordCr1_fpscr]
      exact stickySet_emitMtfsb_iff _ _ ho
    · rw [if_pos hfp,emitFpscr,ho]
      exact fieldCleared_mcrfs_iff _ _
  | lowered insts guestStart k raw address =>
    obtain ⟨cpu',hrun,hfpscr⟩ := execBlock_fpscr m insts guestStart k (ppcDecode raw address) hw.1
      (ppcDecode_embeddedData raw address) (hops _ hw.2) cpu
    have hiff : InstSticky (ppcDecode raw address) cpu cpu'.fpscr ↔
        InstMeets otherBits (ppcDecode raw address) cpu := by
      refine instSticky_iff _ _ (fun hfp ho => ?_) (fun hfp ho => ?_) fun hfp => ?_
      · rw [if_pos hfp] at hfpscr
        rw [hfpscr.mtfsb1 ho]
        exact stickySet_ppcMtfsb1Op_iff _ _
      · rw [if_pos hfp] at hfpscr
        rw [hfpscr.mcrfs ho]
        exact fieldCleared_mcrfs_iff _ _
      · rw [if_neg hfp] at hfpscr
        exact hfpscr
    refine ⟨?_,fun h => ⟨cpu',hrun,hiff.mpr h⟩⟩
    rintro ⟨cpu'',hrun',h⟩
    cases hrun.symm.trans hrun'
    exact hiff.mp h
  | helper call => exact iff_of_true ⟨_,rfl,raised_helper F cpu call⟩ trivial

theorem fpscr_sticky_iff_mtfsb1 :
    (∃ cpu', (Writer.emitted 0xFCE0004C 0x80003100).run { host := {} } (.single {}) zeroOps
      floatInit = some cpu' ∧ (Writer.emitted 0xFCE0004C 0x80003100).Sticky floatInit
        cpu'.fpscr) ↔ (Writer.emitted 0xFCE0004C 0x80003100).Meets floatInit :=
  fpscr_sticky_iff { host := {} } (.single {}) zeroOps floatInit (.emitted 0xFCE0004C 0x80003100)
    (show (ppcDecode 0xFCE0004C 0x80003100).op ∈ [PPCOpcode.mtfsb1,.mcrfs] by decide)

/-- The initial state with ZX set. -/
def zeroDivideInit : CPUState := { floatInit with fpscr := 0x04000000 }

/-- The emitted C of `mtfsb1 7` sets VXSNAN without FX, and `mcrfs cr0,cr1` leaves ZX set. -/
theorem fpscr_unsticky :
    (∃ cpu', (Writer.emitted 0xFCE0004C 0x80003100).run { host := {} } (.single {}) zeroOps
      floatInit = some cpu' ∧
      ¬(Writer.emitted 0xFCE0004C 0x80003100).Sticky floatInit cpu'.fpscr) ∧
    ∃ cpu', (Writer.emitted 0xFC040080 0x80003100).run { host := {} } (.single {}) zeroOps
      zeroDivideInit = some cpu' ∧
      ¬(Writer.emitted 0xFC040080 0x80003100).Sticky zeroDivideInit cpu'.fpscr := by
  have hset : (ppcDecode 0xFCE0004C 0x80003100).op = .mtfsb1 := by decide
  have hclear : (ppcDecode 0xFC040080 0x80003100).op = .mcrfs ∧
      (ppcDecode 0xFC040080 0x80003100).crfS = 1 := by decide
  refine ⟨⟨_,rfl,fun h => ?_⟩,_,rfl,fun h => ?_⟩
  · have hfpscr := emitInstruction_fpscr (.single {}) (ppcDecode 0xFCE0004C 0x80003100) floatInit
      (ppcDecode_embeddedData _ _) (by rw [hset]; decide)
    rw [ppcDecode_address] at hfpscr
    have hfx := h.1 hset
    rw [hfpscr] at hfx
    exact absurd (hfx 24 (by decide) (by decide) (by decide)) (by decide)
  · have hfpscr := emitInstruction_fpscr (.single {}) (ppcDecode 0xFC040080 0x80003100)
      zeroDivideInit (ppcDecode_embeddedData _ _) (by rw [hclear.1]; decide)
    rw [ppcDecode_address] at hfpscr
    have hzx := (h.2 hclear.1 (by decide)).cleared 26
    rw [hfpscr,hclear.2] at hzx
    exact absurd (hzx ⟨by decide,by decide⟩ (by decide)) (by decide)

end Fpscr

end DolRecomp
