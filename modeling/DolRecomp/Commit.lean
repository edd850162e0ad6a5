import DolRecomp.Emitter
import DolRecomp.Semantics

/-!
# Committed states

The packed words rebuilt from the slots, and what the operations of the emitted
C do to a committed state: each is the commit of an operation on the slots.
-/

namespace DolRecomp

theorem getLsbD_nibble (n : Nat) : (0xF#32).getLsbD n = decide (n < 4) := by
  have h : (0xF#32) = BitVec.ofNat 32 (2^4 - 1) := rfl
  rw [h,BitVec.getLsbD_ofNat,Nat.testBit_two_pow_sub_one]
  by_cases hn : n < 4
  · simp [hn]; omega
  · simp [hn]

theorem getLsbD_unpackCr (cr : BitVec 32) (f : BitVec 3) (n : Nat) (hn : n < 4) :
    (unpackCr cr f).getLsbD n = cr.getLsbD (28 - 4*f.toNat + n) := by
  have h : n = 0 ∨ n = 1 ∨ n = 2 ∨ n = 3 := by omega
  rcases h with rfl | rfl | rfl | rfl <;> simp [unpackCr]

theorem getLsbD_packCr (f : BitVec 3 → BitVec 32) (n : Nat) (hn : n < 32) :
    (packCr f).getLsbD n = (f (BitVec.ofNat 3 (7 - n/4))).getLsbD (n % 4) := by
  simp only [packCr,BitVec.getLsbD_or,BitVec.getLsbD_and,BitVec.getLsbD_shiftLeft,getLsbD_nibble,
    hn]
  interval_cases n <;> simp

theorem packCr_unpackCr (cr : BitVec 32) : packCr (unpackCr cr) = cr := by
  apply BitVec.eq_of_getLsbD_eq
  intro n hn
  rw [getLsbD_packCr _ _ hn,getLsbD_unpackCr _ _ _ (Nat.mod_lt _ (by omega))]
  congr 1
  simp only [BitVec.toNat_ofNat]
  omega

/-- Writing a field replaces its nibble of the packed word. -/
theorem packCr_update (f : BitVec 3 → BitVec 32) (k : BitVec 3) (v : BitVec 32) :
    packCr (Function.update f k v) =
      (packCr f &&& ~~~(0xF#32 <<< (28 - 4*k.toNat))) |||
        ((v &&& 0xF#32) <<< (28 - 4*k.toNat)) := by
  apply BitVec.eq_of_getLsbD_eq
  intro n hn
  rw [getLsbD_packCr _ _ hn]
  simp only [BitVec.getLsbD_or,BitVec.getLsbD_and,BitVec.getLsbD_not,BitVec.getLsbD_shiftLeft,
    getLsbD_nibble,getLsbD_packCr _ _ hn,hn]
  have hk := k.isLt
  by_cases h : n / 4 = 7 - k.toNat
  · have hf : BitVec.ofNat 3 (7 - n/4) = k := by
      apply BitVec.eq_of_toNat_eq
      simp only [BitVec.toNat_ofNat]
      omega
    have hm : n - (28 - 4*k.toNat) = n % 4 := by omega
    have hl : ¬ n < 28 - 4*k.toNat := by omega
    simp [hf,hm,hl,Nat.mod_lt]
  · have hf : BitVec.ofNat 3 (7 - n/4) ≠ k := by
      intro hf
      have := congrArg BitVec.toNat hf
      simp only [BitVec.toNat_ofNat] at this
      omega
    have hm : n < 28 - 4*k.toNat ∨ ¬ n - (28 - 4*k.toNat) < 4 := by omega
    rcases hm with hm | hm <;> simp [Function.update_of_ne hf,hm]

theorem getLsbD_packXer (xer : BitVec 32) (ca ov so : Bool) (n : Nat) (hn : n < 32) :
    (packXer xer ca ov so).getLsbD n =
      if n = 29 then ca else if n = 30 then ov else if n = 31 then so else xer.getLsbD n := by
  interval_cases n <;> simp [packXer]

@[simp] theorem packXer_unpack (xer : BitVec 32) :
    packXer xer (xer.getLsbD 29) (xer.getLsbD 30) (xer.getLsbD 31) = xer := by
  apply BitVec.eq_of_getLsbD_eq
  intro n hn
  rw [getLsbD_packXer _ _ _ _ _ hn]
  split_ifs <;> simp_all

/-- The summary overflow bit as the lowest bit of a field. -/
def soBit (so : Bool) : BitVec 32 := (BitVec.ofBool so).zeroExtend 32

theorem packXer_so (xer : BitVec 32) (ca ov so : Bool) :
    (packXer xer ca ov so >>> 31) &&& 1#32 = soBit so := by
  apply BitVec.eq_of_getLsbD_eq
  intro n hn
  cases n with
  | zero => simpa [soBit] using getLsbD_packXer xer ca ov so 31 (by omega)
  | succ n => simp [soBit]

theorem packXer_ca (xer : BitVec 32) (ca ov so : Bool) :
    (packXer xer ca ov so >>> 29) &&& 1#32 = soBit ca := by
  apply BitVec.eq_of_getLsbD_eq
  intro n hn
  cases n with
  | zero => simpa [soBit] using getLsbD_packXer xer ca ov so 29 (by omega)
  | succ n => simp [soBit]

theorem packXer_setCa (xer : BitVec 32) (ca ov so b : Bool) :
    (packXer xer ca ov so &&& ~~~0x20000000#32) ||| (soBit b <<< 29) = packXer xer b ov so := by
  apply BitVec.eq_of_getLsbD_eq
  intro n hn
  simp only [BitVec.getLsbD_or,BitVec.getLsbD_and,getLsbD_packXer _ _ _ _ _ hn]
  interval_cases n <;> simp [soBit]

open Emitter IRState

@[simp] theorem commit_load (cpu : CPUState) : (load cpu).commit = cpu := by
  simp only [commit,load,packCr_unpackCr,packXer_unpack]

variable (st : IRState)

@[simp] theorem commit_gpr (r : BitVec 5) : st.commit.gpr r = st.cpu.gpr r := by
  cases st; rfl

@[simp] theorem commit_setGpr (r : BitVec 5) (v : BitVec 32) :
    st.commit.setGpr r v = (st.setGpr r v).commit := by cases st; rfl

@[simp] theorem xerCarry_commit : xerCarry st.commit = soBit st.xerCa := packXer_ca _ _ _ _

@[simp] theorem setXerCa_commit (wide : BitVec 64) :
    setXerCa wide st.commit = (st.setCa (wide.getLsbD 32)).commit := by
  have h : (wide >>> 32).truncate 32 &&& 1#32 = soBit (wide.getLsbD 32) := by
    apply BitVec.eq_of_getLsbD_eq
    intro n hn
    cases n <;> simp [soBit]
  simp only [setXerCa,h]
  exact congrArg (fun x => { st.commit with xer := x }) (packXer_setCa _ _ _ _ _)

@[simp] theorem setXerCaIf_commit (ca : Bool) :
    setXerCaIf ca st.commit = (st.setCa ca).commit := by
  have h : (if ca then 0x20000000#32 else 0) = soBit ca <<< 29 := by cases ca <;> rfl
  simp only [setXerCaIf,h]
  exact congrArg (fun x => { st.commit with xer := x }) (packXer_setCa _ _ _ _ _)

theorem crBits_commit (less greater equal : Bool) :
    crBits less greater equal st.commit.xer = fieldBits less greater equal st.xerSo := by
  simp only [crBits,fieldBits]
  rw [show (st.commit.xer >>> 31) &&& 1#32 = soBit st.xerSo from packXer_so _ _ _ _]
  rfl

theorem crFieldShift_eq (f : BitVec 3) : crFieldShift f = 28 - 4*f.toNat := by
  simp only [crFieldShift]
  omega

theorem commit_setCrField (f : BitVec 3) {bits : BitVec 32} (h : bits &&& 0xF#32 = bits) :
    (st.setCrField f bits).commit = { st.commit with
      cr := (st.commit.cr &&& ~~~(0xF#32 <<< crFieldShift f)) ||| (bits <<< crFieldShift f) } := by
  have hcr : (st.setCrField f bits).commit.cr =
      (st.commit.cr &&& ~~~(0xF#32 <<< crFieldShift f)) ||| (bits <<< crFieldShift f) := by
    rw [crFieldShift_eq]
    exact (packCr_update st.crField f bits).trans (by rw [h]; rfl)
  rw [← hcr]
  rfl

theorem setCrBits_commit (f : BitVec 3) {bits : BitVec 32} (h : bits &&& 0xF#32 = bits) :
    setCrBits f bits st.commit = (st.setCrField f bits).commit :=
  (commit_setCrField st f h).symm

@[simp] theorem emitSetCr0_commit (reg : BitVec 5) :
    emitSetCr0FromGpr reg st.commit = (st.recordCr0 (st.cpu.gpr reg)).commit := by
  rw [recordCr0,commit_setCrField st 0 (fieldBits_nibble _ _ _ _)]
  simp only [emitSetCr0FromGpr,crBits_commit,commit_gpr]
  rfl

@[simp] theorem emitRecordIfNeeded_commit (i : PPCInst) (reg : BitVec 5) :
    emitRecordIfNeeded i reg st.commit = (st.recordIf i.rc (st.cpu.gpr reg)).commit := by
  cases h : i.rc <;> simp [emitRecordIfNeeded,recordIf,h]

@[simp] theorem emitCompareS32_commit (f : BitVec 3) (a b : BitVec 32) :
    emitCompareS32 f a b st.commit =
      (st.setCrField f (fieldBits (a.slt b) (b.slt a) (a == b) st.xerSo)).commit := by
  rw [emitCompareS32,crBits_commit,setCrBits_commit st f (fieldBits_nibble _ _ _ _)]

@[simp] theorem emitCompareU32_commit (f : BitVec 3) (a b : BitVec 32) :
    emitCompareU32 f a b st.commit =
      (st.setCrField f (fieldBits (a.ult b) (b.ult a) (a == b) st.xerSo)).commit := by
  rw [emitCompareU32,crBits_commit,setCrBits_commit st f (fieldBits_nibble _ _ _ _)]

section

variable (a b : Bool)

@[simp] theorem soBit_and : soBit a &&& soBit b = soBit (a && b) := by
  cases a <;> cases b <;> rfl

@[simp] theorem soBit_or : soBit a ||| soBit b = soBit (a || b) := by
  cases a <;> cases b <;> rfl

@[simp] theorem soBit_xor : soBit a ^^^ soBit b = soBit (a ^^ b) := by
  cases a <;> cases b <;> rfl

@[simp] theorem soBit_xor_one : soBit a ^^^ 1#32 = soBit !a := by cases a <;> rfl

end

/-- Bit `r` of the condition register in big-endian numbering. -/
def IRState.crBit (st : IRState) (r : BitVec 5) : Bool :=
  (st.crField (r.extractLsb' 2 3)).getLsbD (3 - r.toNat % 4)

theorem fieldOf_eq (r : BitVec 5) : r.extractLsb' 2 3 = BitVec.ofNat 3 (7 - (31 - r.toNat)/4) := by
  revert r; decide

theorem bitOf_eq (r : BitVec 5) : 3 - r.toNat % 4 = (31 - r.toNat) % 4 := by
  have := r.isLt
  omega

theorem commit_crBit (st : IRState) (r : BitVec 5) :
    st.commit.cr.getLsbD (31 - r.toNat) = st.crBit r := by
  show (packCr st.crField).getLsbD _ = _
  rw [getLsbD_packCr _ _ (by omega),crBit,fieldOf_eq,bitOf_eq]

theorem shiftRight_and_one (v : BitVec 32) (n : Nat) : (v >>> n) &&& 1#32 = soBit (v.getLsbD n) := by
  apply BitVec.eq_of_getLsbD_eq
  intro k hk
  cases k with
  | zero => simp [soBit]
  | succ k => simp [soBit]

theorem getLsbD_one_shl {k j : Nat} (hj : j < 32) : (1#32 <<< k).getLsbD j = decide (j = k) := by
  rw [BitVec.getLsbD_shiftLeft,BitVec.getLsbD_one]
  simp only [hj,decide_true,Bool.true_and]
  by_cases h : j < k
  · simp [h]; omega
  · simp [h]; omega

theorem getLsbD_topBit_shr (r n : Nat) :
    (0x80000000#32 >>> r).getLsbD n = decide (n + r = 31) := by
  rw [show (0x80000000#32) = BitVec.twoPow 32 31 from rfl,BitVec.getLsbD_ushiftRight,
    BitVec.getLsbD_twoPow]
  simp [Nat.add_comm,eq_comm]

theorem getLsbD_insertBit (field : BitVec 32) (b : Bool) {k j : Nat} (hj : j < 4) :
    (((field &&& ~~~(1#32 <<< k)) ||| ((soBit b <<< k) &&& (1#32 <<< k))) &&& 0xF#32).getLsbD j =
      if j = k then b else field.getLsbD j := by
  have h32 : j < 32 := by omega
  rw [BitVec.getLsbD_and,BitVec.getLsbD_or,BitVec.getLsbD_and,BitVec.getLsbD_and,BitVec.getLsbD_not,
    getLsbD_one_shl h32,getLsbD_nibble,BitVec.getLsbD_shiftLeft]
  by_cases h : j = k
  · subst h
    simp [hj,h32,soBit]
  · simp [hj,h32,h]

/-- Replace bit `r`. -/
def IRState.setCrBit (st : IRState) (r : BitVec 5) (b : Bool) : IRState :=
  st.setCrField (r.extractLsb' 2 3)
    (((st.crField (r.extractLsb' 2 3) &&& ~~~(1#32 <<< (3 - r.toNat % 4))) |||
      ((soBit b <<< (3 - r.toNat % 4)) &&& (1#32 <<< (3 - r.toNat % 4)))) &&& 0xF#32)

/-- Writing one bit of a field writes that bit of the packed word. -/
theorem commit_setCrBit (st : IRState) (r : BitVec 5) (b : Bool) :
    (st.setCrBit r b).commit =
    { st.commit with cr := (st.commit.cr &&& ~~~(0x80000000#32 >>> r.toNat)) |||
        (if b then 0x80000000#32 >>> r.toNat else 0) } := by
  have hr := r.isLt
  have hfield : (r.extractLsb' 2 3).toNat = r.toNat / 4 := by revert r; decide
  have hcr (v : BitVec 32)
      (hv : ∀ j, j < 4 → v.getLsbD j = if j = 3 - r.toNat % 4 then b else
        (st.crField (r.extractLsb' 2 3)).getLsbD j) :
      packCr (Function.update st.crField (r.extractLsb' 2 3) v) =
        (st.commit.cr &&& ~~~(0x80000000#32 >>> r.toNat)) |||
          (if b then 0x80000000#32 >>> r.toNat else 0) := by
    apply BitVec.eq_of_getLsbD_eq
    intro n hn
    have hc : st.commit.cr.getLsbD n = (st.crField (BitVec.ofNat 3 (7 - n/4))).getLsbD (n % 4) :=
      getLsbD_packCr st.crField n hn
    have hb : (if b then 0x80000000#32 >>> r.toNat else 0).getLsbD n =
        (b && decide (n + r.toNat = 31)) := by
      cases b
      · simp
      · rw [if_pos rfl,getLsbD_topBit_shr,Bool.true_and]
    rw [getLsbD_packCr _ _ hn,BitVec.getLsbD_or,BitVec.getLsbD_and,BitVec.getLsbD_not,hb,
      getLsbD_topBit_shr,hc]
    by_cases hf : BitVec.ofNat 3 (7 - n/4) = r.extractLsb' 2 3
    · have hq := congrArg BitVec.toNat hf
      rw [hfield,BitVec.toNat_ofNat] at hq
      rw [hf,Function.update_self,hv _ (Nat.mod_lt _ (by decide))]
      by_cases h : n + r.toNat = 31
      · have hj : n % 4 = 3 - r.toNat % 4 := by omega
        simp [h,hj]
      · have hj : n % 4 ≠ 3 - r.toNat % 4 := by omega
        simp [h,hj,hn]
    · have h : n + r.toNat ≠ 31 := by
        intro h
        apply hf
        apply BitVec.eq_of_toNat_eq
        rw [hfield,BitVec.toNat_ofNat]
        omega
      rw [Function.update_of_ne hf]
      simp [h,hn]
  rw [← hcr _ fun j hj => getLsbD_insertBit (st.crField _) b hj]
  rfl

theorem commit_crField (st : IRState) (f : BitVec 3) :
    (st.commit.cr >>> crFieldShift f) &&& 0xF#32 = st.crField f &&& 0xF#32 := by
  apply BitVec.eq_of_getLsbD_eq
  intro n hn
  rw [BitVec.getLsbD_and,BitVec.getLsbD_and,getLsbD_nibble,BitVec.getLsbD_ushiftRight]
  by_cases h : n < 4
  · have hk : crFieldShift f + n < 32 := by
      rw [crFieldShift]
      have := f.isLt
      omega
    have hc : st.commit.cr.getLsbD (crFieldShift f + n) =
        (st.crField (BitVec.ofNat 3 (7 - (crFieldShift f + n)/4))).getLsbD
          ((crFieldShift f + n) % 4) := getLsbD_packCr st.crField _ hk
    have hf : BitVec.ofNat 3 (7 - (crFieldShift f + n)/4) = f := by
      apply BitVec.eq_of_toNat_eq
      rw [BitVec.toNat_ofNat,crFieldShift]
      have := f.isLt
      omega
    have hm : (crFieldShift f + n) % 4 = n := by
      rw [crFieldShift]
      omega
    rw [hc,hf,hm]
  · simp [h]

def IRState.Nibbles (st : IRState) : Prop := ∀ f, st.crField f &&& 0xF#32 = st.crField f

theorem load_nibbles (cpu : CPUState) : (load cpu).Nibbles := by
  intro f
  show unpackCr cpu.cr f &&& 0xF#32 = unpackCr cpu.cr f
  rw [unpackCr,BitVec.and_assoc,BitVec.and_self]

end DolRecomp
