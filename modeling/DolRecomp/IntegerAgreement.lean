import DolRecomp.Lowering
import DolRecomp.Run
import DolRecomp.Commit
import DolRecomp.Words

/-!
# Agreement of the integer family

For each integer instruction, the slots after the lowered operations commit to
the state that the emitted statements compute.
-/

namespace DolRecomp

namespace Builder

variable (m : Machine) (i : PPCInst) (s : Point)

@[simp] theorem effect_finish (reg : BitVec 5) (v : DolIRValue) (hv : v < s.next) :
    effect m (finish reg v) i s = Exec.ofOption ((s.env v).bind Value.asI32) >>= fun x =>
      .next (true, (s.st.setGpr reg x).recordIf i.rc x) := by
  rcases h : s.env v with _ | w
  · simp [finish,setGpr,h]
  · rcases hw : w.asI32 with _ | x
    · have hn : s.st.writeSlot (.gpr reg) w = none := by
        cases w <;> first | rfl | cases hw
      simp [finish,setGpr,h,hn,hw]
    · rw [Value.asI32_eq_some] at hw
      subst hw
      simp [finish,setGpr,effect_recordIfNeeded m i (s.withSt (s.st.setGpr reg x)) v hv h,h]

end Builder

open Builder Words

variable (m : Machine) (i : PPCInst) (s : Point)

/-- What the lowered algebraic shift computes from the amount. -/
theorem shiftAlgebraic_eq (value sh : BitVec 32) :
    (if (31#32).ult sh then (if value.slt 0#32 then 4294967295#32 else 0#32)
      else value.sshiftRight (sh &&& 31#32).toNat,
     if (31#32).ult sh then value.slt 0#32
      else value.slt 0#32 && (value &&& ((1#32 <<< (sh &&& 31#32).toNat) - 1#32) != 0#32)) =
    if sh = 0#32 then (value, false)
    else if (31#32).ult sh then
      (if value &&& 0x80000000#32 = 0#32 then 0#32 else 4294967295#32,
        value &&& 0x80000000#32 != 0#32)
    else (value.sshiftRight sh.toNat,
      (value &&& 0x80000000#32 != 0#32) && value <<< (32 - sh.toNat) != 0#32) := by
  rw [← sign_eq_msb]
  by_cases h0 : sh = 0#32
  · subst h0
    rw [if_pos rfl,show (31#32).ult 0#32 = false from rfl,
      show (0#32 &&& 31#32).toNat = 0 from rfl]
    simp
  · rw [if_neg h0]
    cases hb : (31#32).ult sh
    · have hlt := toNat_lt_of_not_ult hb
      have hpos : 0 < sh.toNat := Nat.pos_of_ne_zero fun h => h0 (BitVec.eq_of_toNat_eq h)
      rw [and_31_of_le hb,lost_bits value hpos hlt]
      rfl
    · by_cases hs : value &&& 0x80000000#32 = 0#32 <;> simp [hs,sign_eq_msb]

theorem rotl32_eq (v sh : BitVec 32) : Emitter.rotl32 v sh = v.rotateLeft sh.toNat := by
  simp only [Emitter.rotl32,toNat_and_31,BitVec.rotateLeft,BitVec.rotateLeftAux]
  split
  · rfl
  · rename_i h
    have h0 : sh.toNat % 32 = 0 := by omega
    apply BitVec.eq_of_getLsbD_eq
    intro n hn
    simp [h0,hn]

theorem ppcMask32_eq (mb me : BitVec 5) : Emitter.ppcMask32 mb me = Builder.ppcMask32 mb me := by
  have h (fuel : Nat) (bit : BitVec 5) (mask : BitVec 32) :
      Emitter.ppcMask32Loop me fuel bit mask = Builder.ppcMask32Loop me fuel bit mask := by
    induction fuel generalizing bit mask with
    | zero => rfl
    | succ fuel ih => simp only [Emitter.ppcMask32Loop,Builder.ppcMask32Loop,ih]
  exact h 32 mb 0

theorem cntlzwLoop_succ (v : BitVec 32) (fuel : Nat) {n : Nat} (hn : n < 32) :
    Emitter.cntlzwLoop v (fuel + 1) n =
      if v.getLsbD (31 - n) then n else Emitter.cntlzwLoop v fuel (n + 1) := by
  rw [Emitter.cntlzwLoop]
  cases hv : v.getLsbD (31 - n)
  · exact if_pos ⟨hn,(and_bit_eq_zero v hn).2 hv⟩
  · refine if_neg fun h => ?_
    rw [(and_bit_eq_zero v hn).1 h.2] at hv
    cases hv

/-- The counting loop finds the highest bit that is set. -/
theorem cntlzwLoop_eq (v : BitVec 32) : BitVec.ofNat 32 (Emitter.cntlzwLoop v 32 0) = v.clz := by
  have h (k : Nat) (hk : k < 32) :
      BitVec.ofNat 32 (Emitter.cntlzwLoop v (k + 1) (31 - k)) = v.clzAuxRec k := by
    induction k with
    | zero =>
      rw [cntlzwLoop_succ v 0 (by decide),BitVec.clzAuxRec_zero]
      cases v.getLsbD 0 <;> rfl
    | succ k ih =>
      have hn : 31 - (31 - (k + 1)) = k + 1 := by omega
      have hs : 31 - (k + 1) + 1 = 31 - k := by omega
      rw [cntlzwLoop_succ v (k + 1) (by omega),BitVec.clzAuxRec_succ,hn,hs,← ih (by omega)]
      split <;> rfl
  exact h 31 (by decide)

/-- The divisor that replaces an invalid one makes the division defined. -/
theorem sdiv_safe (a c : BitVec 32) :
    intOp .sdiv a (if c = 0#32 ∨ a = 0x80000000#32 ∧ c = 0xFFFFFFFF#32 then 1#32 else c) =
      some (a.sdiv (if c = 0#32 ∨ a = 0x80000000#32 ∧ c = 0xFFFFFFFF#32 then 1#32 else c)) := by
  apply intOp_sdiv
  split
  · rintro (h | ⟨-,h⟩) <;> exact absurd h (by decide)
  · rename_i h
    rintro (hc | hc)
    · exact h (.inl hc)
    · exact h (.inr hc)

theorem udiv_safe (a c : BitVec 32) :
    intOp .udiv a (if c = 0#32 then 1#32 else c) = some (a / if c = 0#32 then 1#32 else c) := by
  apply intOp_udiv
  split
  · decide
  · assumption

def immediateOps : List PPCOpcode := [.mulli,.subfic,.addi,.addis,.addic,.addicDot]

def unaryOps : List PPCOpcode := [.neg,.extsb,.extsh,.cntlzw]

def addOps : List PPCOpcode := [.add,.addc,.adde]

def subfOps : List PPCOpcode := [.subf,.subfc,.subfe]

def extendedOps : List PPCOpcode := [.addme,.addze,.subfme,.subfze]

def multiplyOps : List PPCOpcode := [.mullw,.mulhw,.mulhwu]

def divideOps : List PPCOpcode := [.divw,.divwu]

def logicalImmediateOps : List PPCOpcode := [.ori,.oris,.xori,.xoris,.andi,.andis]

def logicalOps : List PPCOpcode := [.and,.andc,.or,.orc,.xor,.nand,.nor,.eqv]

def compareOps : List PPCOpcode := [.cmpi,.cmpli,.cmp,.cmpl]

def shiftOps : List PPCOpcode := [.slw,.srw]

def rotateOps : List PPCOpcode := [.rlwinm,.rlwnm,.rlwimi]

section

open Emitter

theorem lowerImmediate_commits (ho : i.op ∈ immediateOps) :
    commits m (lowerInteger i) i s = .next (true, emitInteger i s.st.commit) := by
  simp only [immediateOps,List.mem_cons,List.not_mem_nil,or_false] at ho
  rcases ho with ho | ho | ho | ho | ho | ho
  · simp [emitInteger,commits,lowerInteger,ho,signExtend_signExtend i.simm]
  · simp [emitInteger,commits,lowerInteger,ho,addWideWithCarry,addWide,wide,signed32,
      BitVec.add_comm (BitVec.setWidth 64 (~~~s.st.cpu.gpr i.rA))]
  · by_cases hA : i.rA = 0#5 <;> simp [emitInteger,commits,lowerInteger,ho,signed32,hA]
  · by_cases hA : i.rA = 0#5 <;> simp [emitInteger,commits,lowerInteger,ho,signed32,hA]
  · simp [emitInteger,commits,lowerInteger,ho,addWide,wide,signed32]
  · simp [emitInteger,commits,lowerInteger,ho,addWide,wide,signed32]

theorem lowerUnary_commits (ho : i.op ∈ unaryOps) (hoe : i.oe = false) :
    commits m (lowerInteger i) i s = .next (true, emitInteger i s.st.commit) := by
  simp only [unaryOps,List.mem_cons,List.not_mem_nil,or_false] at ho
  rcases ho with ho | ho | ho | ho
  · simp [emitInteger,commits,lowerInteger,ho,hoe,overflowIf,← BitVec.neg_eq_not_add]
  · simp [emitInteger,commits,lowerInteger,ho,emitResult,setWidth_signExtend]
  · simp [emitInteger,commits,lowerInteger,ho,emitResult,setWidth_signExtend]
  · simp [emitInteger,commits,lowerInteger,ho,emitResult,cntlzwLoop_eq]

theorem lowerAdd_commits (ho : i.op ∈ addOps) (hoe : i.oe = false) :
    commits m (lowerInteger i) i s = .next (true, emitInteger i s.st.commit) := by
  simp only [addOps,List.mem_cons,List.not_mem_nil,or_false] at ho
  rcases ho with ho | ho | ho
  · simp [emitInteger,commits,lowerInteger,lowerAdd,ho,hoe,emitAdd,overflowIf]
  · simp [emitInteger,commits,lowerInteger,lowerAdd,ho,hoe,emitCarrying,addWide,carryOut,wide,overflowIf]
  · simp [emitInteger,commits,lowerInteger,lowerAdd,ho,hoe,emitCarrying,addWide,carryOut,wide,soBit,overflowIf]

theorem lowerSubf_commits (ho : i.op ∈ subfOps) (hoe : i.oe = false) :
    commits m (lowerInteger i) i s = .next (true, emitInteger i s.st.commit) := by
  simp only [subfOps,List.mem_cons,List.not_mem_nil,or_false] at ho
  rcases ho with ho | ho | ho
  · simp [emitInteger,commits,lowerInteger,lowerSubf,ho,hoe,emitSubf,overflowIf,sub_eq_not_add]
  · simp [emitInteger,commits,lowerInteger,lowerSubf,ho,hoe,emitCarrying,addWide,carryOut,wide,overflowIf,
      BitVec.add_comm ((s.st.cpu.gpr i.rB).setWidth 64)]
  · simp [emitInteger,commits,lowerInteger,lowerSubf,ho,hoe,emitCarrying,addWide,carryOut,wide,soBit,overflowIf]

theorem lowerExtended_commits (ho : i.op ∈ extendedOps)
    (hoe : i.oe = false) :
    commits m (lowerInteger i) i s = .next (true, emitInteger i s.st.commit) := by
  simp only [extendedOps,List.mem_cons,List.not_mem_nil,or_false] at ho
  rcases ho with ho | ho | ho | ho <;>
    simp [emitInteger,commits,lowerInteger,lowerExtended,ho,hoe,emitCarrying,emitAddMinusOne,
      addWideWithCarry,addWide,wide,soBit,overflowIf,high_ne_zero (addMinusOne_lt _ _)]

theorem lowerMultiply_commits (ho : i.op ∈ multiplyOps) (hoe : i.oe = false) :
    commits m (lowerInteger i) i s = .next (true, emitInteger i s.st.commit) := by
  simp only [multiplyOps,List.mem_cons,List.not_mem_nil,or_false] at ho
  rcases ho with ho | ho | ho <;>
    simp [emitInteger,commits,lowerInteger,lowerMultiply,ho,hoe,emitMullw,signedProduct,emitResult,overflowIf,
      wide,mulh_shift]

theorem lowerDivide_commits (ho : i.op ∈ divideOps) (hoe : i.oe = false) :
    commits m (lowerInteger i) i s = .next (true, emitInteger i s.st.commit) := by
  simp only [divideOps,List.mem_cons,List.not_mem_nil,or_false] at ho
  obtain ⟨n,p,st,env⟩ := s
  rcases ho with ho | ho
  · simp [emitInteger,commits,lowerInteger,lowerDivide,ho,hoe,emitDivw,overflowIf,Nat.add_assoc,sdiv_safe]
    split <;> rfl
  · simp [emitInteger,commits,lowerInteger,lowerDivide,ho,hoe,emitDivwu,overflowIf,Nat.add_assoc,udiv_safe]
    split <;> rfl

theorem lowerLogical_commits (ho : i.op ∈ logicalOps) :
    commits m (lowerInteger i) i s = .next (true, emitInteger i s.st.commit) := by
  simp only [logicalOps,List.mem_cons,List.not_mem_nil,or_false] at ho
  rcases ho with ho | ho | ho | ho | ho | ho | ho | ho <;>
    simp [emitInteger,commits,lowerInteger,lowerLogical,ho,emitLogical]

/-- The emitted no-operation form of `ori` writes what the register holds. -/
theorem lowerLogicalImmediate_commits (ho : i.op ∈ logicalImmediateOps) :
    commits m (lowerInteger i) i s = .next (true, emitInteger i s.st.commit) := by
  simp only [logicalImmediateOps,List.mem_cons,List.not_mem_nil,or_false] at ho
  rcases ho with ho | ho | ho | ho | ho | ho
  · by_cases h : i.rS = 0 ∧ i.rA = 0 ∧ i.uimm = 0
    · simp [emitInteger,commits,lowerInteger,lowerLogicalImmediate,ho,h]
    · simp only [emitInteger,ho,if_neg h]
      simp [commits,lowerInteger,lowerLogicalImmediate,ho]
  all_goals simp [emitInteger,commits,lowerInteger,lowerLogicalImmediate,ho]

theorem lowerCompare_commits (ho : i.op ∈ compareOps) :
    commits m (lowerInteger i) i s = .next (true, emitInteger i s.st.commit) := by
  simp only [compareOps,List.mem_cons,List.not_mem_nil,or_false] at ho
  rcases ho with ho | ho | ho | ho <;>
    simp [emitInteger,commits,lowerInteger,lowerCompare,ho,signed32]

theorem lowerShift_commits (ho : i.op ∈ shiftOps) :
    commits m (lowerInteger i) i s = .next (true, emitInteger i s.st.commit) := by
  simp only [shiftOps,List.mem_cons,List.not_mem_nil,or_false] at ho
  cases hb : (31#32).ult (s.st.cpu.gpr i.rB &&& 63#32)
  · have hlt := toNat_lt_of_not_ult hb
    rcases ho with ho | ho <;>
      simp [emitInteger,commits,lowerInteger,lowerShift,ho,emitShift,hb,hlt,and_31_of_le,-BitVec.toNat_and]
  · rcases ho with ho | ho <;>
      simp [emitInteger,commits,lowerInteger,lowerShift,ho,emitShift,hb,toNat_and_31_lt,-BitVec.toNat_and]

theorem lowerSraw_commits (ho : i.op = .sraw) :
    commits m (lowerInteger i) i s = .next (true, emitInteger i s.st.commit) := by
  obtain ⟨n,p,st,env⟩ := s
  simp [emitInteger,commits,lowerInteger,lowerShiftAlgebraic,ho,emitShiftAlgebraic,toNat_and_31_lt,
    effect_recordIfNeeded,Nat.add_assoc,-BitVec.toNat_and]
  rw [← shiftAlgebraic_eq]

theorem lowerSrawi_commits (ho : i.op = .srawi) :
    commits m (lowerInteger i) i s = .next (true, emitInteger i s.st.commit) := by
  obtain ⟨n,p,st,env⟩ := s
  simp [emitInteger,commits,lowerInteger,lowerShiftAlgebraic,ho,emitShiftAlgebraic,toNat_and_31_lt,
    effect_recordIfNeeded,Nat.add_assoc,-BitVec.toNat_and,-BitVec.toNat_setWidth]
  rw [← shiftAlgebraic_eq]

theorem lowerRotate_commits (ho : i.op ∈ rotateOps) :
    commits m (lowerInteger i) i s = .next (true, emitInteger i s.st.commit) := by
  simp only [rotateOps,List.mem_cons,List.not_mem_nil,or_false] at ho
  rcases ho with ho | ho | ho <;>
    simp [emitInteger,commits,lowerInteger,lowerRotate,ho,emitRotate,rotl32_eq,ppcMask32_eq]

end

end DolRecomp
