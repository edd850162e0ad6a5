import DolRecomp.IntegerAgreement

/-!
# Agreement of the condition-register family

The lowering works on eight fields, the emitted statements on the packed word:
logical operations on bits, moves of fields, and the two packed moves.
-/

namespace DolRecomp

open Builder Words IRState Emitter

variable (m : Machine) (i : PPCInst) (s : Point)

theorem run_readCrBit (bit : BitVec 5) : run m (readCrBit bit) i s =
    .next (s.next + 4, ((((s.push (.i32 (s.st.crField (bit.extractLsb' 2 3)))).push
      (.i32 (BitVec.ofNat 32 (3 - bit.toNat % 4)))).push
      (.i32 (s.st.crField (bit.extractLsb' 2 3) >>> (3 - bit.toNat % 4)))).push (.i32 1#32)).push
      (.i32 (soBit (s.st.crBit bit)))) := by
  have h : 3 - bit.toNat % 4 < 4294967296 := by omega
  have h' : (3 - bit.toNat % 4) % 4294967296 = 3 - bit.toNat % 4 := Nat.mod_eq_of_lt h
  have h32 : 3 - bit.toNat % 4 < 32 := by omega
  rw [IRState.crBit,← shiftRight_and_one]
  simp [readCrBit,readCrField,h',h32]

/-- The operation of a condition-register logical instruction. -/
def crBoolOp (op : PPCOpcode) (a b : Bool) : Bool :=
  match op with
  | .crand => a && b
  | .crandc => a && !b
  | .creqv => !(a ^^ b)
  | .crnand => !(a && b)
  | .crnor => !(a || b)
  | .cror => a || b
  | .crorc => a || !b
  | _ => a ^^ b

def crLogicalOps : List PPCOpcode := [.crand,.crandc,.creqv,.crnand,.crnor,.cror,.crorc,.crxor]

theorem lowerCrLogical_effect (ho : i.op ∈ crLogicalOps) :
    effect m (lowerCrLogical i) i s = .next (true, s.st.setCrBit i.rD
      (crBoolOp i.op (s.st.crBit i.rA) (s.st.crBit i.rB))) := by
  have h32 : 3 - i.rD.toNat % 4 < 32 := by omega
  have h' : (3 - i.rD.toNat % 4) % 4294967296 = 3 - i.rD.toNat % 4 := Nat.mod_eq_of_lt (by omega)
  simp only [crLogicalOps,List.mem_cons,List.not_mem_nil,or_false] at ho
  rcases ho with ho | ho | ho | ho | ho | ho | ho | ho <;>
    simp [lowerCrLogical,ho,run_readCrBit,insertMasked,writeCrField,readCrField,h32,h',crBoolOp,
      IRState.setCrBit]

theorem emitCrLogical_commit (st : IRState) {expr : BitVec 32 → BitVec 32 → BitVec 32} {c : Bool}
    (h : expr (soBit (st.crBit i.rA)) (soBit (st.crBit i.rB)) &&& 1#32 = soBit c) :
    emitCrLogical i expr st.commit = (st.setCrBit i.rD c).commit := by
  have hc : (soBit c ≠ 0) = (c = true) := by cases c <;> simp [soBit]
  rw [commit_setCrBit]
  simp only [emitCrLogical,shiftRight_and_one,commit_crBit,h,hc]

theorem emitCrLogical_eq (st : IRState) (ho : i.op ∈ crLogicalOps) :
    emitConditionRegister i st.commit =
      (st.setCrBit i.rD (crBoolOp i.op (st.crBit i.rA) (st.crBit i.rB))).commit := by
  simp only [crLogicalOps,List.mem_cons,List.not_mem_nil,or_false] at ho
  rcases ho with ho | ho | ho | ho | ho | ho | ho | ho <;>
    (simp only [emitConditionRegister,ho]
     refine emitCrLogical_commit i st ?_
     cases st.crBit i.rA <;> cases st.crBit i.rB <;> rfl)

theorem lowerMcrf_commits (ho : i.op = .mcrf) :
    commits m (lowerState i) i s = .next (true, emitConditionRegister i s.st.commit) := by
  have h : (s.st.crField i.crfS &&& 0xF#32) &&& 0xF#32 = s.st.crField i.crfS &&& 0xF#32 := by
    rw [BitVec.and_assoc,BitVec.and_self]
  simp only [emitConditionRegister,ho,commit_crField,setCrBits_commit _ _ h]
  simp [commits,lowerState,ho,writeCrField,readCrField]

/-- One more field of the packed word. -/
def packField (st : IRState) (packed : BitVec 32) (f : Nat) : BitVec 32 :=
  packed ||| (st.crField (BitVec.ofNat 3 f) <<< (28 - 4*f))

theorem run_packFields (fields : List Nat) (s : Point) (id : DolIRValue) (packed : BitVec 32)
    (hid : id < s.next) (hv : s.env id = some (.i32 packed)) (hf : ∀ f ∈ fields, f < 8) :
    ∃ s' id', run m (fields.foldlM (fun packed (field : Nat) => do
        let value ← binary .shl .i32 (← readCrField (BitVec.ofNat 3 field))
          (← c32 (BitVec.ofNat 32 (28 - 4*field)))
        binary .or .i32 packed value) id) i s = .next (id', s') ∧ s'.st = s.st ∧ id' < s'.next ∧
      s'.env id' = some (.i32 (fields.foldl (packField s.st) packed)) := by
  induction fields generalizing s id packed with
  | nil => exact ⟨s,id,rfl,rfl,hid,hv⟩
  | cons f fields ih =>
    have hf8 := hf f (List.mem_cons_self ..)
    have h32 : (28 - 4*f) % 4294967296 = 28 - 4*f := Nat.mod_eq_of_lt (by omega)
    have hlt : 28 - 4*f < 32 := by omega
    have h0 : id ≠ s.next := Nat.ne_of_lt hid
    have hk (k : Nat) : id ≠ s.next + k := Nat.ne_of_lt (Nat.lt_add_right k hid)
    rw [List.foldlM_cons,run_bind]
    obtain ⟨s',id',hrun,hst,hid',hv'⟩ := ih ((((s.push (.i32 (s.st.crField (BitVec.ofNat 3 f)))).push
        (.i32 (BitVec.ofNat 32 (28 - 4*f)))).push
        (.i32 (s.st.crField (BitVec.ofNat 3 f) <<< (28 - 4*f)))).push
        (.i32 (packField s.st packed f))) (s.next + 3) (packField s.st packed f) (by simp) (by simp)
        fun g hg => hf g (List.mem_cons_of_mem _ hg)
    refine ⟨s',id',?_,hst,hid',hv'⟩
    rw [← hrun]
    simp [readCrField,h0,hk,hv,h32,hlt,packField]

theorem lowerMfcr_commits (ho : i.op = .mfcr) (hn : s.st.Nibbles) :
    commits m (lowerState i) i s = .next (true, emitConditionRegister i s.st.commit) := by
  obtain ⟨s',id,hrun,hst,-,hv⟩ := run_packFields m i [0,1,2,3,4,5,6,7] (s.push (.i32 0)) s.next 0
    (by simp) (by simp) (by decide)
  have hn' : ∀ f, s.st.crField f &&& 0xF#32 = s.st.crField f := hn
  have hcr : [0,1,2,3,4,5,6,7].foldl (packField s.st) 0 = s.st.commit.cr := by
    show _ = DolRecomp.packCr s.st.crField
    simp [DolRecomp.packCr,hn',packField]
  rw [Point.push_st,hcr] at hv
  have hp : run m Builder.packCr i s = .next (id, s') := by
    rw [Builder.packCr,run_bind,run_c32,Exec.next_bind]
    exact hrun
  simp only [emitConditionRegister,ho,commits,lowerState,effect_bind,hp,Exec.next_bind]
  simp [hv,hst]

def writeField (crm : BitVec 8) (v : BitVec 32) (st : IRState) (f : Nat) : IRState :=
  if crm.getLsbD (7 - f) then
    st.setCrField (BitVec.ofNat 3 f) ((v >>> (28 - 4*f)) &&& 0xF#32) else st

@[simp] theorem writeField_cpu (crm : BitVec 8) (v : BitVec 32) (st : IRState) (f : Nat) :
    (writeField crm v st f).cpu = st.cpu := by
  rw [writeField]
  split
  · exact setCrField_cpu ..
  · rfl

theorem run_mtcrfSteps (fields : List Nat) (hf : ∀ f ∈ fields, f < 8) :
    ∃ s', run m (fields.forM (lowerMtcrfStep i)) i s = .next ((), s') ∧
      s'.st = fields.foldl (writeField i.crm (s.st.cpu.gpr i.rS)) s.st := by
  induction fields generalizing s with
  | nil => exact ⟨s,rfl,rfl⟩
  | cons f fields ih =>
    have hf8 := hf f (List.mem_cons_self ..)
    have h32 : (28 - 4*f) % 4294967296 = 28 - 4*f := Nat.mod_eq_of_lt (by omega)
    have hlt : 28 - 4*f < 32 := by omega
    have hstep : effect m (lowerMtcrfStep i f) i s =
        .next ((), writeField i.crm (s.st.cpu.gpr i.rS) s.st f) := by
      cases h : i.crm.getLsbD (7 - f) <;>
        simp [lowerMtcrfStep,writeField,writeCrField,h,h32,hlt]
    obtain ⟨s₁,hrun,hst⟩ := run_of_effect _ _ _ hstep
    obtain ⟨s',hrun',hst'⟩ := ih s₁ fun g hg => hf g (List.mem_cons_of_mem _ hg)
    refine ⟨s',?_,?_⟩
    · rw [run_forM_cons,hrun,Exec.next_bind,hrun']
    · rw [hst',hst,writeField_cpu,List.foldl_cons]

theorem foldl_writeField (crm : BitVec 8) (v : BitVec 32) (fields : List Nat) (st : IRState) :
    fields.foldl (writeField crm v) st =
      { st with crField := (fields.foldl (writeField crm v) st).crField } := by
  induction fields generalizing st with
  | nil => rfl
  | cons f fields ih =>
    rw [List.foldl_cons,ih]
    rw [writeField]
    split <;> rfl

theorem writeField_crField (crm : BitVec 8) (v : BitVec 32) (st : IRState) (f : Nat) (g : BitVec 3) :
    (writeField crm v st f).crField g =
      if crm.getLsbD (7 - f) ∧ g = BitVec.ofNat 3 f then (v >>> (28 - 4*f)) &&& 0xF#32
      else st.crField g := by
  rw [writeField]
  cases h : crm.getLsbD (7 - f)
  · simp
  · simp [IRState.setCrField,Function.update_apply]

/-- Every field is copied whose bit of the mask is set. -/
theorem writeFields_crField (crm : BitVec 8) (v : BitVec 32) (st : IRState) (g : BitVec 3) :
    ((List.range 8).foldl (writeField crm v) st).crField g =
      if crm.getLsbD (7 - g.toNat) then (v >>> (28 - 4*g.toNat)) &&& 0xF#32
      else st.crField g := by
  have h : List.range 8 = [0,1,2,3,4,5,6,7] := rfl
  obtain ⟨g,hg⟩ := g
  rw [h]
  have hg' : g < 8 := hg
  interval_cases g <;>
    simp only [List.foldl_cons,List.foldl_nil,writeField_crField] <;> simp

theorem getLsbD_mtcrfMask (crm : BitVec 8) (n : Nat) (hn : n < 32) :
    (mtcrfMask crm).getLsbD n = crm.getLsbD (n/4) := by
  have h : List.range 8 = [0,1,2,3,4,5,6,7] := rfl
  have hb (k : Nat) (hk : k < 8) : (crm &&& (0x80#8 >>> k) ≠ 0) = (crm.getLsbD (7 - k) = true) := by
    rw [show 0x80#8 >>> k = BitVec.twoPow 8 (7 - k) by interval_cases k <;> rfl,BitVec.and_twoPow]
    cases crm.getLsbD (7 - k)
    · simp
    · interval_cases k <;> simp +decide
  have hi (c : Bool) (a b : BitVec 32) : (if c = true then a ||| b else a).getLsbD n =
      (a.getLsbD n || (c && b.getLsbD n)) := by cases c <;> simp
  simp only [mtcrfMask,h,List.foldl_cons,List.foldl_nil,hb,Nat.reduceLT,hi]
  interval_cases n <;> simp [Emitter.crFieldShift]

theorem commit_writeFields (crm : BitVec 8) (v : BitVec 32) (st : IRState) :
    ((List.range 8).foldl (writeField crm v) st).commit = { st.commit with
      cr := (st.commit.cr &&& ~~~mtcrfMask crm) ||| (v &&& mtcrfMask crm) } := by
  have hcr : DolRecomp.packCr ((List.range 8).foldl (writeField crm v) st).crField =
      (st.commit.cr &&& ~~~mtcrfMask crm) ||| (v &&& mtcrfMask crm) := by
    apply BitVec.eq_of_getLsbD_eq
    intro n hn
    have hc : st.commit.cr.getLsbD n = (st.crField (BitVec.ofNat 3 (7 - n/4))).getLsbD (n % 4) :=
      getLsbD_packCr st.crField n hn
    have hf : (BitVec.ofNat 3 (7 - n/4)).toNat = 7 - n/4 := by
      rw [BitVec.toNat_ofNat]
      omega
    have hq : 7 - (7 - n/4) = n/4 := by omega
    have hs : 28 - 4*(7 - n/4) + n % 4 = n := by omega
    have hm : n % 4 < 4 := Nat.mod_lt _ (by decide)
    rw [getLsbD_packCr _ _ hn,writeFields_crField,BitVec.getLsbD_or,BitVec.getLsbD_and,
      BitVec.getLsbD_and,BitVec.getLsbD_not,getLsbD_mtcrfMask _ _ hn,hc,hf,hq]
    cases h : crm.getLsbD (n/4)
    · simp [hn]
    · rw [if_pos rfl,BitVec.getLsbD_and,BitVec.getLsbD_ushiftRight,getLsbD_nibble,hs]
      simp [hm]
  rw [foldl_writeField,← hcr]
  rfl

theorem lowerMtcrf_commits (ho : i.op = .mtcrf) :
    commits m (lowerState i) i s = .next (true, emitConditionRegister i s.st.commit) := by
  obtain ⟨s',hrun,hst⟩ := run_mtcrfSteps m i s (List.range 8) fun f hf => List.mem_range.1 hf
  have hz (h : mtcrfMask i.crm = 0#32) : { s.st.commit with
      cr := (s.st.commit.cr &&& ~~~mtcrfMask i.crm) |||
        (s.st.cpu.gpr i.rS &&& mtcrfMask i.crm) } = s.st.commit := by
    rw [h,BitVec.and_zero,BitVec.or_zero,BitVec.not_zero,BitVec.and_allOnes]
  simp only [emitConditionRegister,ho,commits,lowerState,effect_bind,hrun,Exec.next_bind,
    effect_pure,hst,commit_writeFields,emitMtcrf,commit_gpr]
  split
  · rfl
  · rename_i h
    rw [hz (not_not.1 h)]

end DolRecomp
