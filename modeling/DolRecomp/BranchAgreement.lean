import DolRecomp.Agreement

/-!
# Agreement of the branches

Both backends decide a branch by the same tests. They differ in one point: the
lowered branch writes the link register before it knows whether it is taken.
-/

namespace DolRecomp

open Builder IRState

def branchCtr (bo : BitVec 5) (ctr : BitVec 32) : BitVec 32 := if bo.getLsbD 2 then ctr else ctr - 1

def branchTaken (bo bi : BitVec 5) (ctr cr : BitVec 32) : Bool :=
  (bo.getLsbD 2 || ((branchCtr bo ctr != 0) ^^ bo.getLsbD 1)) &&
    (bo.getLsbD 4 || (cr.getLsbD (31 - bi.toNat) == bo.getLsbD 3))

theorem bo_ctr (bo : BitVec 5) : (bo &&& 0x04#5 = 0#5) = (bo[2] = false) := by
  revert bo; decide

theorem bo_cr (bo : BitVec 5) : (bo &&& 0x10#5 = 0#5) = (bo[4] = false) := by
  revert bo; decide

theorem fieldBit_ne_zero (v : BitVec 32) {k : Nat} (hk : k < 4) :
    (v &&& (8#32 >>> k) != 0#32) = v.getLsbD (3 - k) := by
  have h : 8#32 >>> k = BitVec.twoPow 32 (3 - k) := by interval_cases k <;> rfl
  rw [h,BitVec.and_twoPow]
  cases hv : v.getLsbD (3 - k)
  · rfl
  · interval_cases k <;> rfl

theorem crMask_ne_zero (cr : BitVec 32) (bi : BitVec 5) :
    (cr &&& (0x80000000#32 >>> bi.toNat) != 0#32) = cr.getLsbD (31 - bi.toNat) := by
  have h : cr &&& 0x80000000#32 >>> bi.toNat = 0#32 ↔ cr.getLsbD (31 - bi.toNat) = false :=
    Words.and_bit_eq_zero cr bi.isLt
  rw [Bool.eq_iff_iff,bne_iff_ne,ne_eq,h,Bool.not_eq_false]

variable (m : Machine) (i : PPCInst) (s : Point)

theorem value_branchCondition : value m branchCondition i s =
    .next (some (.i1 (branchTaken i.bo i.bi s.st.cpu.ctr s.st.commit.cr)),
      if i.bo.getLsbD 2 then s.st else s.st.setCtr (s.st.cpu.ctr - 1)) := by
  have hk : i.bi.toNat % 4 < 4 := Nat.mod_lt _ (by decide)
  have hf := fieldBit_ne_zero (s.st.crField (i.bi.extractLsb' 2 3)) hk
  have hb := commit_crBit s.st i.bi
  rw [crBit,← hf] at hb
  rw [branchTaken,hb]
  -- the bits that `BO` lets count
  cases h2 : i.bo[2] <;> cases h4 : i.bo[4]
  · cases h1 : i.bo[1] <;> cases h3 : i.bo[3] <;>
      simp [value,branchCondition,bo_ctr,bo_cr,h1,h2,h3,h4,readCrField,branchCtr]
  · cases h1 : i.bo[1] <;>
      simp [value,branchCondition,bo_ctr,bo_cr,h1,h2,h4,branchCtr]
  · cases h3 : i.bo[3] <;>
      simp [value,branchCondition,bo_ctr,bo_cr,h2,h3,h4,readCrField,branchCtr]
  · simp [value,branchCondition,bo_ctr,bo_cr,h2,h4,branchCtr]

def linked (st : IRState) : IRState := if i.lk then st.setLr (i.address + 4) else st

theorem run_writeLink : run m (writeLink i) i s = .next ((),
    if i.lk then (s.push (.i32 (i.address + 4))).withSt (linked i s.st) else s) := by
  cases h : i.lk <;> simp [writeLink,linked,h]

theorem effect_writeLink : effect m (writeLink i) i s = .next ((), linked i s.st) := by
  rw [effect,run_writeLink,Exec.next_bind,linked]
  cases i.lk <;> rfl

def counted (st : IRState) : IRState :=
  if i.bo.getLsbD 2 then st else st.setCtr (st.cpu.ctr - 1)

theorem counted_ctr (st : IRState) : (counted i st).cpu.ctr = branchCtr i.bo st.cpu.ctr := by
  rw [counted,branchCtr]
  split <;> simp

theorem counted_lr (st : IRState) : (counted i st).cpu.lr = st.cpu.lr := by
  rw [counted]
  split <;> simp

theorem linked_ctr (st : IRState) : (linked i st).cpu.ctr = st.cpu.ctr := by
  rw [linked]
  split <;> simp

theorem linked_lr (st : IRState) :
    (linked i st).cpu.lr = if i.lk then i.address + 4 else st.cpu.lr := by
  rw [linked]
  split <;> simp

theorem linked_cr (st : IRState) : (linked i st).commit.cr = st.commit.cr := by
  show packCr (linked i st).crField = packCr st.crField
  rw [linked]
  split <;> simp

def branchView (o : Bool × CPUState) : Bool × BitVec 32 × BitVec 32 × BitVec 32 :=
  (o.1, o.2.pc, o.2.ctr, o.2.lr)

def branchOps : List PPCOpcode := [.b,.bc,.bclr,.bcctr]

def taken (cpu : CPUState) : Bool := i.op = .b ∨ branchTaken i.bo i.bi cpu.ctr cpu.cr

def branchDest (cpu : CPUState) : BitVec 32 :=
  match i.op with
  | .bclr => cpu.lr &&& ~~~3#32
  | .bcctr => cpu.ctr &&& ~~~3#32
  | _ => i.branchTarget

def ctrAfter (cpu : CPUState) : BitVec 32 := if i.op = .b then cpu.ctr else branchCtr i.bo cpu.ctr

/-- What a branch does to the registers that it may change, where `links` tells whether it
writes the link register. -/
def branchResult (links : Bool) (cpu : CPUState) : Bool × BitVec 32 × BitVec 32 × BitVec 32 :=
  (taken i cpu, if taken i cpu then branchDest i cpu else i.address + 4, ctrAfter i cpu,
    if links then i.address + 4 else cpu.lr)

/-- The decision and the end of a lowered branch. -/
def runBranch (chunk : ChunkRange) (index : Nat) (s : Point) : Exec (Bool × CPUState) :=
  run m (lowerBlock chunk index i) i s >>= fun x => do
    let taken ← Machine.terminatorTaken x.1 ⟨x.2.st,x.2.env⟩
    let cpu ← m.execTerminator x.1 ⟨x.2.st,x.2.env⟩
    .next (taken, cpu)

theorem runBranch_b (chunk : ChunkRange) (index : Nat) (hd : i.embeddedData = false)
    (ho : i.op = .b) : ∃ o, runBranch m i chunk index s = .next o ∧
      branchView o = branchResult i i.lk s.st.commit := by
  obtain ⟨s',hrun,hst⟩ := run_of_effect m i s (effect_writeLink m i s)
  have hf : ppcOpUsesFpu .b = false := rfl
  refine ⟨(true,(linked i s.st).materialize i.branchTarget),?_,?_⟩
  · simp only [runBranch,lowerBlock,hd,hf,lowerControl,ho,Bool.false_eq_true,if_false,run_bind,
      run_pure,Exec.next_bind,hrun,Machine.terminatorTaken,Machine.execTerminator,hst]
  · have hc : (linked i s.st).commit.ctr = s.st.commit.ctr := linked_ctr i s.st
    have hl : (linked i s.st).commit.lr = if i.lk then i.address + 4 else s.st.commit.lr :=
      linked_lr i s.st
    simp [branchView,branchResult,taken,branchDest,ctrAfter,ho,IRState.materialize,hc,hl]

theorem runBranch_bc (chunk : ChunkRange) (index : Nat) (hd : i.embeddedData = false)
    (ho : i.op = .bc) : ∃ o, runBranch m i chunk index s = .next o ∧
      branchView o = branchResult i i.lk s.st.commit := by
  obtain ⟨s',hrun,hst⟩ := run_of_effect m i s (effect_writeLink m i s)
  obtain ⟨id,s'',hrun',-,henv,hst'⟩ := run_of_value m i s' (value_branchCondition m i s')
  have hf : ppcOpUsesFpu .bc = false := rfl
  rw [hst,linked_ctr,linked_cr] at henv
  have hst'' : s''.st = counted i (linked i s.st) := by rw [hst',hst,counted]
  refine ⟨(taken i s.st.commit,(counted i (linked i s.st)).materialize
    (if taken i s.st.commit then i.branchTarget else i.address + 4)),?_,?_⟩
  · have ht : branchTaken i.bo i.bi s.st.cpu.ctr s.st.commit.cr = taken i s.st.commit := by
      simp [taken,ho]
      rfl
    simp only [runBranch,lowerBlock,hd,hf,lowerControl,ho,Bool.false_eq_true,if_false,run_bind,
      run_pure,Exec.next_bind,hrun,hrun',Machine.terminatorTaken,Machine.execTerminator,
      Machine.truth,henv,hst'',ht]
  · have hc : (counted i (linked i s.st)).commit.ctr = branchCtr i.bo s.st.commit.ctr :=
      (counted_ctr i _).trans (congrArg _ (linked_ctr i s.st))
    have hl : (counted i (linked i s.st)).commit.lr =
        if i.lk then i.address + 4 else s.st.commit.lr :=
      (counted_lr i _).trans (linked_lr i s.st)
    simp [branchView,branchResult,branchDest,ctrAfter,ho,IRState.materialize,hc,hl]

def targetRegister (cpu : CPUState) : BitVec 32 := if i.op = .bclr then cpu.lr else cpu.ctr

/-- The target is computed before the link register is written. -/
theorem runBranch_indirect (chunk : ChunkRange) (index : Nat) (hd : i.embeddedData = false)
    (ho : i.op = .bclr ∨ i.op = .bcctr) :
    runBranch m i chunk index s = .next (taken i s.st.commit,
      (linked i (counted i s.st)).materialize (if taken i s.st.commit then
        targetRegister i (counted i s.st).cpu &&& ~~~3#32 else i.address + 4)) := by
  obtain ⟨id,s',hrun,hlt,henv,hst⟩ := run_of_value m i s (value_branchCondition m i s)
  have ht : branchTaken i.bo i.bi s.st.cpu.ctr s.st.commit.cr = taken i s.st.commit := by
    rcases ho with ho | ho <;> simp [taken,ho] <;> rfl
  have hid : id ≠ s'.next := Nat.ne_of_lt hlt
  have hidk (k : Nat) : id ≠ s'.next + k := Nat.ne_of_lt (Nat.lt_add_right k hlt)
  rw [ht] at henv
  change s'.st = counted i s.st at hst
  have h1 : ppcOpUsesFpu .bclr = false := rfl
  have h2 : ppcOpUsesFpu .bcctr = false := rfl
  rcases ho with ho | ho <;> cases hlk : i.lk <;> cases hc : taken i s.st.commit <;>
    rw [hc] at henv <;>
    simp [runBranch,lowerBlock,hd,h1,h2,lowerControl,ho,hlk,hrun,run_writeLink,
      Machine.terminatorTaken,Machine.execTerminator,Machine.truth,Machine.word,henv,hst,hid,hidk,
      targetRegister,linked]

/-- A lowered branch reaches the result that writes the link register in every linked form. -/
theorem runBranch_result (chunk : ChunkRange) (index : Nat) (hd : i.embeddedData = false)
    (ho : i.op ∈ branchOps) (hk : Decoder.KeepsCounter i) :
    ∃ o, runBranch m i chunk index s = .next o ∧ branchView o = branchResult i i.lk s.st.commit := by
  have hc : (linked i (counted i s.st)).commit.ctr = branchCtr i.bo s.st.commit.ctr :=
    (linked_ctr i _).trans (counted_ctr i _)
  have hl : (linked i (counted i s.st)).commit.lr =
      if i.lk then i.address + 4 else s.st.commit.lr := by
    refine (linked_lr i _).trans ?_
    rw [counted_lr]
    rfl
  simp only [branchOps,List.mem_cons,List.not_mem_nil,or_false] at ho
  rcases ho with ho | ho | ho | ho
  · exact runBranch_b m i s chunk index hd ho
  · exact runBranch_bc m i s chunk index hd ho
  · refine ⟨_,runBranch_indirect m i s chunk index hd (.inl ho),?_⟩
    have ht : targetRegister i (counted i s.st).cpu = s.st.commit.lr := by
      rw [targetRegister,if_pos ho,counted_lr]
      rfl
    simp [branchView,branchResult,branchDest,ctrAfter,ho,IRState.materialize,hc,hl,ht]
  · refine ⟨_,runBranch_indirect m i s chunk index hd (.inr ho),?_⟩
    -- the counter is the target, so it has not been decremented
    have h2 : i.bo[2] = true := by
      have h : ¬i.bo &&& 4#5 = 0#5 := hk ho
      rwa [bo_ctr,Bool.not_eq_false] at h
    have ht : targetRegister i (counted i s.st).cpu = s.st.commit.ctr := by
      simp [targetRegister,counted,ho,h2]
      rfl
    simp [branchView,branchResult,branchDest,ctrAfter,ho,IRState.materialize,hc,hl,ht]

/-- The decision and the end of an emitted branch. -/
def emittedBranch (cfg : EmitConfig) (cpu : CPUState) : Bool × CPUState :=
  ((Emitter.emitInstruction cfg i cpu).jumps,
    (Emitter.emitInstruction cfg i cpu).nextState i.address)

theorem emitBranchCondition_eq (cpu : CPUState) : Emitter.emitBranchCondition i cpu =
    (branchTaken i.bo i.bi cpu.ctr cpu.cr, { cpu with ctr := branchCtr i.bo cpu.ctr }) := by
  rw [Emitter.emitBranchCondition,branchTaken,branchCtr]
  simp only [crMask_ne_zero,BitVec.ofNat_eq_ofNat,bo_ctr,bo_cr]
  cases h2 : i.bo[2] <;> cases h4 : i.bo[4] <;> simp [h2,h4]

theorem emitBackedge_view (cpu : CPUState) (address : BitVec 32) :
    (Emitter.emitBackedge i cpu).jumps = true ∧
      (Emitter.emitBackedge i cpu).nextState address = { cpu with pc := i.branchTarget } := by
  rw [Emitter.emitBackedge]
  split <;> exact ⟨rfl,rfl⟩

theorem emitCrossChunkCall_view (cfg : EmitConfig) (cpu : CPUState) (address : BitVec 32) :
    ((Emitter.emitCrossChunkCall cfg i cpu).getD (.ret { cpu with pc := i.branchTarget })).jumps =
      true ∧
    ((Emitter.emitCrossChunkCall cfg i cpu).getD
      (.ret { cpu with pc := i.branchTarget })).nextState address =
        { cpu with pc := i.branchTarget } := by
  rw [Emitter.emitCrossChunkCall]
  dsimp only
  repeat' split
  all_goals exact ⟨rfl,rfl⟩

/-- A direct branch goes to its target, whichever way the target is reached. -/
theorem emitDirectBranch_view (cfg : EmitConfig) (cpu : CPUState) (address : BitVec 32) :
    (Emitter.emitDirectBranch cfg i cpu).jumps = true ∧
      (Emitter.emitDirectBranch cfg i cpu).nextState address = { cpu with
        lr := if i.lk then i.address + 4 else cpu.lr, pc := i.branchTarget } := by
  rw [Emitter.emitDirectBranch]
  dsimp only
  cases i.lk
  · repeat' split
    all_goals first | contradiction | exact emitBackedge_view i _ _ | exact ⟨rfl,rfl⟩
  · repeat' split
    all_goals
      first
      | contradiction
      | exact emitBackedge_view i _ _
      | exact emitCrossChunkCall_view i cfg _ _
      | exact ⟨rfl,rfl⟩

/-- An emitted branch writes the link register when it is taken. -/
theorem emittedBranch_result (cfg : EmitConfig) (cpu : CPUState) (hd : i.embeddedData = false)
    (ho : i.op ∈ branchOps) : branchView (emittedBranch i cfg cpu) =
      branchResult i (i.lk && taken i cpu) cpu := by
  have hb := emitBranchCondition_eq i cpu
  have hj (cpu : CPUState) := (emitDirectBranch_view i cfg cpu 0).1
  have hn (cpu : CPUState) (address : BitVec 32) := (emitDirectBranch_view i cfg cpu address).2
  simp only [branchOps,List.mem_cons,List.not_mem_nil,or_false] at ho
  have hp (op : PPCOpcode) (h : i.op = op) (hf : ppcOpUsesFpu op = false) :=
    emitInstruction_plain i cfg cpu hd (h ▸ hf)
  rcases ho with ho | ho | ho | ho <;>
    simp only [emittedBranch,hp _ ho rfl,Emitter.emitStatements,Emitter.emitBranch,
      Emitter.emitDynamicBranch,ho,hb,branchView]
  · simp [hj,hn,branchResult,taken,branchDest,ctrAfter,ho]
  · cases ht : branchTaken i.bo i.bi cpu.ctr cpu.cr <;>
      simp [hj,hn,branchResult,taken,branchDest,ctrAfter,ho,ht]
  · cases ht : branchTaken i.bo i.bi cpu.ctr cpu.cr <;> cases i.lk <;>
      cases hr : cfg.routeLocalReturns <;>
      simp [branchResult,taken,branchDest,ctrAfter,ho,ht]
  · cases ht : branchTaken i.bo i.bi cpu.ctr cpu.cr <;> cases i.lk <;>
      simp [branchResult,taken,branchDest,ctrAfter,ho,ht]

/-- The two results are the same unless an untaken branch has lost the link register. -/
theorem branchResult_eq_iff (cpu : CPUState) :
    branchResult i i.lk cpu = branchResult i (i.lk && taken i cpu) cpu ↔
      (i.lk = false ∨ taken i cpu = true ∨ cpu.lr = i.address + 4) := by
  cases hl : i.lk <;> cases ht : taken i cpu <;> simp [branchResult,ht,eq_comm]

/-- The block of a branch and its emitted statements decide alike and go on at the same
address with the same counter and link register. -/
def BranchAgrees (cfg : EmitConfig) (block : DolIRBlock) (cpu : CPUState) : Prop :=
  ∃ o, m.execBranch block cpu = .next o ∧ branchView o = branchView (emittedBranch i cfg cpu)

/-- The block of a branch always executes. -/
theorem execBranch_built (insts : List PPCInst) (guestStart : BitVec 32) (k : Nat)
    (raw address : BitVec 32) (hk : insts[k]? = some (ppcDecode raw address))
    (ho : (ppcDecode raw address).op ∈ branchOps) :
    ∃ block, (buildFunction insts guestStart).blocks[k]? = some block ∧
      ∀ cpu, ∃ o, m.execBranch block cpu = .next o ∧
        branchView o = branchResult (ppcDecode raw address) (ppcDecode raw address).lk cpu := by
  obtain ⟨block,next,h,hb,hrun⟩ := execBody_built m (ppcDecode raw address) insts guestStart k hk
  refine ⟨block,hb,fun cpu => ?_⟩
  have hx := hrun cpu fun t f => do
    let taken ← Machine.terminatorTaken t f
    let cpu ← m.execTerminator t f
    .next (taken, cpu)
  have hc : (start next h cpu).st.commit = cpu := commit_load cpu
  obtain ⟨o,ho,hv⟩ := runBranch_result m (ppcDecode raw address) (start next h cpu)
    (chunkRange insts guestStart) k (ppcDecode_embeddedData raw address) ho
    (Decoder.ppcDecode_keepsCounter raw address)
  rw [hc] at hv
  exact ⟨o,hx.trans ho,hv⟩

/-- The agreement of a branch fails exactly for an untaken linked branch that finds
another address in the link register. -/
theorem branch_agreement (cfg : EmitConfig) (insts : List PPCInst) (guestStart : BitVec 32)
    (k : Nat) (raw address : BitVec 32) (hk : insts[k]? = some (ppcDecode raw address))
    (ho : (ppcDecode raw address).op ∈ branchOps) (cpu : CPUState) :
    ∃ block, (buildFunction insts guestStart).blocks[k]? = some block ∧
      (BranchAgrees m (ppcDecode raw address) cfg block cpu ↔
        ((ppcDecode raw address).lk = false ∨ taken (ppcDecode raw address) cpu = true ∨
          cpu.lr = address + 4)) := by
  obtain ⟨block,hb,hrun⟩ := execBranch_built m insts guestStart k raw address hk ho
  refine ⟨block,hb,?_⟩
  obtain ⟨o,hx,hv⟩ := hrun cpu
  have he := emittedBranch_result (ppcDecode raw address) cfg cpu
    (ppcDecode_embeddedData raw address) ho
  have hi := branchResult_eq_iff (ppcDecode raw address) cpu
  rw [ppcDecode_address] at hi
  rw [BranchAgrees,hx,← hi,he,← hv]
  constructor
  · rintro ⟨o',ho',h⟩
    cases ho'
    exact h
  · exact fun h => ⟨o,rfl,h⟩

/-- A counted branch with link that is taken. -/
theorem branch_agreement_bdnzl :
    ∃ block, (buildFunction [ppcDecode 0x42000009 0x80003100] 0x80003100).blocks[0]? = some block ∧
      BranchAgrees { host := {} } (ppcDecode 0x42000009 0x80003100) (.single {}) block
        { cpuInit with ctr := 2, lr := 0x80003000 } := by
  obtain ⟨block,hb,hagree⟩ := branch_agreement { host := {} } (.single {})
    [ppcDecode 0x42000009 0x80003100] 0x80003100 0 _ _ rfl (by decide)
    { cpuInit with ctr := 2, lr := 0x80003000 }
  exact ⟨block,hb,hagree.mpr (.inr (.inl (by decide)))⟩

/-- `beql` that is not taken: the lowered branch has written the link register. -/
theorem branch_disagreement_beql :
    ∃ block, (buildFunction [ppcDecode 0x41820009 0x80003100] 0x80003100).blocks[0]? = some block ∧
      ¬BranchAgrees { host := {} } (ppcDecode 0x41820009 0x80003100) (.single {}) block
        cpuInit := by
  obtain ⟨block,hb,hrun⟩ := execBranch_built { host := {} } [ppcDecode 0x41820009 0x80003100]
    0x80003100 0 0x41820009 0x80003100 rfl (by decide)
  refine ⟨block,hb,?_⟩
  rintro ⟨o,ho,h⟩
  obtain ⟨o',ho',hv⟩ := hrun cpuInit
  rw [ho] at ho'
  cases ho'
  have he := emittedBranch_result (ppcDecode 0x41820009 0x80003100) (.single {}) cpuInit
    (by decide) (by decide)
  rw [he,hv] at h
  exact absurd h (by decide)

end DolRecomp
