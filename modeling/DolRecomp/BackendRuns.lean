import DolRecomp.FloatMoveAgreement
import DolRecomp.MemoryDifferences
import DolRecomp.PcMaterialisation

/-!
# Runs of the two backends

On a chunk of instructions that both backends treat alike, running the blocks one after the other,
the guest does what the printed function does.
-/

namespace DolRecomp

open Builder Emitter IRState

section

variable (m : Machine) (i : PPCInst) (s : Point)

theorem linked_commit (st : IRState) : (linked i st).commit =
    { st.commit with lr := if i.lk then i.address + 4 else st.commit.lr } := by
  rw [linked]
  cases i.lk <;> rfl

theorem counted_commit (st : IRState) : (counted i st).commit =
    { st.commit with ctr := branchCtr i.bo st.commit.ctr } := by
  rw [counted,branchCtr]
  cases h : i.bo.getLsbD 2 <;> rfl

/-- Both backends write the link register alike. -/
def LinksAlike (cpu : CPUState) : Prop := i.lk = false ∨ taken i cpu = true

theorem runBlock_of_runBranch {chunk : ChunkRange} {index : ℕ} {o : Bool × CPUState}
    (h : runBranch m i chunk index s = .next o) : runBlock m i chunk index s = .next o.2 := by
  rw [runBranch] at h
  rw [runBlock]
  generalize run m (lowerBlock chunk index i) i s = r at h ⊢
  cases r with
  | exit cpu => cases h
  | stuck => cases h
  | next x =>
    rw [Exec.next_bind] at h ⊢
    generalize Machine.terminatorTaken x.1 ⟨x.2.st,x.2.env⟩ = t at h
    generalize m.execTerminator x.1 ⟨x.2.st,x.2.env⟩ = e at h ⊢
    cases t with
    | exit cpu => cases h
    | stuck => cases h
    | next t =>
      cases e <;> cases h
      rfl

theorem runBlock_b (cfg : EmitConfig) (chunk : ChunkRange) (index : ℕ)
    (hd : i.embeddedData = false) (ho : i.op = .b) : runBlock m i chunk index s =
      .next ((emitInstruction cfg i s.st.commit).nextState i.address) := by
  obtain ⟨s',hrun,hst⟩ := run_of_effect m i s (effect_writeLink m i s)
  have hf : ppcOpUsesFpu .b = false := rfl
  have he : emitInstruction cfg i s.st.commit = emitDirectBranch cfg i s.st.commit := by
    rw [emitInstruction_plain i cfg _ hd (ho ▸ hf)]
    simp only [emitStatements,emitBranch,ho]
  rw [he,(emitDirectBranch_view i cfg s.st.commit i.address).2]
  simp only [runBlock,lowerBlock,hd,hf,lowerControl,ho,Bool.false_eq_true,if_false,run_bind,
    run_pure,Exec.next_bind,hrun,Machine.execTerminator,hst,IRState.materialize,linked_commit]

theorem runBlock_bc (cfg : EmitConfig) (chunk : ChunkRange) (index : ℕ)
    (hd : i.embeddedData = false) (ho : i.op = .bc) (hl : LinksAlike i s.st.commit) :
    runBlock m i chunk index s =
      .next ((emitInstruction cfg i s.st.commit).nextState i.address) := by
  obtain ⟨s',hrun,hst⟩ := run_of_effect m i s (effect_writeLink m i s)
  obtain ⟨id,s'',hrun',-,henv,hst'⟩ := run_of_value m i s' (value_branchCondition m i s')
  have hf : ppcOpUsesFpu .bc = false := rfl
  rw [hst,linked_ctr,linked_cr] at henv
  have hst'' : s''.st = counted i (linked i s.st) := by rw [hst',hst,counted]
  have ht : taken i s.st.commit = branchTaken i.bo i.bi s.st.cpu.ctr s.st.commit.cr := by
    simp [taken,ho]
    rfl
  have he : emitInstruction cfg i s.st.commit = emitBranch cfg i s.st.commit := by
    rw [emitInstruction_plain i cfg _ hd (ho ▸ hf)]
    simp only [emitStatements,ho]
  have hb := emitBranchCondition_eq i s.st.commit
  have hrunBlock : runBlock m i chunk index s = .next ((counted i (linked i s.st)).materialize
      (if taken i s.st.commit then i.branchTarget else i.address + 4)) := by
    simp only [runBlock,lowerBlock,hd,hf,lowerControl,ho,Bool.false_eq_true,if_false,run_bind,
      run_pure,Exec.next_bind,hrun,hrun',Machine.execTerminator,Machine.truth,henv,hst'',ht]
  rw [hrunBlock,he,IRState.materialize,counted_commit,linked_commit]
  simp only [emitBranch,ho,hb]
  have hctr : s.st.commit.ctr = s.st.cpu.ctr := rfl
  rw [hctr,← ht]
  cases htaken : taken i s.st.commit
  · rcases hl with hl | hl
    · simp only [hl,Bool.false_eq_true,if_false,CFlow.nextState_next]
    · rw [htaken] at hl
      cases hl
  · rw [if_pos rfl,if_pos rfl,(emitDirectBranch_view i cfg _ i.address).2]

/-- The target is read before the link register is written. -/
theorem runBlock_indirectBranch (cfg : EmitConfig) (chunk : ChunkRange) (index : ℕ)
    (hd : i.embeddedData = false) (ho : i.op = .bclr ∨ i.op = .bcctr)
    (hk : Decoder.KeepsCounter i) (hl : LinksAlike i s.st.commit) :
    runBlock m i chunk index s =
      .next ((emitInstruction cfg i s.st.commit).nextState i.address) := by
  have hrun := runBlock_of_runBranch m i s (runBranch_indirect m i s chunk index hd ho)
  have hf : ppcOpUsesFpu i.op = false := by rcases ho with ho | ho <;> rw [ho] <;> rfl
  have he : emitInstruction cfg i s.st.commit = emitBranch cfg i s.st.commit := by
    rw [emitInstruction_plain i cfg _ hd hf]
    rcases ho with ho | ho <;> simp only [emitStatements,ho]
  have ht : taken i s.st.commit =
      branchTaken i.bo i.bi s.st.commit.ctr s.st.commit.cr := by
    rcases ho with ho | ho <;> simp [taken,ho]
  have htarget : targetRegister i (counted i s.st).cpu =
      if i.op = .bclr then s.st.commit.lr else s.st.commit.ctr := by
    rw [targetRegister]
    split
    · exact counted_lr i s.st
    · rename_i hne
      -- the counter is the target, so it has not been decremented
      have h2 : i.bo[2] = true := by
        have h : ¬i.bo &&& 4#5 = 0#5 := hk (ho.resolve_left hne)
        rwa [bo_ctr,Bool.not_eq_false] at h
      rw [counted,if_pos (show i.bo.getLsbD 2 = true from h2)]
      rfl
  have hb := emitBranchCondition_eq i s.st.commit
  rw [hrun,he,IRState.materialize,linked_commit,counted_commit,htarget]
  rcases ho with ho | ho
  · simp only [emitBranch,ho,emitDynamicBranch,hb,← ht]
    cases htaken : taken i s.st.commit
    · rcases hl with hl | hl
      · simp [hl]
      · rw [htaken] at hl
        cases hl
    · cases i.lk <;> cases cfg.routeLocalReturns <;> simp
  · simp only [emitBranch,ho,emitDynamicBranch,hb,← ht]
    cases htaken : taken i s.st.commit
    · rcases hl with hl | hl
      · simp [hl]
      · rw [htaken] at hl
        cases hl
    · cases i.lk <;> simp

def Unconditional : Prop := i.op = .b ∨ (i.bo.getLsbD 2 = true ∧ i.bo.getLsbD 4 = true)

instance : Decidable (Unconditional i) := inferInstanceAs (Decidable (_ ∨ _))

/-- Integer, condition-register and memory instructions, branches that decide about the link
register beforehand, and floating-point moves of whole registers. -/
def Agreeing : Prop :=
  (i.op ∈ integerFamily ∧ i.oe = false) ∨ i.op ∈ conditionFamily ∨ i.op ∈ memoryFamily ∨
    (i.op ∈ branchOps ∧ (i.lk = false ∨ Unconditional i)) ∨
    (i.op ∈ floatMoveOps ∧ i.op ∉ pairSignOps)

instance : Decidable (Agreeing i) := inferInstanceAs (Decidable (_ ∨ _))

theorem not_agreeing_unknown (h : i.op = .unknown) : ¬Agreeing i := by
  have hno : PPCOpcode.unknown ∉ integerFamily ++ conditionFamily ++ memoryFamily ++ branchOps ++
      floatMoveOps := by decide
  rw [← h] at hno
  simp only [List.mem_append,not_or] at hno
  obtain ⟨⟨⟨⟨h1,h2⟩,h3⟩,h4⟩,h5⟩ := hno
  rintro (⟨ho,-⟩ | ho | ho | ⟨ho,-⟩ | ⟨ho,-⟩)
  · exact h1 ho
  · exact h2 ho
  · exact h3 ho
  · exact h4 ho
  · exact h5 ho

theorem Unconditional.taken {i : PPCInst} (h : Unconditional i) (cpu : CPUState) :
    taken i cpu = true := by
  rcases h with h | ⟨h2,h4⟩
  · simp [DolRecomp.taken,h]
  · have ht : branchTaken i.bo i.bi cpu.ctr cpu.cr = true := by rw [branchTaken,h2,h4]; rfl
    simp [DolRecomp.taken,ht]

theorem runBlock_branch (cfg : EmitConfig) (chunk : ChunkRange) (index : ℕ)
    (hd : i.embeddedData = false) (ho : i.op ∈ branchOps) (hk : Decoder.KeepsCounter i)
    (hl : LinksAlike i s.st.commit) : runBlock m i chunk index s =
      .next ((emitInstruction cfg i s.st.commit).nextState i.address) := by
  simp only [branchOps,List.mem_cons,List.not_mem_nil,or_false] at ho
  rcases ho with ho | ho | ho | ho
  · exact runBlock_b m i s cfg chunk index hd ho
  · exact runBlock_bc m i s cfg chunk index hd ho hl
  · exact runBlock_indirectBranch m i s cfg chunk index hd (.inl ho) hk hl
  · exact runBlock_indirectBranch m i s cfg chunk index hd (.inr ho) hk hl

theorem runBlock_agreeing (cfg : EmitConfig) (hh : cfg.host = m.host) (chunk : ChunkRange)
    (index : ℕ) (hd : i.embeddedData = false) (hk : Decoder.KeepsCounter i) (hn : s.st.Nibbles)
    (hg : Agreeing i) : (runBlock m i chunk index s).result =
      some ((emitInstruction cfg i s.st.commit).nextState i.address) := by
  rcases hg with ⟨ho,hoe⟩ | ho | ho | ⟨ho,hlk⟩ | ⟨ho,hs⟩
  · obtain ⟨hf,hc,he⟩ := integerFamily_plain i ho chunk
    obtain ⟨st,hst,hcommit⟩ := effect_of_commits m i _ (lowerInteger_commits m i s ho hoe)
    rw [emitInstruction_plain i cfg _ hd hf,he,
      runBlock_agrees m i _ _ index hd hf hc (lowerInstruction_integer m i _ hst) hcommit]
    rfl
  · obtain ⟨hf,hc,he,hs⟩ := conditionFamily_plain m i s ho chunk
    obtain ⟨st,hst,hcommit⟩ := effect_of_commits m i _ (lowerCondition_commits m i s ho hn)
    rw [emitInstruction_plain i cfg _ hd hf,he,
      runBlock_agrees m i _ _ index hd hf hc (hs.trans hst) hcommit]
    rfl
  · rw [runBlock_memory m i s cfg hh ho hd]
    rfl
  · have hl : LinksAlike i s.st.commit := hlk.imp_right fun h => h.taken _
    rw [runBlock_branch m i s cfg chunk index hd ho hk hl]
    rfl
  · exact (runBlock_move m i s cfg chunk index hd ho).mpr (.inr (.inl hs))

end

namespace CFunction

variable (f : CFunction) (m : Machine)

/-- The block at the program counter is executed, with any cycles charged before it, or the chunk
there when that is not in the function. -/
inductive BlockStep (callee : BitVec 32 → CPUState → CPUState) : CPUState → CPUState → Prop
  | block {k : ℕ} {block : DolIRBlock} {cpu cpu' : CPUState} (cycles : BitVec 32)
      (hk : blockForAddress (chunkRange f.insts f.address) cpu.pc = some k)
      (hb : (buildFunction f.insts f.address).blocks[k]? = some block)
      (hx : (m.execBlock block (charge cycles cpu)).result = some cpu') : BlockStep callee cpu cpu'
  | call {cpu : CPUState} (hout : f.contains cpu.pc = false)
      (hchunk : Emitter.chunkStartFor (f.config false false) cpu.pc ≠ 0) : BlockStep callee cpu
        (callee (Emitter.chunkStartFor (f.config false false) cpu.pc) cpu)

def BlockRun (callee : BitVec 32 → CPUState → CPUState) : CPUState → CPUState → Prop :=
  Relation.ReflTransGen (f.BlockStep m callee)

variable {f}

theorem blockForAddress_eq_some {chunk : ChunkRange} {address : BitVec 32} {k : ℕ} :
    blockForAddress chunk address = some k ↔
      ¬(address < chunk.guestStart ∨ chunk.guestEnd ≤ address ∨
        (address - chunk.guestStart) &&& 3#32 ≠ 0) ∧
      (address - chunk.guestStart).toNat/4 < chunk.blockCount ∧
      (address - chunk.guestStart).toNat/4 = k := by
  rw [blockForAddress,Option.ite_none_left_eq_some]
  dsimp only
  rw [Option.ite_none_right_eq_some,Option.some.injEq]

/-- The blocks are found at the addresses of the instructions. -/
theorem FromWords.blockForAddress_iff (hw : f.FromWords) (address : BitVec 32) (k : ℕ) :
    blockForAddress (chunkRange f.insts f.address) address = some k ↔
      ∃ i, f.insts[k]? = some i ∧ address = i.address := by
  have hfits := hw.fits
  have hat (n : ℕ) (hn : n ≤ f.insts.length) :
      (f.address + BitVec.ofNat 32 (4*n)).toNat = f.address.toNat + 4*n := by
    rw [BitVec.toNat_add,BitVec.toNat_ofNat]
    omega
  have hend : (chunkRange f.insts f.address).guestEnd.toNat =
      f.address.toNat + 4*f.insts.length := hat _ le_rfl
  have hstart : (chunkRange f.insts f.address).guestStart = f.address := rfl
  have hcount : (chunkRange f.insts f.address).blockCount = f.insts.length := rfl
  rw [blockForAddress_eq_some,BitVec.lt_def,BitVec.le_def,hend,hstart,hcount]
  constructor
  · rintro ⟨hin,hlt,rfl⟩
    simp only [not_or,not_not] at hin
    obtain ⟨hlo,hhi,h3⟩ := hin
    have hsub : (address - f.address).toNat = address.toNat - f.address.toNat :=
      BitVec.toNat_sub_of_le (BitVec.le_def.mpr (Nat.not_lt.mp hlo))
    have hmod := (Alignment.and_three_eq_zero _).mp h3
    refine ⟨_,List.getElem?_eq_getElem hlt,?_⟩
    rw [hw.address (List.getElem?_eq_getElem hlt)]
    apply BitVec.eq_of_toNat_eq
    rw [hat _ hlt.le]
    omega
  · rintro ⟨i,hi,rfl⟩
    have hlt : k < f.insts.length := (List.getElem?_eq_some_iff.mp hi).1
    have haddr : i.address.toNat = f.address.toNat + 4*k := by rw [hw.address hi,hat k hlt.le]
    have hsub : (i.address - f.address).toNat = 4*k := by
      rw [BitVec.toNat_sub_of_le (BitVec.le_def.mpr (by omega)),haddr]
      omega
    have h3 : (i.address - f.address) &&& 3#32 = 0 :=
      (Alignment.and_three_eq_zero _).mpr (by omega)
    refine ⟨?_,by omega,by omega⟩
    rintro (h | h | h)
    · omega
    · omega
    · exact h h3

theorem FromWords.block_agrees (hw : f.FromWords) (hh : f.host = m.host) {k : ℕ} {i : PPCInst}
    (hi : f.insts[k]? = some i) (hg : Agreeing i) :
    ∃ block, (buildFunction f.insts f.address).blocks[k]? = some block ∧
      ∀ cpu, (m.execBlock block cpu).result =
        some ((emitInstruction f.single i cpu).nextState i.address) := by
  obtain ⟨block,next,h,hb,hrun⟩ := execBlock_built m i f.insts f.address k hi
  refine ⟨block,hb,fun cpu => ?_⟩
  have hd : i.embeddedData = false := by
    by_contra hdata
    have hop := hw.embeddedData i (List.mem_of_getElem? hi) (Bool.not_eq_false _ ▸ hdata)
    exact absurd hg (not_agreeing_unknown i hop)
  have hk : Decoder.KeepsCounter i := by
    obtain ⟨raw,data,rfl,-⟩ := hw.decoded k i hi
    exact Decoder.ppcDecode_keepsCounter raw _
  have hl : (start next h cpu).st.commit = cpu := commit_load cpu
  have hrun' := runBlock_agreeing m i (start next h cpu) f.single hh
    (chunkRange f.insts f.address) k hd hk (load_nibbles cpu) hg
  rw [hl] at hrun'
  rw [hrun,hrun']

theorem FromWords.blockStep_iff (hw : f.FromWords) (hh : f.host = m.host)
    (hg : ∀ i ∈ f.insts, Agreeing i) (callee : BitVec 32 → CPUState → CPUState)
    (cpu cpu' : CPUState) : f.BlockStep m callee cpu cpu' ↔ f.GuestStep callee cpu cpu' := by
  constructor
  · rintro (⟨cycles,hk,hb,hx⟩ | ⟨hout,hchunk⟩)
    · obtain ⟨i,hi,hpc⟩ := (hw.blockForAddress_iff _ _).mp hk
      obtain ⟨block,hb',hagree⟩ := hw.block_agrees m hh hi (hg i (List.mem_of_getElem? hi))
      rw [hb] at hb'
      cases hb'
      rw [hagree] at hx
      cases hx
      exact .instruction cycles hi hpc
    · exact .call hout hchunk
  · rintro (⟨cycles,hi,hpc⟩ | ⟨hout,hchunk⟩)
    · rename_i k i
      obtain ⟨block,hb,hagree⟩ := hw.block_agrees m hh hi (hg i (List.mem_of_getElem? hi))
      exact .block cycles ((hw.blockForAddress_iff _ _).mpr ⟨i,hi,hpc⟩) hb (hagree _)
    · exact .call hout hchunk

variable (f) in
/-- What a run of the blocks of a chunk has to do with its printed function, entered at the same
program counter. -/
structure BackendsAgree (callee : BitVec 32 → CPUState → CPUState) (cpu : CPUState) : Prop where
  follows : ∀ n, f.BlockRun m callee cpu (f.guest (f.states callee cpu n))
  returns : ∀ n, (f.states callee cpu n).site = .returned →
    f.BlockRun m callee cpu (f.states callee cpu n).cpu
  guest : ∀ cpu', f.BlockRun m callee cpu cpu' ↔ f.GuestRun callee cpu cpu'
  defined : ∀ cpu' (k : ℕ) (i : PPCInst), f.BlockRun m callee cpu cpu' → f.insts[k]? = some i →
    cpu'.pc = i.address → ∃ cpu'', f.BlockStep m callee cpu' cpu''

theorem FromWords.blockRun_iff (hw : f.FromWords) (hh : f.host = m.host)
    (hg : ∀ i ∈ f.insts, Agreeing i) (callee : BitVec 32 → CPUState → CPUState)
    (cpu cpu' : CPUState) : f.BlockRun m callee cpu cpu' ↔ f.GuestRun callee cpu cpu' := by
  have hstep := hw.blockStep_iff m hh hg callee
  exact ⟨Relation.ReflTransGen.mono (fun a b => (hstep a b).mp) cpu cpu',
    Relation.ReflTransGen.mono (fun a b => (hstep a b).mpr) cpu cpu'⟩

theorem FromWords.states_guest (hw : f.FromWords) (ho : PlainStatements f.otherStatements)
    (callee : BitVec 32 → CPUState → CPUState) (cpu : CPUState) (n : ℕ) :
    f.Located (f.states callee cpu n) ∧
      f.GuestRun callee cpu (f.guest (f.states callee cpu n)) := by
  induction n with
  | zero =>
    obtain ⟨hg,hl⟩ := hw.enter_guest cpu
    refine ⟨hl,?_⟩
    show f.GuestRun callee cpu (f.guest (f.enter cpu))
    rw [hg]
    exact .refl
  | succ n ih =>
    rw [states_succ]
    obtain ⟨hl,hg⟩ := hw.stepWith_guest ho callee ih.1
    exact ⟨hl,ih.2.trans hg⟩

/-- On a chunk of instructions that both backends treat alike, the blocks of the intermediate
representation run through the states of the printed function and are never undefined. -/
theorem backends_agree (f : CFunction) (hw : f.FromWords) (ho : PlainStatements f.otherStatements)
    (hh : f.host = m.host) (hg : ∀ i ∈ f.insts, Agreeing i)
    (callee : BitVec 32 → CPUState → CPUState) (cpu : CPUState) :
    f.BackendsAgree m callee cpu := by
  have hrun (n : ℕ) := (hw.states_guest ho callee cpu n).2
  have hiff := hw.blockRun_iff m hh hg callee cpu
  refine ⟨fun n => (hiff _).mpr (hrun n),fun n hr => ?_,hiff,fun cpu' k i _ hi hpc => ?_⟩
  · have h := hrun n
    rw [CFunction.guest,hr] at h
    exact (hiff _).mpr h
  · exact ⟨_,(hw.blockStep_iff m hh hg callee _ _).mpr (.instruction 0 hi hpc)⟩

/-- `lwz r4,0(r3)`, `stw r4,4(r3)`, `addi r3,r3,4` and `bdnz` back to the first. -/
def copyLoop : CFunction where
  insts := [ppcDecode 0x80830000 0x80003100,ppcDecode 0x90830004 0x80003104,
    ppcDecode 0x38630004 0x80003108,ppcDecode 0x4200FFF4 0x8000310C]
  address := 0x80003100
  host := {}
  chunkStarts := []
  callEnter := false

theorem copyLoop_fromWords : copyLoop.FromWords := by
  refine ⟨fun k i hk => ?_,by decide⟩
  match k, hk with
  | 0, hk => exact ⟨0x80830000,false,(Option.some.inj hk).symm,fun h => by cases h⟩
  | 1, hk => exact ⟨0x90830004,false,(Option.some.inj hk).symm,fun h => by cases h⟩
  | 2, hk => exact ⟨0x38630004,false,(Option.some.inj hk).symm,fun h => by cases h⟩
  | 3, hk => exact ⟨0x4200FFF4,false,(Option.some.inj hk).symm,fun h => by cases h⟩
  | k + 4, hk => simp [copyLoop] at hk

def copyLoopStart : CPUState := { cpuInit.setGpr 3 0x80001000 with pc := 0x80003100, ctr := 2 }

theorem backends_agree_copyLoop :
    copyLoop.BackendsAgree { host := {} } (fun _ cpu => cpu) copyLoopStart :=
  backends_agree { host := {} } copyLoop copyLoop_fromWords (fun _ _ cpu => .inl ⟨cpu,rfl⟩) rfl
    (by decide) _ _

end CFunction

end DolRecomp
