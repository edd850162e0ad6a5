import DolRecomp.Block
import DolRecomp.ConditionAgreement

/-!
# The two backends agree on the integer and condition-register families

The block of an instruction, run from a processor state, reaches the state in
which the emitted statements go on to the next instruction.
-/

namespace DolRecomp

open Builder Emitter

def integerFamily : List PPCOpcode :=
  immediateOps ++ unaryOps ++ addOps ++ subfOps ++ extendedOps ++ multiplyOps ++ divideOps ++
    logicalImmediateOps ++ logicalOps ++ compareOps ++ shiftOps ++ [.sraw,.srawi] ++ rotateOps

def conditionFamily : List PPCOpcode := crLogicalOps ++ [.mcrf,.mfcr,.mtcrf]

variable (m : Machine) (i : PPCInst) (s : Point)

theorem lowerInteger_commits (ho : i.op ∈ integerFamily) (hoe : i.oe = false) :
    commits m (lowerInteger i) i s = .next (true, emitInteger i s.st.commit) := by
  simp only [integerFamily,List.mem_append,or_assoc,List.mem_cons,List.not_mem_nil,or_false] at ho
  rcases ho with ho | ho | ho | ho | ho | ho | ho | ho | ho | ho | ho | ho | ho | ho
  · exact lowerImmediate_commits m i s ho
  · exact lowerUnary_commits m i s ho hoe
  · exact lowerAdd_commits m i s ho hoe
  · exact lowerSubf_commits m i s ho hoe
  · exact lowerExtended_commits m i s ho hoe
  · exact lowerMultiply_commits m i s ho hoe
  · exact lowerDivide_commits m i s ho hoe
  · exact lowerLogicalImmediate_commits m i s ho
  · exact lowerLogical_commits m i s ho
  · exact lowerCompare_commits m i s ho
  · exact lowerShift_commits m i s ho
  · exact lowerSraw_commits m i s ho
  · exact lowerSrawi_commits m i s ho
  · exact lowerRotate_commits m i s ho

theorem lowerCondition_commits (ho : i.op ∈ conditionFamily) (hn : s.st.Nibbles) :
    commits m (lowerState i) i s = .next (true, emitConditionRegister i s.st.commit) := by
  simp only [conditionFamily,List.mem_append,List.mem_cons,List.not_mem_nil,or_false] at ho
  rcases ho with ho | ho | ho | ho
  · have hl : lowerState i = lowerCrLogical i := by
      simp only [crLogicalOps,List.mem_cons,List.not_mem_nil,or_false] at ho
      rcases ho with ho | ho | ho | ho | ho | ho | ho | ho <;> simp only [lowerState,ho]
    rw [hl,commits,lowerCrLogical_effect m i s ho,Exec.next_bind,← emitCrLogical_eq i s.st ho]
  · exact lowerMcrf_commits m i s ho
  · exact lowerMfcr_commits m i s ho hn
  · exact lowerMtcrf_commits m i s ho

theorem effect_of_commits {b : Builder Bool} {c : CPUState}
    (h : commits m b i s = .next (true, c)) :
    ∃ st, effect m b i s = .next (true, st) ∧ st.commit = c := by
  rw [commits] at h
  rcases he : effect m b i s with ⟨a,st⟩ | cpu | _
  · rw [he] at h
    cases h
    exact ⟨st,rfl,rfl⟩
  · rw [he] at h
    cases h
  · rw [he] at h
    cases h

theorem lowerInstruction_integer {st : IRState}
    (h : effect m (lowerInteger i) i s = .next (true, st)) :
    effect m (lowerInstruction i) i s = .next (true, st) := by
  obtain ⟨s',hrun,hst⟩ := run_of_effect m i s h
  rw [lowerInstruction,effect_bind,hrun,Exec.next_bind,if_pos rfl,effect_pure,hst]

/-- No other lowering function knows the opcodes of `lowerState`. -/
theorem lowerInstruction_state (h1 : lowerInteger i = pure false) (h2 : lowerMemory i = pure false)
    (h3 : lowerFloatMemory i = pure false) (h4 : lowerPsq i = pure false)
    (h5 : lowerFloat i = pure false) (h6 : lowerPaired i = pure false) :
    effect m (lowerInstruction i) i s = effect m (lowerState i) i s := by
  simp only [lowerInstruction,h1,h2,h3,h4,h5,h6,effect_bind,run_pure,Exec.next_bind,
    Bool.false_eq_true,if_false]

theorem integerFamily_plain (ho : i.op ∈ integerFamily) (chunk : ChunkRange) :
    ppcOpUsesFpu i.op = false ∧ lowerControl chunk i = pure none ∧
      ∀ cfg cpu, emitStatements cfg i cpu = .next (emitInteger i cpu) := by
  have hf : ∀ op ∈ integerFamily, ppcOpUsesFpu op = false := by decide
  refine ⟨hf _ ho,?_,?_⟩
  · unfold lowerControl
    split
    case h_7 => rfl
    all_goals rename_i hop; exact absurd (hop ▸ ho) (by decide)
  · intro cfg cpu
    simp only [integerFamily,immediateOps,unaryOps,addOps,subfOps,extendedOps,multiplyOps,divideOps,
      logicalImmediateOps,logicalOps,compareOps,shiftOps,rotateOps,List.cons_append,
      List.nil_append,List.mem_cons,List.not_mem_nil,or_false] at ho
    repeat' obtain ho | ho := ho
    all_goals simp only [emitStatements,ho]

theorem conditionFamily_plain (ho : i.op ∈ conditionFamily) (chunk : ChunkRange) :
    ppcOpUsesFpu i.op = false ∧ lowerControl chunk i = pure none ∧
      (∀ cfg cpu, emitStatements cfg i cpu = .next (emitConditionRegister i cpu)) ∧
      effect m (lowerInstruction i) i s = effect m (lowerState i) i s := by
  simp only [conditionFamily,crLogicalOps,List.cons_append,List.nil_append,List.mem_cons,
    List.not_mem_nil,or_false] at ho
  rcases ho with ho | ho | ho | ho | ho | ho | ho | ho | ho | ho | ho <;>
    exact ⟨by rw [ho]; rfl,by simp only [lowerControl,ho],
      fun _ _ => by simp only [emitStatements,ho],
      lowerInstruction_state m i s (by simp only [lowerInteger,ho])
        (by simp only [lowerMemory,memoryForm,ho])
        (by simp only [lowerFloatMemory,floatMemoryForm,ho,reduceCtorEq,if_false])
        (by simp only [lowerPsq,psqForm,ho]) (by simp only [lowerFloat,exactFloatOf,ho])
        (by simp only [lowerPaired,exactPairedOf,ho])⟩

/-- The emitted statements of an instruction without a floating-point check. -/
theorem emitInstruction_plain (cfg : EmitConfig) (cpu : CPUState) (hd : i.embeddedData = false)
    (hf : ppcOpUsesFpu i.op = false) : emitInstruction cfg i cpu = emitStatements cfg i cpu := by
  rw [emitInstruction,hd,hf]
  rfl

theorem runBlock_agrees (chunk : ChunkRange) (index : Nat) {st : IRState} {cpu : CPUState}
    (hd : i.embeddedData = false) (hf : ppcOpUsesFpu i.op = false)
    (hc : lowerControl chunk i = pure none)
    (h : effect m (lowerInstruction i) i s = .next (true, st)) (hst : st.commit = cpu) :
    runBlock m i chunk index s = .next ((CFlow.next cpu).nextState i.address) := by
  rw [runBlock_fallthrough m i chunk index s hd hf hc h,← hst]
  rfl

/-- For every instruction of the two families and every processor state, the block is
defined and ends in the state of the emitted statements: all registers are the same. -/
theorem integer_agreement (cfg : EmitConfig) (insts : List PPCInst) (guestStart : BitVec 32)
    (k : Nat) (raw address : BitVec 32) (hk : insts[k]? = some (ppcDecode raw address))
    (ho : (ppcDecode raw address).op ∈ integerFamily ++ conditionFamily)
    (hoe : (ppcDecode raw address).oe = false) (cpu : CPUState) :
    ∃ block, (buildFunction insts guestStart).blocks[k]? = some block ∧
      m.execBlock block cpu =
        .next ((emitInstruction cfg (ppcDecode raw address) cpu).nextState address) := by
  obtain ⟨block,next,h,hb,hrun⟩ := execBlock_built m (ppcDecode raw address) insts guestStart k hk
  refine ⟨block,hb,?_⟩
  have hd := ppcDecode_embeddedData raw address
  have ha := ppcDecode_address raw address
  rw [hrun]
  generalize ppcDecode raw address = i at *
  subst ha
  have hl : (start next h cpu).st.commit = cpu := commit_load cpu
  rcases List.mem_append.1 ho with ho | ho
  · obtain ⟨hf,hc,he⟩ := integerFamily_plain i ho (chunkRange insts guestStart)
    have hi := lowerInteger_commits m i (start next h cpu) ho hoe
    obtain ⟨st,hst,hcommit⟩ := effect_of_commits m i _ hi
    rw [emitInstruction_plain i cfg cpu hd hf,he,
      runBlock_agrees m i _ _ k hd hf hc (lowerInstruction_integer m i _ hst) hcommit,hl]
  · obtain ⟨hf,hc,he,hs⟩ := conditionFamily_plain m i (start next h cpu) ho
      (chunkRange insts guestStart)
    have hi := lowerCondition_commits m i (start next h cpu) ho (load_nibbles cpu)
    obtain ⟨st,hst,hcommit⟩ := effect_of_commits m i _ hi
    rw [emitInstruction_plain i cfg cpu hd hf,he,
      runBlock_agrees m i _ _ k hd hf hc (hs.trans hst) hcommit,hl]

/-- The carry is set, and the sum carries again. -/
def carrying : CPUState :=
  { (cpuInit.setGpr 3 0xFFFFFFFF).setGpr 4 1 with xer := 0x20000000 }

/-- The record form of `adde`, alone in its chunk. -/
theorem integer_agreement_adde :
    ∃ block, (buildFunction [ppcDecode 0x7C632115 0x80003100] 0x80003100).blocks[0]? = some block ∧
      Machine.execBlock { host := {} } block carrying =
        .next ((emitInstruction (.single {}) (ppcDecode 0x7C632115 0x80003100) carrying).nextState
          0x80003100) :=
  integer_agreement { host := {} } (.single {}) _ _ 0 _ _ rfl (by decide) (by decide) carrying

end DolRecomp
