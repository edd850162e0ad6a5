import DolRecomp.CFunctionCFG
import DolRecomp.WellFormed

/-!
# Outlined loops

`emit_counted_loop` prints a direct loop as a function of its own. A run of that
function, with every exit at the budget and every return to it, is compared with
a run of the statements that `emit_function` prints for the same instructions.
-/

namespace DolRecomp

/-- The state of `base` with the registers that integer and condition opcodes write. -/
def CPUState.over (base cpu : CPUState) : CPUState :=
  { base with gpr := cpu.gpr, cr := cpu.cr, xer := cpu.xer }

section

variable (i : PPCInst) (base cpu : CPUState)

@[simp] theorem CPUState.over_self : cpu.over cpu = cpu := rfl

@[simp] theorem CPUState.over_gpr : (base.over cpu).gpr = cpu.gpr := rfl

@[simp] theorem CPUState.over_cr : (base.over cpu).cr = cpu.cr := rfl

@[simp] theorem CPUState.over_xer : (base.over cpu).xer = cpu.xer := rfl

namespace Emitter

@[simp] theorem setGpr_over (r : BitVec 5) (value : BitVec 32) :
    (base.over cpu).setGpr r value = base.over (cpu.setGpr r value) := rfl

@[simp] theorem setCrBits_over (crf : BitVec 3) (bits : BitVec 32) :
    setCrBits crf bits (base.over cpu) = base.over (setCrBits crf bits cpu) := rfl

@[simp] theorem emitSetCr0FromGpr_over (reg : BitVec 5) :
    emitSetCr0FromGpr reg (base.over cpu) = base.over (emitSetCr0FromGpr reg cpu) := rfl

@[simp] theorem emitRecordIfNeeded_over (reg : BitVec 5) :
    emitRecordIfNeeded i reg (base.over cpu) = base.over (emitRecordIfNeeded i reg cpu) := by
  unfold emitRecordIfNeeded
  split <;> rfl

@[simp] theorem overflowIf_over (ov : Bool) :
    overflowIf i ov (base.over cpu) = base.over (overflowIf i ov cpu) := by
  unfold overflowIf
  split <;> rfl

@[simp] theorem setXerCa_over (wide : BitVec 64) :
    setXerCa wide (base.over cpu) = base.over (setXerCa wide cpu) := rfl

@[simp] theorem setXerCaIf_over (ca : Bool) :
    setXerCaIf ca (base.over cpu) = base.over (setXerCaIf ca cpu) := rfl

/-- Integer opcodes read and write the general registers, the condition register and `XER`. -/
theorem emitInteger_over : emitInteger i (base.over cpu) = base.over (emitInteger i cpu) := by
  unfold emitInteger
  dsimp only
  split <;> simp [emitCompareS32,emitCompareU32,emitAdd,emitCarrying,emitAddMinusOne,emitSubf,
    emitMullw,emitResult,emitDivw,emitDivwu,emitLogical,emitShift,emitShiftAlgebraic,emitRotate,
    xerCarry,signedProduct]
  all_goals first | rfl | split <;> rfl

theorem emitConditionRegister_over :
    emitConditionRegister i (base.over cpu) = base.over (emitConditionRegister i cpu) := by
  unfold emitConditionRegister
  split
  all_goals first
    | rfl
    | (unfold emitMtcrf; dsimp only; split <;> rfl)

end Emitter

end

section

variable (i : PPCInst) (cpu : CPUState)

@[simp] theorem CPUState.setGpr_downcount (r : BitVec 5) (value : BitVec 32) :
    (cpu.setGpr r value).downcount = cpu.downcount := rfl

namespace Runtime

@[simp] theorem clearMatchingReservation_downcount (addr : BitVec 32) :
    (clearMatchingReservation cpu addr).downcount = cpu.downcount := by
  simp only [clearMatchingReservation]
  split <;> rfl

@[simp] theorem setBytes_downcount (region : Region) (bytes : ℕ → BitVec 8) :
    (setBytes cpu region bytes).downcount = cpu.downcount := by
  cases region <;> rfl

@[simp] theorem memWrite_downcount (addr : BitVec 32) (value : BitVec 64) (width : ℕ) :
    (memWrite cpu addr value width).downcount = cpu.downcount := by
  simp only [memWrite]
  split
  · split <;> simp
  · rfl

end Runtime

namespace Emitter

theorem emitInteger_downcount : (emitInteger i cpu).downcount = cpu.downcount := by
  rw [← cpu.over_self,emitInteger_over]
  rfl

theorem emitConditionRegister_downcount :
    (emitConditionRegister i cpu).downcount = cpu.downcount := by
  rw [← cpu.over_self,emitConditionRegister_over]
  rfl

/-- A plain load or store goes on to the next instruction. -/
theorem emitMemory_next (cfg : EmitConfig) (ho : CFunction.instructionIsOutlinable i)
    (ht : CFunction.instructionIsPcTransparent i = false) :
    ∃ g : CPUState → CPUState, (∀ cpu, (g cpu).downcount = cpu.downcount) ∧
      ∀ cfg' : EmitConfig, cfg'.host = cfg.host → ∀ cpu,
        emitMemory cfg' i cpu = .next (g cpu) := by
  refine ⟨fun cpu => (emitMemory cfg i cpu).cpu,fun cpu => ?_,fun cfg' hh cpu => ?_⟩
  · rw [CFunction.instructionIsOutlinable,ht,Bool.false_or] at ho
    split at ho
    all_goals cases ho
    all_goals
      rename_i h
      simp only [emitMemory,h,CFlow.cpu,emitLoad,emitLoadx,emitLoadAt,emitStore,emitStorex,
        emitStoreAt]
      first | (split <;> rfl) | simp [memWrite8,memWrite16,Runtime.memWrite8,Runtime.memWrite16,
        Runtime.memWrite32]
  · rw [CFunction.instructionIsOutlinable,ht,Bool.false_or] at ho
    split at ho
    all_goals cases ho
    all_goals
      rename_i h
      simp only [emitMemory,h,hh,CFlow.cpu]

end Emitter

end

namespace CFunction

variable (f : CFunction)

def config (directBackedge routeLocalReturns : Bool) : EmitConfig where
  host := f.host
  funcStart := f.address
  funcEnd := f.endAddress
  directBackedge
  routeLocalReturns
  chunkStarts := f.chunkStarts
  callEnter := f.callEnter
  otherStatements := f.otherStatements

def hasLocalReturns : Bool := (List.range f.insts.length).any f.returnTargets

def charge (cycles : BitVec 32) (cpu : CPUState) : CPUState :=
  { cpu with downcount := cpu.downcount - cycles.zeroExtend 64 }

def materialize (index : ℕ) (i : PPCInst) (cpu : CPUState) : CPUState :=
  if f.materializePc index then { cpu with pc := i.address } else cpu

/-- The statements of `emit_function` behind a label. -/
def inlineStatements (index : ℕ) (i : PPCInst) (cpu : CPUState) : CFlow :=
  let cpu := f.materialize index i cpu
  let cpu := if f.leaders index ∧ f.blockCycles index ≠ 0 then charge (f.blockCycles index) cpu
    else cpu
  Emitter.emitInstruction (f.config (f.canLoopDirectly index) f.hasLocalReturns) i cpu

/-- The statements of `emit_counted_loop`; only the first has a label and is charged. -/
def loopStatements (first last index : ℕ) (i : PPCInst) (cpu : CPUState) : CFlow :=
  let cpu := if index = first then charge (f.blockCycles first) cpu else cpu
  let cpu := f.materialize index i cpu
  Emitter.emitInstruction (f.config (index = last) false) i cpu

/-- A point in front of an instruction of the loop, or outside with the next one in `pc`. -/
inductive LoopPoint
  | at (index : ℕ) (cpu : CPUState)
  | left (cpu : CPUState)

def LoopPoint.cpu : LoopPoint → CPUState
  | .at _ cpu | .left cpu => cpu

/-- Where control goes behind the statements of an instruction; both texts leave the loop
for the continuation, by its label or by a return with its address. -/
def follow (first last index : ℕ) (i : PPCInst) : CFlow → LoopPoint
  | .next cpu => if index = last then .left { cpu with pc := i.address + 4 } else .at (index + 1) cpu
  | .goto label cpu =>
    if first ≤ f.indexOf label ∧ f.indexOf label ≤ last then .at (f.indexOf label) cpu
    else .left { cpu with pc := label }
  | .dispatch cpu | .call _ cpu | .ret cpu => .left cpu

/-- One step: an instruction of the loop, or what the rest of the program does before it may
enter the loop again through its first instruction. -/
def step (statements : ℕ → PPCInst → CPUState → CFlow) (rest : CPUState → CPUState)
    (first last : ℕ) : LoopPoint → LoopPoint
  | .at index cpu =>
    match f.insts[index]? with
    | some i => f.follow first last index i (statements index i cpu)
    | none => .left cpu
  | .left cpu =>
    if (rest cpu).pc = f.address + BitVec.ofNat 32 (4*first) then .at first (rest cpu)
    else .left (rest cpu)

def inlineStep (rest : CPUState → CPUState) (first last : ℕ) : LoopPoint → LoopPoint :=
  f.step f.inlineStatements rest first last

def loopStep (rest : CPUState → CPUState) (first last : ℕ) : LoopPoint → LoopPoint :=
  f.step (f.loopStatements first last) rest first last

def bodyCycles (first last : ℕ) : ℕ := ((f.body first last).map instructionCycles).sum

/-- Every run of the outlined loop is a run of the inline text, and every iteration of it
charges the cycles of its instructions. -/
structure OutlinesFaithfully (first last : ℕ) : Prop where
  runs : ∀ rest n cpu, (f.loopStep rest first last)^[n] (.at first cpu) =
    (f.inlineStep rest first last)^[n] (.at first cpu)
  charged : ∀ rest cpu, ∃ cpu',
    (f.loopStep rest first last)^[last - first] (.at first cpu) = .at last cpu' ∧
    (f.loopStep rest first last (.at last cpu')).cpu.downcount =
      cpu.downcount - BitVec.ofNat 64 (f.bodyCycles first last)
  labels : ∀ index i cpu label cpu', first ≤ index → index ≤ last → f.insts[index]? = some i →
    f.loopStatements first last index i cpu = .goto label cpu' → f.indexOf label = first

/-- The facts that `c_function_cfg_build` checks of an outlined loop. -/
structure Outlined (first last : ℕ) (branch : PPCInst) : Prop where
  get : f.insts[last]? = some branch
  op : branch.op = .b ∨ branch.op = .bc
  lk : branch.lk = false
  inside : f.contains branch.branchTarget
  backward : branch.branchTarget ≤ branch.address
  start : f.indexOf branch.branchTarget = first
  lt : first < last
  direct : f.canLoopDirectly last
  straight : ∀ k i, first ≤ k → k < last → f.insts[k]? = some i → instructionEndsBlock i = false
  outlinable : ∀ k i, first ≤ k → k ≤ last → f.insts[k]? = some i → instructionIsOutlinable i

variable {f} {first last : ℕ}

theorem mem_body {k : ℕ} {i : PPCInst} (hf : first ≤ k) (hl : k < last) (hi : f.insts[k]? = some i) :
    i ∈ (f.insts.take last).drop first := by
  refine List.mem_of_getElem? (i := k - first) ?_
  rw [List.getElem?_drop,Nat.add_sub_cancel' hf,List.getElem?_take_of_lt hl,hi]

theorem outlined_of_loopEnds (h : f.loopEnds first = some last) :
    ∃ branch, f.Outlined first last branch := by
  have hmem := List.mem_filter.mp (List.mem_of_getLast? h)
  have ho := hmem.2
  simp only [outlines,Bool.and_eq_true,decide_eq_true_eq,List.all_eq_true,Bool.not_eq_true'] at ho
  obtain ⟨⟨⟨⟨hdirect,hstart⟩,hlt⟩,hstraight⟩,hout⟩ := ho
  have hd := hdirect
  unfold canLoopDirectly at hd
  obtain ⟨branch,hb⟩ : ∃ branch, f.insts[last]? = some branch := by
    cases hb : f.insts[last]? with
    | none => rw [hb] at hd; cases hd
    | some branch => exact ⟨branch,rfl⟩
  rw [hb] at hd
  simp only [Option.any_some,Bool.and_eq_true,decide_eq_true_eq,Bool.not_eq_true'] at hd
  obtain ⟨⟨⟨⟨hop,hlk⟩,hin⟩,hback⟩,-⟩ := hd
  refine ⟨branch,hb,hop,hlk,hin,hback,?_,hlt,hdirect,?_,?_⟩
  · rw [← hstart,loopStart,hb]
    rfl
  · exact fun k i hf hl hi => hstraight i (mem_body hf hl hi)
  · exact fun k i hf hl hi => hout i (mem_body hf (Nat.lt_succ_of_le hl) hi)

theorem unknown_not_outlinable {i : PPCInst} (h : instructionIsOutlinable i) : i.op ≠ .unknown := by
  intro ho
  simp [instructionIsOutlinable,instructionIsPcTransparent,ho] at h

theorem outlinable_not_fpu {i : PPCInst} (h : instructionIsOutlinable i) :
    ppcOpUsesFpu i.op = false := by
  unfold instructionIsOutlinable instructionIsPcTransparent at h
  generalize i.op = op at h ⊢
  cases op <;> first | rfl | cases h

/-- An instruction of the body goes on to the next one, whatever it is printed for. -/
theorem emitInstruction_body (f : CFunction) {i : PPCInst} (ho : instructionIsOutlinable i)
    (hb : instructionEndsBlock i = false) (hd : i.embeddedData = false) :
    ∃ g : CPUState → CPUState, (∀ cpu, (g cpu).downcount = cpu.downcount) ∧
      ∀ d r cpu, Emitter.emitInstruction (f.config d r) i cpu = .next (g cpu) := by
  have hplain : ∀ cfg cpu, Emitter.emitInstruction cfg i cpu = Emitter.emitStatements cfg i cpu :=
    fun cfg cpu => by
      rw [Emitter.emitInstruction,if_neg (by simp [hd]),if_neg (by simp [outlinable_not_fpu ho])]
  simp only [hplain]
  by_cases ht : instructionIsPcTransparent i
  · by_cases hc : i.op ∈ [PPCOpcode.crand,.crandc,.creqv,.crnand,.crnor,.cror,.crorc,.crxor,.mcrf,
        .mfcr,.mtcrf]
    · refine ⟨Emitter.emitConditionRegister i,Emitter.emitConditionRegister_downcount i,?_⟩
      intro d r cpu
      simp only [List.mem_cons,List.not_mem_nil,or_false] at hc
      rcases hc with h | h | h | h | h | h | h | h | h | h | h <;>
        simp only [Emitter.emitStatements,h]
    · refine ⟨Emitter.emitInteger i,Emitter.emitInteger_downcount i,?_⟩
      intro d r cpu
      unfold instructionIsPcTransparent at ht
      split at ht
      all_goals
        rename_i h
        first
          | cases ht; done
          | simp only [Emitter.emitStatements,h]; done
          | simp [h] at hc; done
          | simp [instructionEndsBlock,h] at hb
  · rw [Bool.not_eq_true] at ht
    obtain ⟨g,hg,hnext⟩ := Emitter.emitMemory_next i (f.config false false) ho ht
    refine ⟨g,hg,fun d r cpu => ?_⟩
    rw [← hnext (f.config d r) rfl cpu]
    rw [instructionIsOutlinable,ht,Bool.false_or] at ho
    split at ho
    all_goals cases ho
    all_goals
      rename_i h
      simp only [Emitter.emitStatements,h]

theorem emitBranchCondition_downcount (i : PPCInst) (cpu : CPUState) :
    (Emitter.emitBranchCondition i cpu).2.downcount = cpu.downcount := by
  by_cases h : i.bo &&& 0x04#5 = 0 <;>
    simp only [Emitter.emitBranchCondition,h,if_true,if_false]

theorem emitBackedge_cases (i : PPCInst) (cpu : CPUState) :
    Emitter.emitBackedge i cpu = .ret { cpu with pc := i.branchTarget } ∨
      Emitter.emitBackedge i cpu = .goto i.branchTarget cpu := by
  unfold Emitter.emitBackedge
  split
  · exact Or.inl rfl
  · exact Or.inr rfl

namespace Outlined

variable {branch : PPCInst}

theorem emitDirectBranch (h : f.Outlined first last branch) (r : Bool) (cpu : CPUState) :
    Emitter.emitDirectBranch (f.config true r) branch cpu = Emitter.emitBackedge branch cpu := by
  have hlocal : Emitter.branchTargetIsLocal (f.config true r) branch.branchTarget = true := h.inside
  have hdirect : (f.config true r).directBackedge = true := rfl
  simp only [Emitter.emitDirectBranch,hlocal,h.lk,h.backward,hdirect,decide_true,Bool.and_self,
    if_true,Bool.false_eq_true,if_false]

theorem emitInstruction (h : f.Outlined first last branch) (hd : branch.embeddedData = false)
    (r : Bool) (cpu : CPUState) : Emitter.emitInstruction (f.config true r) branch cpu =
      if branch.op = .b then Emitter.emitBackedge branch cpu
      else if (Emitter.emitBranchCondition branch cpu).1 then
        Emitter.emitBackedge branch (Emitter.emitBranchCondition branch cpu).2
      else .next (Emitter.emitBranchCondition branch cpu).2 := by
  have ho := h.outlinable last branch h.lt.le le_rfl h.get
  rw [Emitter.emitInstruction,if_neg (by simp [hd]),if_neg (by simp [outlinable_not_fpu ho])]
  rcases h.op with hb | hb
  · simp only [Emitter.emitStatements,Emitter.emitBranch,hb,h.emitDirectBranch,if_true]
  · simp only [Emitter.emitStatements,Emitter.emitBranch,hb,h.emitDirectBranch,reduceCtorEq,if_false]

/-- The back edge leaves the cycle counter alone, and only jumps to the first instruction. -/
theorem follow_branch (h : f.Outlined first last branch) (hd : branch.embeddedData = false)
    (r : Bool) (cpu : CPUState) :
    (f.follow first last last branch
      (Emitter.emitInstruction (f.config true r) branch cpu)).cpu.downcount = cpu.downcount ∧
    ∀ label cpu', Emitter.emitInstruction (f.config true r) branch cpu = .goto label cpu' →
      f.indexOf label = first := by
  have hback : ∀ cpu : CPUState,
      (f.follow first last last branch (Emitter.emitBackedge branch cpu)).cpu.downcount =
        cpu.downcount ∧
      ∀ label cpu', Emitter.emitBackedge branch cpu = .goto label cpu' → f.indexOf label = first := by
    intro cpu
    rcases emitBackedge_cases branch cpu with he | he
    · rw [he]
      exact ⟨rfl,fun _ _ h => by cases h⟩
    · rw [he]
      refine ⟨?_,fun label cpu' he => ?_⟩
      · simp only [follow]
        split <;> rfl
      · cases he
        exact h.start
  rw [h.emitInstruction hd]
  split_ifs
  · exact hback cpu
  · rw [← emitBranchCondition_downcount branch cpu]
    exact hback _
  · refine ⟨?_,fun _ _ he => by cases he⟩
    simp only [follow,if_true]
    exact emitBranchCondition_downcount branch cpu

end Outlined

/-- Embedded data are words that do not decode. -/
def EmbeddedDataUnknown (insts : List PPCInst) : Prop :=
  ∀ i ∈ insts, i.embeddedData = true → i.op = .unknown

instance (insts : List PPCInst) : Decidable (EmbeddedDataUnknown insts) :=
  inferInstanceAs (Decidable (∀ i ∈ insts, i.embeddedData = true → i.op = .unknown))

namespace Outlined

variable {branch : PPCInst}

theorem not_embedded (h : f.Outlined first last branch) (hdata : EmbeddedDataUnknown f.insts)
    {k : ℕ} {i : PPCInst} (hf : first ≤ k) (hl : k ≤ last) (hi : f.insts[k]? = some i) :
    i.embeddedData = false := by
  rw [← Bool.not_eq_true]
  intro hd
  exact unknown_not_outlinable (h.outlinable k i hf hl hi) (hdata i (List.mem_of_getElem? hi) hd)

theorem get_of_le (h : f.Outlined first last branch) {k : ℕ} (hl : k ≤ last) :
    ∃ i, f.insts[k]? = some i := by
  have hlast := (List.getElem?_eq_some_iff.mp h.get).1
  exact ⟨_,List.getElem?_eq_getElem (hl.trans_lt hlast)⟩

theorem leaders_first (h : f.Outlined first last branch) (hdata : EmbeddedDataUnknown f.insts) :
    f.leaders first = true := by
  have hlast := (List.getElem?_eq_some_iff.mp h.get).1
  have hto : f.branchesTo branch first = true := by
    simp only [branchesTo,h.not_embedded hdata h.lt.le le_rfl h.get,h.op,h.inside,h.start]
    rfl
  have hany : (f.insts.any fun i => f.branchesTo i first) = true :=
    List.any_eq_true.mpr ⟨branch,List.mem_of_getElem? h.get,hto⟩
  simp only [leaders,hany,Bool.or_true,Bool.and_true,decide_eq_true_eq]
  exact h.lt.trans hlast

theorem leaders_inside (h : f.Outlined first last branch) {k : ℕ} (hf : first < k) (hl : k ≤ last) :
    f.leaders k = true ↔ ∃ i ∈ f.insts, f.branchesTo i k = true := by
  have hlast := (List.getElem?_eq_some_iff.mp h.get).1
  have hk : k ≠ 0 := by omega
  have hfollows : f.followsBlock k = false := by
    obtain ⟨i,hi⟩ := h.get_of_le (k := k - 1) (by omega)
    have hs := h.straight (k - 1) i (by omega) (by omega) hi
    simp [followsBlock,hi,hs]
  have hlt : k < f.insts.length := by omega
  simp [leaders,hfollows,hk,hlt]

end Outlined

theorem leaders_behind_data {index : ℕ} {i : PPCInst} (hi : f.insts[index]? = some i)
    (hd : i.embeddedData = true) (hlt : index + 1 < f.insts.length) :
    f.leaders (index + 1) = true ↔ ∃ j ∈ f.insts, f.branchesTo j (index + 1) = true := by
  have hfollows : f.followsBlock (index + 1) = false := by simp [followsBlock,hi,hd]
  simp [leaders,hfollows,hlt]

theorem instructionCycles_pos {i : PPCInst} (ho : instructionIsOutlinable i)
    (hd : i.embeddedData = false) : 1 ≤ instructionCycles i := by
  have hf : instructionUsesFallback i = false := by
    unfold instructionUsesFallback
    split
    case h_8 => rfl
    all_goals
      rename_i hop
      simp [instructionIsOutlinable,instructionIsPcTransparent,hop] at ho
  unfold instructionCycles
  rw [if_neg (by simp [hd,hf])]
  split <;> omega

theorem instructionCycles_le (i : PPCInst) : instructionCycles i ≤ 40 := by
  unfold instructionCycles
  split
  · omega
  · split <;> omega

theorem body_cons {j : ℕ} {i : PPCInst} (hl : j ≤ last) (hi : f.insts[j]? = some i) :
    f.body j last = i :: f.body (j + 1) last := by
  have ht : (f.insts.take (last + 1))[j]? = some i := by
    rw [List.getElem?_take_of_lt (Nat.lt_succ_of_le hl),hi]
  obtain ⟨hlt,he⟩ := List.getElem?_eq_some_iff.mp ht
  rw [body,List.drop_eq_getElem_cons hlt,he]
  rfl

theorem body_nil : f.body (last + 1) last = [] := by
  rw [body,List.drop_eq_nil_iff,List.length_take]
  exact Nat.min_le_left _ _

theorem bodyCycles_lt (hlen : f.insts.length < 2^32) : f.bodyCycles first last < 2^64 := by
  have hsum : f.bodyCycles first last ≤ (f.body first last).length * 40 := by
    have := List.sum_le_card_nsmul ((f.body first last).map instructionCycles) 40 (by
      intro n hn
      obtain ⟨i,-,rfl⟩ := List.mem_map.mp hn
      exact instructionCycles_le i)
    simpa [bodyCycles] using this
  have hbody : (f.body first last).length ≤ f.insts.length := by
    rw [body,List.length_drop,List.length_take]
    omega
  omega

namespace Outlined

variable {branch : PPCInst}

/-- The cycles up to the next block are those of the body, unless a block begins inside. -/
theorem cyclesFrom (h : f.Outlined first last branch) (hdata : EmbeddedDataUnknown f.insts)
    (n : ℕ) {j : ℕ} (hn : j + n = last) (hf : first ≤ j) :
    (f.cyclesFrom j (f.insts.drop j) = f.bodyCycles j last ∧
      ∀ k, j < k → k ≤ last → f.leaders k = false) ∨
    (f.cyclesFrom j (f.insts.drop j) < f.bodyCycles j last ∧
      ∃ k, j < k ∧ k ≤ last ∧ f.leaders k = true) := by
  induction n generalizing j with
  | zero =>
    obtain rfl : j = last := hn
    have hb : instructionEndsBlock branch = true := by
      rcases h.op with hb | hb <;> simp [instructionEndsBlock,hb]
    obtain ⟨hlt,he⟩ := List.getElem?_eq_some_iff.mp h.get
    refine Or.inl ⟨?_,fun k hk hkl => absurd hkl (by omega)⟩
    rw [List.drop_eq_getElem_cons hlt,he,CFunction.cyclesFrom,if_pos (Or.inl hb),bodyCycles,
      body_cons le_rfl h.get,body_nil]
    simp
  | succ n ih =>
    obtain ⟨i,hi⟩ := h.get_of_le (k := j) (by omega)
    obtain ⟨i',hi'⟩ := h.get_of_le (k := j + 1) (by omega)
    obtain ⟨hlt,he⟩ := List.getElem?_eq_some_iff.mp hi
    have hlt' := (List.getElem?_eq_some_iff.mp hi').1
    have hs := h.straight j i hf (by omega) hi
    have hne : f.insts.drop (j + 1) ≠ [] := by
      rw [ne_eq,List.drop_eq_nil_iff]
      omega
    have hbody : f.bodyCycles j last = instructionCycles i + f.bodyCycles (j + 1) last := by
      rw [bodyCycles,body_cons (by omega) hi,List.map_cons,List.sum_cons]
      rfl
    have hrest : 1 ≤ f.bodyCycles (j + 1) last := by
      have hp := instructionCycles_pos (h.outlinable (j + 1) i' (by omega) (by omega) hi')
        (h.not_embedded hdata (by omega) (by omega) hi')
      rw [bodyCycles,body_cons (by omega) hi',List.map_cons,List.sum_cons]
      omega
    rw [List.drop_eq_getElem_cons hlt,he,CFunction.cyclesFrom,hbody]
    by_cases hl : f.leaders (j + 1) = true
    · rw [if_pos (Or.inr (Or.inr hl))]
      exact Or.inr ⟨by omega,j + 1,by omega,by omega,hl⟩
    · rw [if_neg (by simp [hs,hne,hl])]
      rcases ih (j := j + 1) (by omega) (by omega) with ⟨hc,hno⟩ | ⟨hc,k,hk,hkl,hkt⟩
      · refine Or.inl ⟨by rw [hc],fun k hk hkl => ?_⟩
        by_cases hj : k = j + 1
        · rw [hj,← Bool.not_eq_true]
          exact hl
        · exact hno k (by omega) hkl
      · exact Or.inr ⟨by omega,k,by omega,hkl,hkt⟩

/-- The charge of the loop is that of its iteration exactly when no block begins inside. -/
theorem blockCycles_iff (h : f.Outlined first last branch) (hdata : EmbeddedDataUnknown f.insts)
    (hlen : f.insts.length < 2^32) :
    (f.blockCycles first).zeroExtend 64 = BitVec.ofNat 64 (f.bodyCycles first last) ↔
      (∀ k, first < k → k ≤ last → f.leaders k = false) ∧ f.bodyCycles first last < 2^32 := by
  have hlt : f.bodyCycles first last < 2^64 := bodyCycles_lt hlen
  have hz : (f.blockCycles first).zeroExtend 64 = BitVec.ofNat 64 (f.bodyCycles first last) ↔
      f.cyclesFrom first (f.insts.drop first) % 2^32 = f.bodyCycles first last := by
    rw [blockCycles,if_pos (h.leaders_first hdata),← BitVec.toNat_inj,BitVec.toNat_setWidth,
      BitVec.toNat_ofNat,BitVec.toNat_ofNat,Nat.mod_eq_of_lt hlt,Nat.mod_eq_of_lt]
    omega
  rw [hz]
  have hmod := Nat.mod_le (f.cyclesFrom first (f.insts.drop first)) (2^32)
  rcases h.cyclesFrom hdata (last - first) (Nat.add_sub_cancel' h.lt.le) le_rfl with
    ⟨hc,hno⟩ | ⟨hc,k,hk,hkl,hkt⟩
  · rw [hc]
    refine ⟨fun he => ⟨hno,?_⟩,fun hw => Nat.mod_eq_of_lt hw.2⟩
    rw [← he]
    exact Nat.mod_lt _ (by decide)
  · refine iff_of_false (by omega) fun hw => ?_
    rw [hw.1 k hk hkl] at hkt
    cases hkt

end Outlined

theorem materialize_charge (index : ℕ) (i : PPCInst) (cycles : BitVec 32) (cpu : CPUState) :
    f.materialize index i (charge cycles cpu) = charge cycles (f.materialize index i cpu) := by
  unfold materialize
  split <;> rfl

@[simp] theorem materialize_downcount (index : ℕ) (i : PPCInst) (cpu : CPUState) :
    (f.materialize index i cpu).downcount = cpu.downcount := by
  unfold materialize
  split <;> rfl

theorem charge_zero (cpu : CPUState) : charge 0 cpu = cpu := by
  have h : (0#32).zeroExtend 64 = 0#64 := by decide
  simp [charge,h]

/-- The point lies in front of an instruction of the loop, or outside. -/
def LoopPoint.Inside (first last : ℕ) : LoopPoint → Prop
  | .at index _ => first ≤ index ∧ index ≤ last
  | .left _ => True

theorem follow_inside {index : ℕ} (hf : first ≤ index) (hl : index ≤ last) (i : PPCInst)
    (flow : CFlow) : (f.follow first last index i flow).Inside first last := by
  cases flow with
  | next cpu =>
    simp only [follow]
    split
    · trivial
    · exact ⟨by omega,by omega⟩
  | goto label cpu =>
    simp only [follow]
    split
    · assumption
    · trivial
  | dispatch cpu => trivial
  | call chunk cpu => trivial
  | ret cpu => trivial

theorem step_inside (statements : ℕ → PPCInst → CPUState → CFlow) (rest : CPUState → CPUState)
    (hlt : first < last) {p : LoopPoint} (hp : p.Inside first last) :
    (f.step statements rest first last p).Inside first last := by
  cases p with
  | «at» index cpu =>
    simp only [step]
    split
    · exact follow_inside hp.1 hp.2 _ _
    · trivial
  | left cpu =>
    simp only [step]
    split
    · exact ⟨le_rfl,hlt.le⟩
    · trivial

namespace Outlined

variable {branch : PPCInst}

/-- Without a block inside, both texts print the same statements in effect. -/
theorem statements_eq (h : f.Outlined first last branch) (hdata : EmbeddedDataUnknown f.insts)
    (hno : ∀ k, first < k → k ≤ last → f.leaders k = false) {k : ℕ} {i : PPCInst}
    (hf : first ≤ k) (hl : k ≤ last) (hi : f.insts[k]? = some i) (cpu : CPUState) :
    f.loopStatements first last k i cpu = f.inlineStatements k i cpu := by
  have hd := h.not_embedded hdata hf hl hi
  by_cases hk : k = last
  · subst hk
    obtain rfl : branch = i := Option.some.inj (h.get.symm.trans hi)
    simp only [loopStatements,inlineStatements,if_neg h.lt.ne',hno k h.lt le_rfl,h.direct,decide_true,
      Bool.false_eq_true,false_and,if_false,h.emitInstruction hd]
  · obtain ⟨g,-,hg⟩ := emitInstruction_body f (h.outlinable k i hf hl hi)
      (h.straight k i hf (by omega) hi) hd
    simp only [loopStatements,inlineStatements,hg]
    by_cases hk0 : k = first
    · subst hk0
      rw [if_pos rfl,materialize_charge]
      by_cases hz : f.blockCycles k = 0
      · simp only [hz,ne_eq,not_true_eq_false,and_false,if_false,charge_zero]
      · rw [if_pos ⟨h.leaders_first hdata,hz⟩]
    · rw [if_neg hk0,if_neg (by simp [hno k (by omega) hl])]

theorem step_eq (h : f.Outlined first last branch) (hdata : EmbeddedDataUnknown f.insts)
    (hno : ∀ k, first < k → k ≤ last → f.leaders k = false) (rest : CPUState → CPUState)
    {p : LoopPoint} (hp : p.Inside first last) :
    f.loopStep rest first last p = f.inlineStep rest first last p := by
  cases p with
  | «at» index cpu =>
    obtain ⟨i,hi⟩ := h.get_of_le hp.2
    simp only [loopStep,inlineStep,step,hi,h.statements_eq hdata hno hp.1 hp.2 hi]
  | left cpu => rfl

theorem runs_eq (h : f.Outlined first last branch) (hdata : EmbeddedDataUnknown f.insts)
    (hno : ∀ k, first < k → k ≤ last → f.leaders k = false) (rest : CPUState → CPUState) (n : ℕ)
    {p : LoopPoint} (hp : p.Inside first last) :
    (f.loopStep rest first last)^[n] p = (f.inlineStep rest first last)^[n] p := by
  induction n generalizing p with
  | zero => rfl
  | succ n ih =>
    rw [Function.iterate_succ_apply,Function.iterate_succ_apply,h.step_eq hdata hno rest hp]
    exact ih (step_inside _ rest h.lt hp)

/-- The outlined loop reaches its instructions in order and charges once, at the first. -/
theorem loop_position (h : f.Outlined first last branch) (hdata : EmbeddedDataUnknown f.insts)
    (rest : CPUState → CPUState) (cpu : CPUState) (n : ℕ) (hn : first + n ≤ last) :
    ∃ cpu', (f.loopStep rest first last)^[n] (.at first cpu) = .at (first + n) cpu' ∧
      cpu'.downcount =
        if n = 0 then cpu.downcount else cpu.downcount - (f.blockCycles first).zeroExtend 64 := by
  induction n with
  | zero => exact ⟨cpu,rfl,rfl⟩
  | succ n ih =>
    obtain ⟨c,hc,hdown⟩ := ih (by omega)
    obtain ⟨i,hi⟩ := h.get_of_le (k := first + n) (by omega)
    obtain ⟨g,hg,hnext⟩ := emitInstruction_body f (h.outlinable _ i (by omega) (by omega) hi)
      (h.straight _ i (by omega) (by omega) hi) (h.not_embedded hdata (by omega) (by omega) hi)
    have hlast : first + n ≠ last := by omega
    rw [Function.iterate_succ_apply',hc]
    simp only [loopStep,step,hi,loopStatements,hnext,follow,if_neg hlast]
    refine ⟨_,rfl,?_⟩
    rw [hg,materialize_downcount,if_neg (Nat.succ_ne_zero n)]
    cases n with
    | zero => rw [if_pos (Nat.add_zero first),charge,hdown,if_pos rfl]
    | succ n => rw [if_neg (by omega),hdown,if_neg (Nat.succ_ne_zero n)]

theorem charged (h : f.Outlined first last branch) (hdata : EmbeddedDataUnknown f.insts)
    (rest : CPUState → CPUState) (cpu : CPUState) :
    ∃ cpu', (f.loopStep rest first last)^[last - first] (.at first cpu) = .at last cpu' ∧
      (f.loopStep rest first last (.at last cpu')).cpu.downcount =
        cpu.downcount - (f.blockCycles first).zeroExtend 64 := by
  have hlt := h.lt
  obtain ⟨c,hc,hdown⟩ := h.loop_position hdata rest cpu (last - first) (by omega)
  rw [Nat.add_sub_cancel' hlt.le] at hc
  rw [if_neg (by omega)] at hdown
  refine ⟨c,hc,?_⟩
  have hd := h.not_embedded hdata hlt.le le_rfl h.get
  simp only [loopStep,step,h.get,loopStatements,if_neg hlt.ne',decide_true]
  rw [(h.follow_branch hd false _).1,materialize_downcount,hdown]

theorem labels (h : f.Outlined first last branch) (hdata : EmbeddedDataUnknown f.insts)
    (index : ℕ) (i : PPCInst) (cpu : CPUState) (label : BitVec 32) (cpu' : CPUState)
    (hf : first ≤ index) (hl : index ≤ last) (hi : f.insts[index]? = some i)
    (hs : f.loopStatements first last index i cpu = .goto label cpu') : f.indexOf label = first := by
  have hd := h.not_embedded hdata hf hl hi
  by_cases hk : index = last
  · subst hk
    obtain rfl : branch = i := Option.some.inj (h.get.symm.trans hi)
    simp only [loopStatements,decide_true] at hs
    exact (h.follow_branch hd false _).2 label cpu' hs
  · obtain ⟨g,-,hg⟩ := emitInstruction_body f (h.outlinable index i hf hl hi)
      (h.straight index i hf (by omega) hi) hd
    rw [loopStatements,hg] at hs
    cases hs

end Outlined

theorem charge_of_faithful {branch : PPCInst} (h : f.Outlined first last branch)
    (hdata : EmbeddedDataUnknown f.insts) (hfaith : f.OutlinesFaithfully first last) :
    (f.blockCycles first).zeroExtend 64 = BitVec.ofNat 64 (f.bodyCycles first last) := by
  obtain ⟨c,hc,hsum⟩ := hfaith.charged id cpuInit
  obtain ⟨c',hc',hblock⟩ := h.charged hdata id cpuInit
  obtain rfl : c = c' := by
    have := hc.symm.trans hc'
    cases this
    rfl
  exact sub_right_injective (hblock.symm.trans hsum)

/-- An outlined loop is faithful exactly when no branch of the function goes into the middle of
its body and the cycles of the body fit the constant that is charged for it. -/
theorem outlines_faithfully_iff (f : CFunction) (hdata : EmbeddedDataUnknown f.insts)
    (hlen : f.insts.length < 2^32) (first last : ℕ) (hm : f.loopEnds first = some last) :
    f.OutlinesFaithfully first last ↔
      (∀ i ∈ f.insts, ∀ k, first < k → k ≤ last → f.branchesTo i k = false) ∧
        f.bodyCycles first last < 2^32 := by
  obtain ⟨branch,h⟩ := outlined_of_loopEnds hm
  have hinside : (∀ i ∈ f.insts, ∀ k, first < k → k ≤ last → f.branchesTo i k = false) ↔
      ∀ k, first < k → k ≤ last → f.leaders k = false := by
    constructor
    · intro hno k hf hl
      rw [← Bool.not_eq_true,h.leaders_inside hf hl]
      rintro ⟨i,hi,hto⟩
      rw [hno i hi k hf hl] at hto
      cases hto
    · intro hno i hi k hf hl
      rw [← Bool.not_eq_true]
      intro hto
      have := (h.leaders_inside hf hl).mpr ⟨i,hi,hto⟩
      rw [hno k hf hl] at this
      cases this
  rw [hinside,← h.blockCycles_iff hdata hlen]
  constructor
  · exact charge_of_faithful h hdata
  · intro hcharge
    have hno := ((h.blockCycles_iff hdata hlen).mp hcharge).1
    refine ⟨fun rest n cpu => ?_,fun rest cpu => ?_,h.labels hdata⟩
    · exact h.runs_eq hdata hno rest n ⟨le_rfl,h.lt.le⟩
    · rw [← hcharge]
      exact h.charged hdata rest cpu

/-- `li`, `addi`, `bdnz` back to the `addi`: nothing goes into the middle. -/
theorem outlines_faithfully_countdown : CFunction.OutlinesFaithfully
    ⟨[ppcDecode 0x38600000#32 0x80003000#32,ppcDecode 0x38630001#32 0x80003004#32,
      ppcDecode 0x4200FFFC#32 0x80003008#32],0x80003000#32,{},[],false,fun _ cpu => .ret cpu⟩
    1 2 := by
  refine (outlines_faithfully_iff _ (by decide) (by decide) 1 2 (by decide)).mpr ⟨?_,by decide⟩
  intro i hi k hf hl
  obtain rfl : k = 2 := by omega
  revert i
  decide

/-- A loop entered at its test: `b` to the second `addi`, `addi`, `addi`, `bdnz` to the first.
An iteration of three cycles is charged one. -/
theorem outlined_loop_mischarged : ¬ ∀ (f : CFunction) (first last : ℕ),
    EmbeddedDataUnknown f.insts → f.insts.length < 2^32 → f.loopEnds first = some last →
    f.OutlinesFaithfully first last := by
  intro hall
  let f : CFunction := ⟨[ppcDecode 0x48000008#32 0x80003000#32,
    ppcDecode 0x38630001#32 0x80003004#32,ppcDecode 0x38840001#32 0x80003008#32,
    ppcDecode 0x4200FFF8#32 0x8000300C#32],0x80003000#32,{},[],false,fun _ cpu => .ret cpu⟩
  have hdata : EmbeddedDataUnknown f.insts := by decide
  have hm : f.loopEnds 1 = some 3 := by decide
  obtain ⟨branch,h⟩ := outlined_of_loopEnds hm
  have hcharge := charge_of_faithful h hdata (hall f 1 3 hdata (by decide) hm)
  revert hcharge
  decide

end CFunction

end DolRecomp
