import DolRecomp.FunctionProgress
import DolRecomp.BranchAgreement
import DolRecomp.PlainStatements
import Mathlib.Logic.Relation

/-!
# The program counter of generated functions

Inside direct loops the stores of the program counter are left out in front of
instructions that cannot see it. A run of the printed function is a run of the guest,
one instruction after the other, and leaves with the address of the next one.
-/

namespace DolRecomp

/-- `ctx->pc = address;` -/
def CPUState.withPc (address : BitVec 32) (cpu : CPUState) : CPUState := { cpu with pc := address }

/-- What a call of the runtime would show: the accesses to memory and the pending exceptions. -/
def CPUState.calls (cpu : CPUState) : List MemAccess × BitVec 32 := (cpu.history,cpu.exception)

/-- Opcodes that touch other registers only leave both alone. -/
theorem over_calls {g : CPUState → CPUState}
    (hg : ∀ base cpu : CPUState, g (base.over cpu) = base.over (g cpu)) (cpu : CPUState) :
    (g cpu).calls = cpu.calls := by
  rw [← cpu.over_self,hg]
  rfl

theorem over_withPc {g : CPUState → CPUState}
    (hg : ∀ base cpu : CPUState, g (base.over cpu) = base.over (g cpu)) (cpu : CPUState)
    (address : BitVec 32) : g (cpu.withPc address) = (g cpu).withPc address := by
  have hself : g cpu = cpu.over (g cpu) := hg cpu cpu
  rw [hself]
  exact hg (cpu.withPc address) cpu

/-- The same end with another program counter in it; a way out of the function has set its own. -/
def CFlow.withPc (address : BitVec 32) : CFlow → CFlow
  | .next cpu => .next (cpu.withPc address)
  | .goto label cpu => .goto label (cpu.withPc address)
  | flow => flow

@[simp] theorem CFlow.withPc_nextState (flow : CFlow) (stale address : BitVec 32) :
    (flow.withPc stale).nextState address = flow.nextState address := by
  cases flow <;> rfl

theorem CFlow.nextState_calls (flow : CFlow) (address : BitVec 32) :
    (flow.nextState address).calls = flow.cpu.calls := by
  cases flow <;> rfl

/-- The statements make no access to memory, raise no exception and do not read the program
counter. -/
structure Unobserving (i : PPCInst) : Prop where
  calls : ∀ cfg cpu, (Emitter.emitInstruction cfg i cpu).cpu.calls = cpu.calls
  stale : ∀ cfg cpu address, Emitter.emitInstruction cfg i (cpu.withPc address) =
    (Emitter.emitInstruction cfg i cpu).withPc address

namespace Emitter

section

variable (cfg : EmitConfig) (i : PPCInst) (cpu : CPUState) (address : BitVec 32)

theorem emitBranchCondition_calls : (emitBranchCondition i cpu).2.calls = cpu.calls := by
  by_cases h : i.bo &&& 0x04#5 = 0
  · simp only [emitBranchCondition,h,if_true]
    rfl
  · simp only [emitBranchCondition,h,if_false]

theorem emitBranchCondition_withPc : emitBranchCondition i (cpu.withPc address) =
    ((emitBranchCondition i cpu).1,(emitBranchCondition i cpu).2.withPc address) := by
  by_cases h : i.bo &&& 0x04#5 = 0
  · simp only [emitBranchCondition,h,if_true]
    rfl
  · simp only [emitBranchCondition,h,if_false]
    rfl

theorem emitBackedge_withPc :
    emitBackedge i (cpu.withPc address) = (emitBackedge i cpu).withPc address := by
  have hd : (cpu.withPc address).downcount = cpu.downcount := rfl
  unfold emitBackedge
  rw [hd]
  split <;> rfl

theorem emitDirectBranch_calls : (emitDirectBranch cfg i cpu).cpu.calls = cpu.calls := by
  rw [← CFlow.nextState_calls _ 0,(emitDirectBranch_view i cfg cpu 0).2]
  rfl

theorem emitDirectBranch_withPc :
    emitDirectBranch cfg i (cpu.withPc address) = (emitDirectBranch cfg i cpu).withPc address := by
  unfold emitDirectBranch
  dsimp only
  split
  · split
    · split
      · exact emitBackedge_withPc i { cpu with lr := i.address + 4 } address
      · rfl
    · unfold emitCrossChunkCall
      dsimp only
      split
      · rfl
      · split
        · rfl
        · split <;> rfl
  · split
    · split
      · exact emitBackedge_withPc i cpu address
      · rfl
    · split <;> rfl

theorem emitBranch_calls (hop : i.op = .b ∨ i.op = .bc) :
    (emitBranch cfg i cpu).cpu.calls = cpu.calls := by
  rcases hop with hop | hop
  · simp only [emitBranch,hop]
    exact emitDirectBranch_calls cfg i cpu
  · simp only [emitBranch,hop]
    rw [← emitBranchCondition_calls i cpu]
    split
    · exact emitDirectBranch_calls cfg i _
    · rfl

theorem emitBranch_withPc (hop : i.op = .b ∨ i.op = .bc) :
    emitBranch cfg i (cpu.withPc address) = (emitBranch cfg i cpu).withPc address := by
  rcases hop with hop | hop
  · simp only [emitBranch,hop]
    exact emitDirectBranch_withPc cfg i cpu address
  · simp only [emitBranch,hop,emitBranchCondition_withPc]
    split
    · exact emitDirectBranch_withPc cfg i _ address
    · rfl

end

end Emitter

namespace CFunction

theorem outlinable_of_transparent {i : PPCInst} (h : instructionIsPcTransparent i = true) :
    instructionIsOutlinable i = true := by
  rw [instructionIsOutlinable,h,Bool.true_or]

/-- What the classification promises. -/
theorem transparent_unobserving {i : PPCInst} (h : instructionIsPcTransparent i = true) :
    Unobserving i := by
  have hfpu := outlinable_not_fpu (outlinable_of_transparent h)
  have hplain : ∀ cfg cpu, Emitter.emitInstruction cfg i cpu =
      if i.embeddedData then .next cpu else Emitter.emitStatements cfg i cpu := by
    intro cfg cpu
    simp only [Emitter.emitInstruction,hfpu,Bool.false_eq_true,if_false]
  have hkind : (∀ cfg cpu, Emitter.emitStatements cfg i cpu = .next (Emitter.emitInteger i cpu)) ∨
      (∀ cfg cpu, Emitter.emitStatements cfg i cpu =
        .next (Emitter.emitConditionRegister i cpu)) ∨
      (i.op = .b ∨ i.op = .bc) ∧
        ∀ cfg cpu, Emitter.emitStatements cfg i cpu = Emitter.emitBranch cfg i cpu := by
    unfold instructionIsPcTransparent at h
    generalize hop : i.op = op at h
    cases op
    all_goals first
      | cases h; done
      | (left; intro cfg cpu; simp only [Emitter.emitStatements,hop]; done)
      | (right; left; intro cfg cpu; simp only [Emitter.emitStatements,hop]; done)
      | exact .inr (.inr ⟨.inl rfl,fun cfg cpu => by simp only [Emitter.emitStatements,hop]⟩)
      | exact .inr (.inr ⟨.inr rfl,fun cfg cpu => by simp only [Emitter.emitStatements,hop]⟩)
  refine ⟨fun cfg cpu => ?_,fun cfg cpu address => ?_⟩
  · rw [hplain]
    split
    · rfl
    · rcases hkind with he | he | ⟨hop,he⟩
      · rw [he]
        exact over_calls (Emitter.emitInteger_over i) cpu
      · rw [he]
        exact over_calls (Emitter.emitConditionRegister_over i) cpu
      · rw [he]
        exact Emitter.emitBranch_calls cfg i cpu hop
  · rw [hplain,hplain]
    split
    · rfl
    · rcases hkind with he | he | ⟨hop,he⟩
      · rw [he,he,over_withPc (Emitter.emitInteger_over i)]
        rfl
      · rw [he,he,over_withPc (Emitter.emitConditionRegister_over i)]
        rfl
      · rw [he,he]
        exact Emitter.emitBranch_withPc cfg i cpu address hop

end CFunction

namespace Emitter

theorem emitDynamicBranch_nextState (i : PPCInst) (target address : BitVec 32) (route : Bool)
    (cpu : CPUState) : (emitDynamicBranch i target route cpu).nextState address =
      (emitDynamicBranch i target false cpu).nextState address := by
  unfold emitDynamicBranch
  dsimp only
  split
  · cases route <;> rfl
  · rfl

/-- Where an instruction is printed decides how control goes on, not where. -/
theorem emitInstruction_nextState (cfg cfg' : EmitConfig) (hh : cfg.host = cfg'.host)
    (ho : cfg.otherStatements = cfg'.otherStatements) (i : PPCInst) (cpu : CPUState)
    (address : BitVec 32) : (emitInstruction cfg i cpu).nextState address =
      (emitInstruction cfg' i cpu).nextState address := by
  have hdirect : ∀ cpu, (emitDirectBranch cfg i cpu).nextState address =
      (emitDirectBranch cfg' i cpu).nextState address := fun cpu =>
    (emitDirectBranch_view i cfg cpu address).2.trans
      (emitDirectBranch_view i cfg' cpu address).2.symm
  have hbranch : ∀ cpu, (emitBranch cfg i cpu).nextState address =
      (emitBranch cfg' i cpu).nextState address := by
    intro cpu
    unfold emitBranch
    split
    · exact hdirect cpu
    · dsimp only
      split
      · exact hdirect _
      · rfl
    · rw [emitDynamicBranch_nextState,emitDynamicBranch_nextState i _ _ cfg'.routeLocalReturns]
    · rfl
    · rfl
  have hstatements : ∀ cpu, (emitStatements cfg i cpu).nextState address =
      (emitStatements cfg' i cpu).nextState address := by
    intro cpu
    obtain ⟨host,_,_,_,_,_,_,other⟩ := cfg
    obtain ⟨_,_,_,_,_,_,_,_⟩ := cfg'
    obtain rfl : host = _ := hh
    obtain rfl : other = _ := ho
    have hb := hbranch cpu
    clear hdirect hbranch
    generalize hop : i.op = op
    cases op
    all_goals
      first
        | (simp only [emitStatements,hop]; done)
        | (simp only [emitStatements,hop]; exact hb)
        | (simp only [emitStatements,hop]; rfl)
  unfold emitInstruction
  split
  · rfl
  · split
    · dsimp only
      split
      · exact hstatements _
      · rfl
    · exact hstatements cpu

end Emitter

namespace CFunction

variable (f : CFunction)

/-- The text that `emit_instruction` prints for an instruction on its own. -/
def single : EmitConfig :=
  { EmitConfig.single f.host with otherStatements := f.otherStatements }

/-- The guest executes the instruction at its program counter, or the chunk there when that is
not in the function. -/
inductive GuestStep (callee : BitVec 32 → CPUState → CPUState) : CPUState → CPUState → Prop
  | instruction {k : ℕ} {i : PPCInst} {cpu : CPUState} (cycles : BitVec 32)
      (hi : f.insts[k]? = some i) (hpc : cpu.pc = i.address) : GuestStep callee cpu
        ((Emitter.emitInstruction f.single i (charge cycles cpu)).nextState i.address)
  | call {cpu : CPUState} (hout : f.contains cpu.pc = false)
      (hchunk : Emitter.chunkStartFor (f.config false false) cpu.pc ≠ 0) : GuestStep callee cpu
        (callee (Emitter.chunkStartFor (f.config false false) cpu.pc) cpu)

def GuestRun (callee : BitVec 32 → CPUState → CPUState) : CPUState → CPUState → Prop :=
  Relation.ReflTransGen (f.GuestStep callee)

/-- The state of the guest: in front of an instruction the program counter has its address. -/
def guest (s : FunctionState) : CPUState :=
  match s.site with
  | .label k | .loop _ _ k => s.cpu.withPc (f.address + BitVec.ofNat 32 (4*k))
  | .dispatch | .call _ _ | .returned => s.cpu

/-- The state in which the statements of an instruction of an outlined loop begin. -/
def loopPrepared (first index : ℕ) (i : PPCInst) (cpu : CPUState) : CPUState :=
  f.materialize index i (if index = first then charge (f.blockCycles first) cpu else cpu)

/-- The next statements begin with their address in the program counter, or cannot see it. -/
def Observed (s : FunctionState) : Prop :=
  match s.site with
  | .label k => ∀ i, f.insts[k]? = some i → f.loopEnds k = none →
      (f.prepared k i s.cpu).pc = i.address ∨ Unobserving i
  | .loop first _ k => ∀ i, f.insts[k]? = some i →
      (f.loopPrepared first k i s.cpu).pc = i.address ∨ Unobserving i
  | .dispatch | .call _ _ | .returned => True

/-- A run of the printed function, entered at its program counter. -/
structure MaterializesPc (callee : BitVec 32 → CPUState → CPUState) (cpu : CPUState) : Prop where
  observed : ∀ n, f.Observed (f.states callee cpu n)
  follows : ∀ n, f.GuestRun callee cpu (f.guest (f.states callee cpu n))
  returns : ∀ n, (f.states callee cpu n).site = .returned →
    f.GuestRun callee cpu (f.states callee cpu n).cpu

/-- A place in the function. -/
def Located (s : FunctionState) : Prop :=
  match s.site with
  | .label k => k ≤ f.insts.length
  | .loop first last k => first ≤ last ∧ k ≤ last ∧ last < f.insts.length
  | .call chunk _ => f.contains s.cpu.pc = false ∧
      chunk = Emitter.chunkStartFor (f.config false false) s.cpu.pc ∧ chunk ≠ 0
  | .dispatch | .returned => True

variable {f}

theorem materialize_cases {k : ℕ} {i : PPCInst} (hi : f.insts[k]? = some i) (cpu : CPUState) :
    f.materialize k i cpu = cpu.withPc i.address ∨
      Unobserving i ∧ f.materialize k i cpu = cpu := by
  unfold materialize
  split
  · exact .inl rfl
  next hm =>
    refine .inr ⟨?_,rfl⟩
    rw [materializePc,Bool.not_eq_true,Bool.not_eq_false',List.any_eq_true] at hm
    obtain ⟨last,-,hlast⟩ := hm
    rw [Bool.and_eq_true,hi] at hlast
    exact transparent_unobserving hlast.2

/-- Statements begin with the program counter of the guest, or with one they cannot see. -/
inductive Begins (i : PPCInst) (cpu : CPUState) : CPUState → Prop
  | exact (cycles : BitVec 32) : Begins i cpu (charge cycles (cpu.withPc i.address))
  | stale (cycles : BitVec 32) (h : Unobserving i) : Begins i cpu (charge cycles cpu)

theorem begins_prepared {k : ℕ} {i : PPCInst} (hi : f.insts[k]? = some i) (cpu : CPUState) :
    Begins i cpu (f.prepared k i cpu) := by
  have hcharge : ∃ cycles, f.prepared k i cpu = charge cycles (f.materialize k i cpu) := by
    unfold prepared
    split
    · exact ⟨_,rfl⟩
    · exact ⟨0,(charge_zero _).symm⟩
  obtain ⟨cycles,hc⟩ := hcharge
  rw [hc]
  rcases materialize_cases hi cpu with he | ⟨hu,he⟩
  · rw [he]
    exact .exact cycles
  · rw [he]
    exact .stale cycles hu

theorem begins_loopPrepared {first k : ℕ} {i : PPCInst} (hi : f.insts[k]? = some i)
    (cpu : CPUState) : Begins i cpu (f.loopPrepared first k i cpu) := by
  unfold loopPrepared
  have hcharge : ∃ cycles, (if k = first then charge (f.blockCycles first) cpu else cpu) =
      charge cycles cpu := by
    split
    · exact ⟨_,rfl⟩
    · exact ⟨0,(charge_zero cpu).symm⟩
  obtain ⟨cycles,hc⟩ := hcharge
  rw [hc]
  rcases materialize_cases hi (charge cycles cpu) with he | ⟨hu,he⟩
  · rw [he]
    exact .exact cycles
  · rw [he]
    exact .stale cycles hu

theorem Begins.observed {i : PPCInst} {cpu c : CPUState} (h : Begins i cpu c) :
    c.pc = i.address ∨ Unobserving i := by
  cases h with
  | exact cycles => exact .inl rfl
  | stale cycles hu => exact .inr hu

theorem Begins.guestStep {callee : BitVec 32 → CPUState → CPUState} {k : ℕ} {i : PPCInst}
    {cpu c : CPUState} (h : Begins i cpu c) (hi : f.insts[k]? = some i) (d r : Bool) :
    f.GuestStep callee (cpu.withPc i.address)
      ((Emitter.emitInstruction (f.config d r) i c).nextState i.address) := by
  rw [Emitter.emitInstruction_nextState (f.config d r) f.single rfl rfl]
  cases h with
  | exact cycles => exact .instruction cycles hi rfl
  | stale cycles hu =>
    have hs := hu.stale f.single (charge cycles cpu) i.address
    rw [← CFlow.withPc_nextState _ i.address,← hs]
    exact .instruction cycles hi rfl

@[simp] theorem guest_label (k : ℕ) (cpu : CPUState) :
    f.guest ⟨.label k,cpu⟩ = cpu.withPc (f.address + BitVec.ofNat 32 (4*k)) := rfl

@[simp] theorem guest_loop (first last k : ℕ) (cpu : CPUState) :
    f.guest ⟨.loop first last k,cpu⟩ = cpu.withPc (f.address + BitVec.ofNat 32 (4*k)) := rfl

namespace FromWords

variable (h : f.FromWords)

include h

theorem label_address {address : BitVec 32} {k : ℕ} (hk : f.labelIndex address = some k) :
    f.address + BitVec.ofNat 32 (4*k) = address := by
  obtain ⟨hlt,he⟩ := h.labelIndex_iff.mp hk
  have := h.fits
  rw [← BitVec.toNat_inj,he,BitVec.toNat_add,BitVec.toNat_ofNat]
  omega

theorem next_address {k : ℕ} {i : PPCInst} (hi : f.insts[k]? = some i) :
    f.address + BitVec.ofNat 32 (4*(k + 1)) = i.address + 4 := by
  rw [h.address hi,BitVec.add_assoc,Nat.mul_succ,BitVec.ofNat_add]
  rfl

theorem enter_guest (cpu : CPUState) :
    f.guest (f.enter cpu) = cpu ∧ f.Located (f.enter cpu) := by
  unfold enter
  split
  next k hk =>
    refine ⟨?_,(h.labelIndex_iff.mp hk).1.le⟩
    rw [guest_label,h.label_address hk]
    rfl
  next => exact ⟨rfl,trivial⟩

theorem jump_guest (address : BitVec 32) (cpu : CPUState) :
    f.guest (f.jump address cpu) = cpu.withPc address ∧ f.Located (f.jump address cpu) := by
  unfold jump
  split
  next k hk =>
    refine ⟨?_,(h.labelIndex_iff.mp hk).1.le⟩
    rw [guest_label,h.label_address hk]
  next => exact ⟨rfl,trivial⟩

theorem returnDispatch_guest (cpu : CPUState) :
    f.guest (f.returnDispatch cpu) = cpu ∧ f.Located (f.returnDispatch cpu) := by
  unfold returnDispatch
  split
  · exact ⟨rfl,trivial⟩
  · split
    next k hk =>
      split
      · refine ⟨?_,(h.labelIndex_iff.mp hk).1.le⟩
        rw [guest_label,h.label_address hk]
        rfl
      · exact ⟨rfl,trivial⟩
    next => exact ⟨rfl,trivial⟩

theorem afterLoop_guest (last : ℕ) (cpu : CPUState) :
    f.guest (f.afterLoop last cpu) = cpu ∧ f.Located (f.afterLoop last cpu) := by
  unfold afterLoop
  dsimp only
  split
  next hc =>
    rw [← hc.2]
    exact h.jump_guest cpu.pc cpu
  next => exact ⟨rfl,trivial⟩

theorem resume_guest (continuation : BitVec 32) (cpu : CPUState) :
    f.guest (f.resume continuation cpu) = cpu ∧ f.Located (f.resume continuation cpu) := by
  unfold resume
  split
  next hc =>
    rw [← hc]
    exact h.jump_guest cpu.pc cpu
  next => exact ⟨rfl,trivial⟩

theorem afterStatements_guest (ho : PlainStatements f.otherStatements) {k : ℕ} {i : PPCInst}
    (hi : f.insts[k]? = some i) (d r : Bool) (c : CPUState) :
    let flow := Emitter.emitInstruction (f.config d r) i c
    f.guest (f.afterStatements k i flow) = flow.nextState i.address ∧
      f.Located (f.afterStatements k i flow) := by
  have hends := Emitter.emitInstruction_ends (f.config d r) ho i c
  intro flow
  change Emitter.Ends (f.config d r) i c flow at hends
  generalize flow = flow at hends ⊢
  cases hends with
  | next hd =>
    refine ⟨?_,(List.getElem?_eq_some_iff.mp hi).1⟩
    rw [afterStatements,guest_label,h.next_address hi]
    rfl
  | goto => exact h.jump_guest _ _
  | dispatch => exact ⟨rfl,trivial⟩
  | call hop hdata hlk henter htarget hlocal hchunk hpc hd =>
    refine ⟨rfl,?_⟩
    rw [← hpc] at htarget hchunk ⊢
    exact ⟨htarget,rfl,hchunk⟩
  | ret cpu' => exact ⟨rfl,trivial⟩

theorem afterLoopStatements_guest {first last k : ℕ} {i : PPCInst} (hf : first ≤ last)
    (hk : k ≤ last) (hl : last < f.insts.length) (hi : f.insts[k]? = some i) (flow : CFlow) :
    f.guest (f.afterLoopStatements first last k i flow) = flow.nextState i.address ∧
      f.Located (f.afterLoopStatements first last k i flow) := by
  cases flow with
  | next cpu =>
    rw [afterLoopStatements]
    split
    · exact h.afterLoop_guest last _
    next hne =>
      refine ⟨?_,hf,Nat.lt_of_le_of_ne hk hne,hl⟩
      rw [guest_loop,h.next_address hi]
      rfl
  | goto address cpu =>
    rw [afterLoopStatements]
    split
    next hlabel =>
      refine ⟨?_,hf,hf,hl⟩
      rw [guest_loop,h.label_address hlabel]
      rfl
    next => exact ⟨rfl,trivial⟩
  | dispatch cpu => exact h.afterLoop_guest last cpu
  | call chunk cpu => exact h.afterLoop_guest last cpu
  | ret cpu => exact h.afterLoop_guest last cpu

/-- A step of the function is a step of the guest, or none. -/
theorem stepWith_guest (ho : PlainStatements f.otherStatements)
    (callee : BitVec 32 → CPUState → CPUState) {s : FunctionState} (hs : f.Located s) :
    f.Located (f.stepWith callee s) ∧
      f.GuestRun callee (f.guest s) (f.guest (f.stepWith callee s)) := by
  obtain ⟨site,cpu⟩ := s
  cases site with
  | label k =>
    have hk : k ≤ f.insts.length := hs
    show f.Located (f.run ⟨.label k,cpu⟩) ∧ f.GuestRun callee _ (f.guest (f.run ⟨.label k,cpu⟩))
    cases hi : f.insts[k]? with
    | none =>
      obtain rfl : k = f.insts.length := le_antisymm hk (List.getElem?_eq_none_iff.mp hi)
      simp only [run,hi]
      exact ⟨trivial,.refl⟩
    | some i =>
      have hgi : f.guest ⟨.label k,cpu⟩ = cpu.withPc i.address := by
        rw [guest_label,← h.address hi]
      cases hloop : f.loopEnds k with
      | some last =>
        obtain ⟨branch,hout⟩ := outlined_of_loopEnds hloop
        simp only [run,hi,hloop]
        exact ⟨⟨hout.lt.le,hout.lt.le,(List.getElem?_eq_some_iff.mp hout.get).1⟩,.refl⟩
      | none =>
        simp only [run,hi,hloop,inlineStatements_eq]
        obtain ⟨hg,hl⟩ := h.afterStatements_guest ho hi (f.canLoopDirectly k) f.hasLocalReturns
          (f.prepared k i cpu)
        rw [hgi,hg]
        exact ⟨hl,.single ((begins_prepared hi cpu).guestStep hi _ _)⟩
  | loop first last k =>
    obtain ⟨hf,hk,hl⟩ := hs
    obtain ⟨i,hi⟩ : ∃ i, f.insts[k]? = some i := ⟨_,List.getElem?_eq_getElem (by omega)⟩
    have hgi : f.guest ⟨.loop first last k,cpu⟩ = cpu.withPc i.address := by
      rw [guest_loop,← h.address hi]
    have hrun : f.stepWith callee ⟨.loop first last k,cpu⟩ = f.afterLoopStatements first last k i
        (f.loopStatements first last k i cpu) := by
      simp only [stepWith,run,hi]
    obtain ⟨hg,hl'⟩ := h.afterLoopStatements_guest hf hk hl hi (f.loopStatements first last k i cpu)
    rw [hrun,hgi,hg]
    exact ⟨hl',.single ((begins_loopPrepared hi cpu).guestStep hi (k = last) false)⟩
  | dispatch =>
    obtain ⟨hg,hl⟩ := h.returnDispatch_guest cpu
    show f.Located (f.returnDispatch cpu) ∧ f.GuestRun callee cpu (f.guest (f.returnDispatch cpu))
    rw [hg]
    exact ⟨hl,.refl⟩
  | call chunk continuation =>
    obtain ⟨hout,hc,hne⟩ : f.contains cpu.pc = false ∧
      chunk = Emitter.chunkStartFor (f.config false false) cpu.pc ∧ chunk ≠ 0 := hs
    subst hc
    obtain ⟨hg,hl⟩ := h.resume_guest continuation
      (callee (Emitter.chunkStartFor (f.config false false) cpu.pc) cpu)
    simp only [stepWith]
    rw [hg]
    exact ⟨hl,.single (.call hout hne)⟩
  | returned => exact ⟨trivial,.refl⟩

end FromWords

theorem observed (s : FunctionState) : f.Observed s := by
  obtain ⟨site,cpu⟩ := s
  cases site with
  | label k => exact fun i hi _ => (begins_prepared hi cpu).observed
  | loop first last k => exact fun i hi => (begins_loopPrepared hi cpu).observed
  | dispatch => trivial
  | call chunk continuation => trivial
  | returned => trivial

/-- Every run of a printed function is a run of the guest: whatever may observe the program counter
finds the address of its instruction there, and the caller that of the next one. -/
theorem materializes_pc (f : CFunction) (hw : f.FromWords) (ho : PlainStatements f.otherStatements)
    (callee : BitVec 32 → CPUState → CPUState) (cpu : CPUState) : f.MaterializesPc callee cpu := by
  have hrun : ∀ n, f.Located (f.states callee cpu n) ∧
      f.GuestRun callee cpu (f.guest (f.states callee cpu n)) := by
    intro n
    induction n with
    | zero =>
      obtain ⟨hg,hl⟩ := hw.enter_guest cpu
      refine ⟨hl,?_⟩
      show f.GuestRun callee cpu (f.guest (f.enter cpu))
      rw [hg]
      exact .refl
    | succ n ih =>
      rw [states_succ]
      obtain ⟨hl,hg⟩ := hw.stepWith_guest ho callee ih.1
      exact ⟨hl,ih.2.trans hg⟩
  refine ⟨fun n => observed _,fun n => (hrun n).2,fun n hr => ?_⟩
  have hg := (hrun n).2
  rwa [guest,hr] at hg

/-- `lfs f1,0(r3)`, `stfs f1,4(r3)`, `addi r3,r3,4` and `bdnz` back to the first. -/
def floatLoop : CFunction where
  insts := [ppcDecode 0xC0230000 0x80003100,ppcDecode 0xD0230004 0x80003104,
    ppcDecode 0x38630004 0x80003108,ppcDecode 0x4200FFF4 0x8000310C]
  address := 0x80003100
  host := {}
  chunkStarts := []
  callEnter := false
  otherStatements := Emitter.otherStatements noDevices {}

theorem floatLoop_fromWords : floatLoop.FromWords := by
  refine ⟨fun k i hk => ?_,by decide⟩
  match k, hk with
  | 0, hk => exact ⟨0xC0230000,false,(Option.some.inj hk).symm,fun h => by cases h⟩
  | 1, hk => exact ⟨0xD0230004,false,(Option.some.inj hk).symm,fun h => by cases h⟩
  | 2, hk => exact ⟨0x38630004,false,(Option.some.inj hk).symm,fun h => by cases h⟩
  | 3, hk => exact ⟨0x4200FFF4,false,(Option.some.inj hk).symm,fun h => by cases h⟩
  | k + 4, hk => simp [floatLoop] at hk

/-- Two rounds, with floating point on. -/
def floatLoopStart : CPUState :=
  { cpuInit.setGpr 3 0x80001000 with pc := 0x80003100, ctr := 2, msr := 0x2000 }

theorem materializes_pc_floatLoop : floatLoop.MaterializesPc (fun _ cpu => cpu) floatLoopStart :=
  materializes_pc floatLoop floatLoop_fromWords (Emitter.otherStatements_plain noDevices {}) _ _

end CFunction

end DolRecomp
