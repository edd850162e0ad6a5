import DolRecomp.Lowering
import DolRecomp.Run

/-!
# Execution of a block

A block starts from the committed state, runs its operations and leaves through
its terminator; each block of a built function is the lowering of its instruction.
-/

namespace DolRecomp

namespace Machine

variable (m : Machine)

/-- The truth of a one-bit value; any other value has no meaning. -/
def truth (env : DolIRValue → Option Value) (id : DolIRValue) : Exec Bool :=
  match env id with
  | some (.i1 b) => .next b
  | _ => .stuck

def word (env : DolIRValue → Option Value) (id : DolIRValue) : Exec (BitVec 32) :=
  Exec.ofOption ((env id).bind Value.asI32)

/-- Leaving a block: the committed state with the next program counter, or the state
after the runtime's own handling of an instruction. -/
def execTerminator (t : DolIRTerminator) (f : Frame) : Exec CPUState :=
  match t.kind with
  | .fallthrough | .branch => .next (f.st.materialize t.targetAddress0)
  | .condBranch => do
    let taken ← truth f.env t.condition
    .next (f.st.materialize (if taken then t.targetAddress0 else t.targetAddress1))
  | .indirect => do
    if ← truth f.env t.condition then
      let target ← word f.env t.targetValue
      .next (f.st.materialize target)
    else .next (f.st.materialize t.targetAddress1)
  | .fallback =>
    .exit (Runtime.ppcFallbackInstruction m.host (f.st.materialize t.guestPc) t.raw t.guestPc)
  | .systemCall => .exit (Runtime.ppcSystemCallException (f.st.materialize t.guestPc) t.guestPc)
  | .rfi => .exit (Runtime.ppcRfi (f.st.materialize t.guestPc) t.guestPc)
  | .none | .return | .sideExit => .stuck

def execBody (b : DolIRBlock) (cpu : CPUState) : Exec Frame :=
  m.execInstructions b.instructions ⟨IRState.load cpu,fun _ => none⟩

def execBlock (b : DolIRBlock) (cpu : CPUState) : Exec CPUState :=
  m.execBody b cpu >>= m.execTerminator b.terminator

/-- Whether a branch leaves through its target. -/
def terminatorTaken (t : DolIRTerminator) (f : Frame) : Exec Bool :=
  match t.kind with
  | .branch => .next true
  | .condBranch | .indirect => truth f.env t.condition
  | _ => .next false

def execBranch (b : DolIRBlock) (cpu : CPUState) : Exec (Bool × CPUState) := do
  let f ← m.execBody b cpu
  let taken ← terminatorTaken b.terminator f
  let cpu ← m.execTerminator b.terminator f
  .next (taken, cpu)

end Machine

/-- The state after a block, whether native code goes on or is left. -/
def Exec.result : Exec CPUState → Option CPUState
  | .next cpu | .exit cpu => some cpu
  | .stuck => none

namespace Builder

variable (m : Machine) (i : PPCInst)

def start (next : DolIRValue) (h : next ≠ dolirNoValue) (cpu : CPUState) : Point :=
  ⟨next,h,IRState.load cpu,fun _ => none⟩

def runBlock (chunk : ChunkRange) (index : Nat) (s : Point) : Exec CPUState :=
  run m (lowerBlock chunk index i) i s >>= fun x => m.execTerminator x.1 ⟨x.2.st,x.2.env⟩

theorem buildBlocks_get (chunk : ChunkRange) (insts : List PPCInst) (index k : Nat)
    (next : DolIRValue) (hn : next ≠ dolirNoValue) (hk : insts[k]? = some i) :
    ∃ next', next' ≠ dolirNoValue ∧ (buildBlocks chunk index next insts).1[k]? = some
      { guestAddress := i.address, raw := i.raw, cycleCost := dolirInstructionCycleCost i,
        instructions := (lowerBlock chunk (index + k) i i next').2.2,
        terminator := (lowerBlock chunk (index + k) i i next').1 } := by
  induction insts generalizing index k next with
  | nil => simp at hk
  | cons j insts ih =>
    cases k with
    | zero =>
      simp only [List.getElem?_cons_zero,Option.some.injEq] at hk
      subst hk
      exact ⟨next,hn,rfl⟩
    | succ k =>
      rw [List.getElem?_cons_succ] at hk
      have hn' : next + (lowerBlock chunk index j j next).2.1 ≠ dolirNoValue :=
        fun h => hn (Nat.eq_zero_of_add_eq_zero_right h)
      obtain ⟨next',h0,h⟩ := ih (index + 1) k _ hn' hk
      refine ⟨next',h0,?_⟩
      rw [show index + (k + 1) = index + 1 + k by omega]
      exact h

/-- The body of a block of a built function runs as its instruction is lowered, whatever
is done with the terminator afterwards. -/
theorem execBody_built (insts : List PPCInst) (guestStart : BitVec 32) (k : Nat)
    (hk : insts[k]? = some i) :
    ∃ block next, ∃ h : next ≠ dolirNoValue,
      (buildFunction insts guestStart).blocks[k]? = some block ∧
      ∀ (cpu : CPUState) {β : Type} (f : DolIRTerminator → Machine.Frame → Exec β),
        (m.execBody block cpu >>= f block.terminator) =
          run m (lowerBlock (chunkRange insts guestStart) k i) i (start next h cpu) >>= fun x =>
            f x.1 ⟨x.2.st,x.2.env⟩ := by
  obtain ⟨next,h,hb⟩ := buildBlocks_get i (chunkRange insts guestStart) insts 0 k 1 (by decide) hk
  rw [Nat.zero_add] at hb
  refine ⟨_,next,h,hb,fun cpu β f => ?_⟩
  simp only [run,start,Machine.execBody,bind_assoc]
  rfl

/-- A block of a built function executes as its instruction is lowered. -/
theorem execBlock_built (insts : List PPCInst) (guestStart : BitVec 32) (k : Nat)
    (hk : insts[k]? = some i) :
    ∃ block next, ∃ h : next ≠ dolirNoValue,
      (buildFunction insts guestStart).blocks[k]? = some block ∧
      ∀ cpu, m.execBlock block cpu =
        runBlock m i (chunkRange insts guestStart) k (start next h cpu) := by
  obtain ⟨block,next,h,hb,hrun⟩ := execBody_built m i insts guestStart k hk
  exact ⟨block,next,h,hb,fun cpu => hrun cpu m.execTerminator⟩

/-- An instruction that is no branch and whose operations run falls through. -/
theorem runBlock_fallthrough (chunk : ChunkRange) (index : Nat) (s : Point) {st : IRState}
    (hd : i.embeddedData = false) (hf : ppcOpUsesFpu i.op = false)
    (hc : lowerControl chunk i = pure none)
    (h : effect m (lowerInstruction i) i s = .next (true, st)) :
    runBlock m i chunk index s = .next (st.materialize (i.address + 4)) := by
  obtain ⟨s',hrun,hst⟩ := run_of_effect m i s h
  simp only [runBlock,lowerBlock,hd,hf,hc,Bool.false_eq_true,if_false,run_bind,run_pure,
    Exec.next_bind,hrun,if_true,Machine.execTerminator,normalFallthrough,hst]

end Builder

end DolRecomp
