import DolRecomp.OtherStatements

/-!
# Return from an exception

The entry of an exception keeps a part of MSR in SRR1, next to the cause, and `rfi` merges it back
into the MSR of the handler.
-/

namespace DolRecomp

namespace Runtime

def ppcProgramFp : BitVec 32 := 0x00100000

inductive ProgramCause
  | fp | illegal | priv | trap
  deriving DecidableEq

def ProgramCause.bits : ProgramCause → BitVec 32
  | .fp => ppcProgramFp
  | .illegal => ppcProgramIllegal
  | .priv => ppcProgramPriv
  | .trap => ppcProgramTrap

/-- The exceptions of the runtime, with what else they record. -/
inductive Delivery
  | program (cause : ProgramCause)
  | dsi (ea dsisr : BitVec 32)
  | alignment (ea : BitVec 32)
  | systemCall
  | machineCheck
  | fpUnavailable

def Delivery.enter (cpu : CPUState) (cia : BitVec 32) : Delivery → CPUState
  | .program cause => ppcProgramException cpu cause.bits cia
  | .dsi ea dsisr => ppcDsiException cpu ea cia dsisr
  | .alignment ea => ppcAlignmentException cpu ea cia
  | .systemCall => ppcSystemCallException cpu cia
  | .machineCheck =>
    ppcTakeException cpu ppcExcMachineCheck ppcVectorMachineCheck cia ppcSrr1MachineCheckDcbzl
  | .fpUnavailable => ppcTakeException cpu ppcExcFpUnavailable ppcVectorFpUnavailable cia 0

/-- What an entry leaves in MSR and SRR1, for a cause of its own. -/
structure Entered (cpu entry : CPUState) : Prop where
  msr : ∃ exception, entry.msr = exceptionMsr cpu.msr exception
  srr1 : ∃ info : BitVec 32, info &&& ppcMsrRfiMask = 0#32 ∧
    entry.srr1 = (cpu.msr &&& ppcMsrRfiMask) ||| info

theorem entered_take {cpu : CPUState} {exception vector srr0 info : BitVec 32}
    (hinfo : info &&& ppcMsrRfiMask = 0#32) :
    Entered cpu (ppcTakeException cpu exception vector srr0 info) :=
  ⟨⟨exception,rfl⟩,⟨info,hinfo,rfl⟩⟩

/-- No cause has a bit that `rfi` restores. -/
theorem entered_enter (cpu : CPUState) (cia : BitVec 32) (d : Delivery) :
    Entered cpu (d.enter cpu cia) := by
  cases d with
  | program cause =>
    have h : cause.bits &&& ppcMsrRfiMask = 0#32 := by cases cause <;> decide
    exact ⟨⟨ppcExcProgram,rfl⟩,⟨cause.bits,h,rfl⟩⟩
  | dsi ea dsisr => exact ⟨⟨ppcExcDsi,rfl⟩,⟨0,by decide,rfl⟩⟩
  | alignment ea => exact ⟨⟨ppcExcAlignment,rfl⟩,⟨0,by decide,rfl⟩⟩
  | systemCall => exact entered_take (by decide)
  | machineCheck => exact entered_take (by decide)
  | fpUnavailable => exact entered_take (by decide)

section
variable {a b c : BitVec 32}

theorem or_and_of_disjoint (h : b &&& c = 0#32) : (a ||| b) &&& c = a &&& c := by
  rw [BitVec.and_or_distrib_right,h,BitVec.or_zero]

theorem and_not_and_of_disjoint (h : b &&& c = 0#32) : (a &&& ~~~b) &&& c = a &&& c := by
  have hc : ~~~b &&& c = c := by
    have hsplit : c &&& b ||| c &&& ~~~b = c := by
      rw [← BitVec.and_or_distrib_left,BitVec.or_not_self,BitVec.and_allOnes]
    rw [BitVec.and_comm c b,h,BitVec.zero_or] at hsplit
    rw [BitVec.and_comm,hsplit]
  rw [BitVec.and_assoc,hc]

theorem merge_self : (a &&& ~~~b) ||| (a &&& b) = a := by
  rw [← BitVec.and_or_distrib_left,BitVec.or_comm,BitVec.or_not_self,BitVec.and_allOnes]

end

/-- An entry changes bits of MSR that `rfi` restores, and POW. -/
theorem exceptionMsr_and {msr exception keep : BitVec 32}
    (hkeep : (ppcMsrExceptionClear ||| ppcMsrMe) &&& keep = 0#32) (hle : ppcMsrLe &&& keep = 0#32) :
    exceptionMsr msr exception &&& keep = msr &&& keep := by
  have hclear : ppcMsrExceptionClear &&& keep = 0#32 := by
    rw [BitVec.and_or_distrib_right] at hkeep
    exact (BitVec.or_eq_zero_iff.mp hkeep).1
  unfold exceptionMsr
  have hand (clear : BitVec 32) (h : clear &&& keep = 0#32) :
      (if msr &&& ppcMsrIle ≠ 0 then msr &&& ~~~clear ||| ppcMsrLe else msr &&& ~~~clear) &&& keep =
        msr &&& keep := by
    split
    · rw [or_and_of_disjoint hle,and_not_and_of_disjoint h]
    · exact and_not_and_of_disjoint h
  split
  · exact hand _ hkeep
  · exact hand _ hclear

/-- The handler is privileged. -/
theorem exceptionMsr_pr (msr exception : BitVec 32) :
    exceptionMsr msr exception &&& ppcMsrPr = 0 := by
  have hpr (clear : BitVec 32) (h : ~~~clear &&& ppcMsrPr = 0#32) :
      (if msr &&& ppcMsrIle ≠ 0 then msr &&& ~~~clear ||| ppcMsrLe else msr &&& ~~~clear) &&&
        ppcMsrPr = 0 := by
    split
    · rw [or_and_of_disjoint (by decide),BitVec.and_assoc,h]
      exact BitVec.and_zero
    · rw [BitVec.and_assoc,h]
      exact BitVec.and_zero
  unfold exceptionMsr
  split <;> exact hpr _ (by decide)

/-- The MSR that `rfi` builds is the one before the entry, without POW. -/
theorem rfi_msr {cpu entry : CPUState} (h : Entered cpu entry) :
    ((entry.msr &&& ~~~ppcMsrRfiMask) ||| (entry.srr1 &&& ppcMsrRfiMask)) &&& ~~~ppcMsrPow =
      cpu.msr &&& ~~~ppcMsrPow := by
  obtain ⟨⟨exception,hmsr⟩,⟨info,hinfo,hsrr1⟩⟩ := h
  have hkept : entry.msr &&& ~~~ppcMsrRfiMask &&& ~~~ppcMsrPow =
      cpu.msr &&& ~~~ppcMsrRfiMask &&& ~~~ppcMsrPow := by
    rw [hmsr,BitVec.and_assoc,BitVec.and_assoc]
    exact exceptionMsr_and (by decide) (by decide)
  have hrestored : entry.srr1 &&& ppcMsrRfiMask = cpu.msr &&& ppcMsrRfiMask := by
    rw [hsrr1,or_and_of_disjoint hinfo,BitVec.and_assoc,BitVec.and_self]
  rw [BitVec.and_or_distrib_right,hkept,hrestored,← BitVec.and_or_distrib_right,merge_self]

/-- A handler that keeps MSR, SRR0 and SRR1 and returns with `rfi` is not rejected: the MSR is the
one before the exception without POW, the pc the saved one at a word. -/
theorem rfi_inverts_exception (cpu : CPUState) (d : Delivery) (cia : BitVec 32)
    (handler : CPUState) (rfiCia : BitVec 32)
    (hmsr : handler.msr = (d.enter cpu cia).msr) (hsrr0 : handler.srr0 = (d.enter cpu cia).srr0)
    (hsrr1 : handler.srr1 = (d.enter cpu cia).srr1) :
    handler.msr &&& ppcMsrPr = 0 ∧ ppcRfi handler rfiCia = { handler with
      msr := cpu.msr &&& ~~~ppcMsrPow
      pc := (d.enter cpu cia).srr0 &&& ~~~3#32 } := by
  have hentered := entered_enter cpu cia d
  obtain ⟨exception,henter⟩ := hentered.msr
  have hpr : handler.msr &&& ppcMsrPr = 0 := by
    rw [hmsr,henter,exceptionMsr_pr]
  refine ⟨hpr,?_⟩
  rw [ppcRfi,if_neg (not_not.mpr hpr)]
  simp only [hmsr,hsrr0,hsrr1,rfi_msr hentered]

/-- An access without its enable, in user mode, with POW set. -/
theorem rfi_inverts_dsi :
    (ppcRfi (ppcDsiException { cpuInit with msr := 0x0004C000 } 0x1234 0x80003100
      ppcDsiEarDisabled) 0x300).msr = 0xC000 ∧
    (ppcRfi (ppcDsiException { cpuInit with msr := 0x0004C000 } 0x1234 0x80003100
      ppcDsiEarDisabled) 0x300).pc = 0x80003100 := by
  have h := rfi_inverts_exception { cpuInit with msr := 0x0004C000 } (.dsi 0x1234 ppcDsiEarDisabled)
    0x80003100 _ 0x300 rfl rfl rfl
  exact ⟨congrArg CPUState.msr h.2,congrArg CPUState.pc h.2⟩

end Runtime

end DolRecomp
