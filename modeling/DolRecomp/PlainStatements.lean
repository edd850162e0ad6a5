import DolRecomp.GeneratedFunction
import DolRecomp.OtherStatements

/-!
# Statements that charge nothing

The statements of the floating-point, quantised, cache and external instructions return, or go on
with the cycle counter as it was.
-/

namespace DolRecomp

namespace Emitter

open DolRecomp.Runtime

/-- Of the instructions that fall back to the host, only cache operations are left over. -/
theorem leftOver_fallback {i : PPCInst} (hl : LeftOver i)
    (h : CFunction.instructionUsesFallback i = true) :
    i.op ∈ [PPCOpcode.dcbst,.dcbf,.dcbi,.icbi] := by
  let cfg : EmitConfig := { EmitConfig.single {} with otherStatements := fun _ cpu => .dispatch cpu }
  have hdispatch : emitStatements cfg i cpuInit = .dispatch cpuInit := hl cfg cpuInit
  have hsystem : emitSystem cfg i cpuInit ≠ .dispatch cpuInit := fun hs => by
    have hends := @emitSystem_ends cfg i cpuInit
    rw [hs] at hends
    cases hends with
    | dispatch _ _ hroute => cases hroute
  unfold CFunction.instructionUsesFallback at h
  split at h
  case h_5 hop =>
    simp only [emitStatements,hop] at hdispatch
    cases hdispatch
  case h_6 hop | h_7 hop =>
    simp only [emitStatements,hop] at hdispatch
    exact absurd hdispatch hsystem
  case h_8 => cases h
  all_goals
    rename_i hop
    rw [hop]
    decide

variable (dev : Devices) (host : Host)

theorem psqCheckEnabled_downcount (cpu : CPUState) (indexed : Bool) (cia : BitVec 32) :
    (psqCheckEnabled cpu indexed cia).2.downcount = cpu.downcount := by
  unfold psqCheckEnabled
  split
  · exact programException_downcount cpu _ _
  · rfl

theorem psqAccessIsValid_downcount (cpu : CPUState) (type : BitVec 3) (ea cia : BitVec 32) :
    (psqAccessIsValid cpu type ea cia).2.downcount = cpu.downcount := by
  unfold psqAccessIsValid
  split
  · exact programException_downcount cpu _ _
  · split
    · rw [ppcAlignmentException,takeException_downcount]
    · rfl

theorem psqLoadValue_downcount (cpu : CPUState) (ea : BitVec 32) (type : BitVec 3)
    (scale : BitVec 32) : (psqLoadValue dev host cpu ea type scale).2.downcount = cpu.downcount := by
  unfold psqLoadValue
  split <;> simp only [Runtime.memRead32,Runtime.memRead16,Runtime.memRead8,memRead]

theorem psqStoreValue_downcount (cpu : CPUState) (ea : BitVec 32) (type : BitVec 3)
    (scale : BitVec 32) (value : BitVec 64) :
    (psqStoreValue dev cpu ea type scale value).downcount = cpu.downcount := by
  unfold psqStoreValue
  split
  all_goals simp [Runtime.memWrite32,Runtime.memWrite16,Runtime.memWrite8]

theorem ppcPsqLoad_downcount (cpu : CPUState) (frD : BitVec 5) (ea : BitVec 32) (w : Bool)
    (gqrIndex : BitVec 3) (indexed : Bool) (cia : BitVec 32) :
    (ppcPsqLoad dev host cpu frD ea w gqrIndex indexed cia).downcount = cpu.downcount := by
  have henabled := psqCheckEnabled_downcount cpu indexed cia
  unfold ppcPsqLoad
  dsimp only
  generalize psqCheckEnabled cpu indexed cia = checked at henabled ⊢
  rw [← henabled]
  split
  · rfl
  · split
    · exact psqAccessIsValid_downcount ..
    · split
      · exact (psqLoadValue_downcount ..).trans (psqAccessIsValid_downcount ..)
      · split
        · exact (psqAccessIsValid_downcount ..).trans
            ((psqLoadValue_downcount ..).trans (psqAccessIsValid_downcount ..))
        · exact (psqLoadValue_downcount ..).trans ((psqAccessIsValid_downcount ..).trans
            ((psqLoadValue_downcount ..).trans (psqAccessIsValid_downcount ..)))

theorem ppcPsqStore_downcount (cpu : CPUState) (frS : BitVec 5) (ea : BitVec 32) (w : Bool)
    (gqrIndex : BitVec 3) (indexed : Bool) (cia : BitVec 32) :
    (ppcPsqStore dev cpu frS ea w gqrIndex indexed cia).downcount = cpu.downcount := by
  have henabled := psqCheckEnabled_downcount cpu indexed cia
  unfold ppcPsqStore
  dsimp only
  generalize psqCheckEnabled cpu indexed cia = checked at henabled ⊢
  rw [← henabled]
  split
  · rfl
  · split
    · exact psqAccessIsValid_downcount ..
    · split
      · exact (psqStoreValue_downcount ..).trans (psqAccessIsValid_downcount ..)
      · split
        · exact (psqAccessIsValid_downcount ..).trans
            ((psqStoreValue_downcount ..).trans (psqAccessIsValid_downcount ..))
        · exact (psqStoreValue_downcount ..).trans ((psqAccessIsValid_downcount ..).trans
            ((psqStoreValue_downcount ..).trans (psqAccessIsValid_downcount ..)))

/-- An instruction that goes on behind an exception, or returns. -/
theorem unlessException_plain {rest : CPUState → CPUState} {cpu cpu₀ : CPUState}
    (hr : (rest cpu).downcount = cpu.downcount) (hd : cpu.downcount = cpu₀.downcount) :
    (∃ cpu', unlessException rest cpu = .ret cpu') ∨
      ∃ cpu', unlessException rest cpu = .next cpu' ∧ cpu'.downcount = cpu₀.downcount := by
  unfold unlessException
  split
  · exact .inl ⟨_,rfl⟩
  · exact .inr ⟨_,rfl,hr.trans hd⟩

theorem updateBase_downcount (i : PPCInst) (update : Bool) (ea : BitVec 32) (cpu : CPUState) :
    (updateBase i update ea cpu).downcount = cpu.downcount := by
  unfold updateBase
  split <;> rfl

theorem emitFloadAt_downcount (i : PPCInst) (ea : BitVec 32) (single update : Bool)
    (cpu : CPUState) : (emitFloadAt host i ea single update cpu).downcount = cpu.downcount := by
  rw [emitFloadAt,updateBase_downcount]
  split <;> rfl

theorem emitFstoreAt_downcount (i : PPCInst) (ea : BitVec 32) (single update : Bool)
    (cpu : CPUState) : (emitFstoreAt i ea single update cpu).downcount = cpu.downcount := by
  rw [emitFstoreAt,updateBase_downcount]
  split <;> exact memWrite_downcount cpu _ _ _

theorem ppcDcbzL_downcount (cpu : CPUState) (ea cia : BitVec 32) :
    (ppcDcbzL dev cpu ea cia).downcount = cpu.downcount := by
  have hzero (cpu : CPUState) (block : BitVec 32) :
      (zeroBlock block cpu).downcount = cpu.downcount :=
    foldl_downcount (fun cpu n => by simp [memWrite32]) _ _
  have hhit : (dcbzHit cpu cia).downcount = cpu.downcount := by
    unfold dcbzHit
    dsimp only
    split
    · rw [takeException_downcount]
    · rfl
  unfold ppcDcbzL
  split
  · exact programException_downcount cpu _ _
  · split
    · exact programException_downcount cpu _ _
    · dsimp only
      rw [hzero]
      split
      · exact hhit
      · rfl

theorem externalAccess_downcount (cpu : CPUState) (ea cia : BitVec 32) :
    (externalAccess cpu ea cia).2.downcount = cpu.downcount := by
  unfold externalAccess
  split
  · rw [ppcDsiException,takeException_downcount]
  · split
    · rw [ppcAlignmentException,takeException_downcount]
    · rfl

theorem ppcTlbie_downcount (cpu : CPUState) (cia : BitVec 32) :
    (ppcTlbie cpu cia).downcount = cpu.downcount := by
  unfold ppcTlbie
  split
  · exact programException_downcount cpu _ _
  · rfl

/-- The statements of the floating-point, quantised, cache and external instructions. -/
theorem otherStatements_plain : PlainStatements (Emitter.otherStatements dev host) := by
  intro i hl cpu
  have plain : ∀ {flow : CFlow}, ((∃ cpu', flow = .ret cpu') ∨
      ∃ cpu', flow = .next cpu' ∧ cpu'.downcount = cpu.downcount) →
      i.op ∉ [PPCOpcode.dcbst,.dcbf,.dcbi,.icbi] → (∃ cpu', flow = .ret cpu') ∨
        CFunction.instructionUsesFallback i = false ∧
          ∃ cpu', flow = .next cpu' ∧ cpu'.downcount = cpu.downcount := fun hflow hop =>
    hflow.imp_right fun h => ⟨Bool.eq_false_of_not_eq_true fun hf => hop (leftOver_fallback hl hf),h⟩
  unfold otherStatements
  split
  case h_27 | h_28 | h_29 | h_30 => exact .inl ⟨_,rfl⟩
  case h_36 =>
    refine plain (.inr ⟨_,rfl,rfl⟩) fun hm => ?_
    simp only [List.mem_cons,List.not_mem_nil,or_false] at hm
    rcases hm with h | h | h | h <;> contradiction
  all_goals
    rename_i hop
    refine plain ?_ (by rw [hop]; decide)
  case h_9 | h_10 | h_11 | h_12 =>
    exact unlessException_plain (updateBase_downcount ..) (ppcPsqLoad_downcount ..)
  case h_21 | h_22 | h_23 | h_24 =>
    exact unlessException_plain (updateBase_downcount ..) (ppcPsqStore_downcount ..)
  case h_25 => exact .inr ⟨_,rfl,memWrite_downcount ..⟩
  case h_26 => exact unlessException_plain rfl (ppcDcbzL_downcount ..)
  case h_31 | h_32 => exact .inr ⟨_,rfl,rfl⟩
  case h_33 => exact unlessException_plain rfl (ppcTlbie_downcount ..)
  case h_34 =>
    unfold emitEciwx ppcEciwx
    exact unlessException_plain (CPUState.setGpr_downcount ..) (externalAccess_downcount ..)
  case h_35 =>
    unfold ppcEcowx
    exact unlessException_plain rfl (externalAccess_downcount ..)
  case h_1 | h_2 | h_3 | h_4 | h_5 | h_6 | h_7 | h_8 =>
    exact .inr ⟨_,rfl,emitFloadAt_downcount ..⟩
  all_goals exact .inr ⟨_,rfl,emitFstoreAt_downcount ..⟩

end Emitter

end DolRecomp
