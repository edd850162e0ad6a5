import DolRecomp.WrittenBytes

/-!
# Which stores into code are found

For each store-like instruction, when the length that the analysis assumes covers
the bytes that the runtime writes.
-/

namespace DolRecomp.Smc

/-- The address that the runtime computes for a store. -/
def storeEa (i : PPCInst) (cpu : CPUState) : BitVec 32 :=
  if instHasDformEa i.op then Emitter.displacedEa i cpu else Emitter.indexedEa i cpu

/-- A quantised store of two lanes fits in four bytes: its type is not the float. -/
def LanesCovered (i : PPCInst) (indexed : Bool) (cpu : CPUState) : Prop :=
  cpu.msr &&& Runtime.ppcMsrFp ≠ 0 → PsqStores i indexed (storeEa i cpu) cpu → i.w = false →
    psqType i cpu ≠ 0 ∧ (storeEa i cpu).toNat + Runtime.psqTypeSize (psqType i cpu) < 2^32

/-- The length that the analysis assumes covers what is written. -/
def LengthCovers (i : PPCInst) (cpu : CPUState) : Prop :=
  match i.op with
  | .psqSt | .psqStu => LanesCovered i false cpu
  | .psqStx | .psqStux => LanesCovered i true cpu
  | .stmw => (storeEa i cpu).toNat + 4*(31 - i.rS.toNat) < 2^32
  | .stswi => (storeEa i cpu).toNat + (Emitter.stringCount i - 1) < 2^32
  | .stswx => Emitter.lswxCount cpu ≤ 1
  | .dcbz => storeEa i cpu &&& 31#32 = 0
  | .dcbzL => LocksCache cpu → storeEa i cpu &&& 31#32 = 0
  | _ => True

section

variable {host : Host} {dev : Devices} {i : PPCInst} {cpu cpu' : CPUState} {size : ℕ}

/-- What is to be shown of a store: the bytes it writes, and when they are covered. -/
def Stored (host : Host) (dev : Devices) (i : PPCInst) (cpu : CPUState) (size : ℕ) : Prop :=
  ∃ bytes, Writes cpu (execute host dev i cpu) bytes ∧
    (bytes ⊆ span (storeEa i cpu) size ↔ LengthCovers i cpu)

theorem execute_unavailable (he : i.embeddedData = false) (hu : ppcOpUsesFpu i.op = true)
    (hf : ¬cpu.msr &&& Runtime.ppcMsrFp ≠ 0) : Writes cpu (execute host dev i cpu) ∅ := by
  refine writes_none ?_
  rw [execute,Emitter.emitInstruction,he,hu,Runtime.ppcFpAvailable,if_neg hf]
  exact takeException_history _ _ _ _

theorem stored_plain (he : i.embeddedData = false) (hc : LengthCovers i cpu)
    (hst : Emitter.emitStatements (EmitConfig.whole host dev) i cpu = .next cpu')
    (hw : Writes cpu cpu' (span (storeEa i cpu) size)) : Stored host dev i cpu size := by
  by_cases hf : cpu.msr &&& Runtime.ppcMsrFp ≠ 0
  · refine ⟨_,?_,iff_of_true subset_rfl hc⟩
    rw [execute_available he hf,hst]
    exact hw
  · cases hu : ppcOpUsesFpu i.op with
    | true => exact ⟨∅,execute_unavailable he hu hf,iff_of_true (Set.empty_subset _) hc⟩
    | false =>
      refine ⟨_,?_,iff_of_true subset_rfl hc⟩
      rw [execute_plain he hu,hst]
      exact hw

theorem storeEa_dform (h : instHasDformEa i.op = true) :
    storeEa i cpu = Emitter.displacedEa i cpu :=
  if_pos h

theorem storeEa_xform (h : instHasDformEa i.op = false) : storeEa i cpu = Emitter.indexedEa i cpu :=
  if_neg (by rw [h]; exact Bool.false_ne_true)

theorem dformEa_storeEa {update : Bool} (h : instHasDformEa i.op = true)
    (hr : update = true → i.rA ≠ 0) : Emitter.dformEa i update cpu = storeEa i cpu :=
  (Emitter.dformEa_eq hr).trans (storeEa_dform h).symm

theorem dformEa_plain (h : instHasDformEa i.op = true) :
    Emitter.dformEa i false cpu = storeEa i cpu :=
  (Emitter.dformEa_eq fun h => absurd h Bool.false_ne_true).trans (storeEa_dform h).symm

theorem xformEa_storeEa {update : Bool} (h : instHasDformEa i.op = false)
    (hr : update = true → i.rA ≠ 0) : Emitter.xformEa i update cpu = storeEa i cpu :=
  (Emitter.xformEa_eq hr).trans (storeEa_xform h).symm

theorem xformEa_plain (h : instHasDformEa i.op = false) :
    Emitter.xformEa i false cpu = storeEa i cpu :=
  xformEa_storeEa h fun h => absurd h Bool.false_ne_true

section

variable {update : Bool} (he : i.embeddedData = false) (hc : LengthCovers i cpu)

include he hc

theorem stored_dform {write : CPUState → BitVec 32 → BitVec 32 → CPUState}
    (hst : Emitter.emitStatements (EmitConfig.whole host dev) i cpu =
      .next (Emitter.emitStore i write update cpu))
    (hd : instHasDformEa i.op = true) (hr : update = true → i.rA ≠ 0)
    (hw : ∀ ea v, Writes cpu (write cpu ea v) (span ea size)) : Stored host dev i cpu size := by
  refine stored_plain he hc hst ?_
  rw [Emitter.emitStore,dformEa_storeEa hd hr]
  exact writes_emitStoreAt (hw _) update

theorem stored_xform {write : CPUState → BitVec 32 → BitVec 32 → CPUState}
    (hst : Emitter.emitStatements (EmitConfig.whole host dev) i cpu =
      .next (Emitter.emitStorex i write update cpu))
    (hd : instHasDformEa i.op = false) (hr : update = true → i.rA ≠ 0)
    (hw : ∀ ea v, Writes cpu (write cpu ea v) (span ea size)) : Stored host dev i cpu size := by
  refine stored_plain he hc hst ?_
  rw [Emitter.emitStorex,xformEa_storeEa hd hr]
  exact writes_emitStoreAt (hw _) update

theorem stored_fdform {single : Bool}
    (hst : Emitter.emitStatements (EmitConfig.whole host dev) i cpu =
      .next (Emitter.emitFstore i single update cpu))
    (hd : instHasDformEa i.op = true) (hr : update = true → i.rA ≠ 0)
    (hs : (if single then 4 else 8) = size) : Stored host dev i cpu size := by
  subst hs
  refine stored_plain he hc hst ?_
  rw [Emitter.emitFstore,dformEa_storeEa hd hr]
  exact writes_emitFstoreAt single update

theorem stored_fxform {single : Bool}
    (hst : Emitter.emitStatements (EmitConfig.whole host dev) i cpu =
      .next (Emitter.emitFstorex i single update cpu))
    (hd : instHasDformEa i.op = false) (hr : update = true → i.rA ≠ 0)
    (hs : (if single then 4 else 8) = size) : Stored host dev i cpu size := by
  subst hs
  refine stored_plain he hc hst ?_
  rw [Emitter.emitFstorex,xformEa_storeEa hd hr]
  exact writes_emitFstoreAt single update

end

theorem stored_psq {indexed update : Bool} (he : i.embeddedData = false)
    (hu : ppcOpUsesFpu i.op = true)
    (hc : LengthCovers i cpu ↔ LanesCovered i indexed cpu)
    (hst : Emitter.emitStatements (EmitConfig.whole host dev) i cpu =
      Emitter.emitPsqStore dev i indexed update cpu)
    (hd : instHasDformEa i.op = !indexed) (hr : update = true → i.rA ≠ 0) :
    Stored host dev i cpu 4 := by
  have hea : Emitter.psqEa i indexed update cpu = storeEa i cpu := by
    cases indexed with
    | true => exact xformEa_storeEa hd hr
    | false => exact dformEa_storeEa hd hr
  by_cases hf : cpu.msr &&& Runtime.ppcMsrFp ≠ 0
  · -- the update of the base register and the check of the exception make no access
    have hrun : (execute host dev i cpu).history =
        (Runtime.ppcPsqStore dev cpu i.rS (storeEa i cpu) i.w i.i indexed i.address).history := by
      rw [execute_available he hf,hst,Emitter.emitPsqStore,hea]
      exact unlessException_history fun _ => updateBase_history update
    by_cases hp : PsqStores i indexed (storeEa i cpu) cpu
    · refine ⟨_,(writes_psqStore_of hp).of_history hrun,?_⟩
      have hsize := (psqAccessIsValid_iff.mp hp.2).1
      have hbound : Runtime.psqTypeSize (psqType i cpu) ≤ 4 ∧
          Runtime.psqTypeSize (psqType i cpu) ≠ 3 ∧
          (Runtime.psqTypeSize (psqType i cpu) ≠ 4 ↔ psqType i cpu ≠ 0) := by
        generalize psqType i cpu = type
        revert type
        decide
      rw [hc,LanesCovered,psqBytes]
      cases hw : i.w with
      | true =>
        exact iff_of_true (by simpa using span_mono hbound.1) fun _ _ h => Bool.noConfusion h
      | false =>
        have hpair := @pair_subset_iff (storeEa i cpu) _ (Nat.pos_of_ne_zero hsize) hbound.1
          hbound.2.1
        rw [hbound.2.2] at hpair
        simp only [Bool.false_eq_true,if_false]
        rw [hpair]
        exact ⟨fun h _ _ _ => h,fun h => h hf hp trivial⟩
    · exact ⟨∅,(writes_psqStore_not hp).of_history hrun,
        iff_of_true (Set.empty_subset _) (hc.mpr fun _ h => absurd h hp)⟩
  · exact ⟨∅,execute_unavailable he hu hf,
      iff_of_true (Set.empty_subset _) (hc.mpr fun h => absurd h hf)⟩

section

variable (he : i.embeddedData = false)

include he

/-- Nothing is written unless the reservation still holds. -/
theorem stored_stwcx (ho : i.op = .stwcx) : Stored host dev i cpu 4 := by
  have hst : execute host dev i cpu = Emitter.emitStwcx i cpu :=
    execute_op he ho rfl
  have hea : Emitter.xformEa i false cpu = storeEa i cpu :=
    xformEa_plain (by rw [ho]; rfl)
  have hc : LengthCovers i cpu := by
    rw [LengthCovers,ho]
    trivial
  unfold Stored
  rw [hst,Emitter.emitStwcx,hea]
  cases hs : cpu.reserveValid && storeEa i cpu == cpu.reserveAddr with
  | true =>
    exact ⟨_,(writes_memWrite (storeEa i cpu) ((cpu.gpr i.rS).zeroExtend 64) 4).of_history rfl,
      iff_of_true subset_rfl hc⟩
  | false => exact ⟨∅,writes_none rfl,iff_of_true (Set.empty_subset _) hc⟩

theorem stored_stfiwx (ho : i.op = .stfiwx) : Stored host dev i cpu 4 := by
  refine stored_plain he (by rw [LengthCovers,ho]; trivial) ((emitStatements_op ho _).trans rfl) ?_
  rw [← xformEa_plain (by rw [ho]; rfl)]
  exact writes_memWrite (Emitter.xformEa i false cpu) _ 4

theorem stored_stmw (ho : i.op = .stmw) : Stored host dev i cpu ((32 - i.rS.toNat)*4) := by
  have hlt := i.rS.isLt
  have hst : execute host dev i cpu = Emitter.emitStmw i cpu :=
    execute_op he ho rfl
  unfold Stored
  rw [hst,Emitter.emitStmw,dformEa_plain (by rw [ho]; rfl)]
  refine ⟨_,writes_words (fun cpu n => cpu.gpr (i.rS + BitVec.ofNat 5 n)) _ _ cpu,?_⟩
  rw [mul_comm,run_subset_iff (by omega) (by omega) (by omega),LengthCovers,ho]
  rw [show 32 - i.rS.toNat - 1 = 31 - i.rS.toNat by omega]

theorem stored_stswi (hform : i.AddressForm) (ho : i.op = .stswi) :
    Stored host dev i cpu (if i.nb ≠ 0 then i.nb.toNat else 32) := by
  have hst : execute host dev i cpu =
      Emitter.stswBytes i.rS (Emitter.lswiEa i cpu) (Emitter.stringCount i) cpu :=
    execute_op he ho rfl
  have hcount : (if i.nb ≠ 0 then i.nb.toNat else 32) = Emitter.stringCount i := by
    rw [Emitter.stringCount]
    split <;> simp_all
  have hpos : 0 < Emitter.stringCount i ∧ Emitter.stringCount i ≤ 32 := by
    have hlt := i.nb.isLt
    rw [Emitter.stringCount]
    split
    · omega
    · next h => exact ⟨Nat.pos_of_ne_zero fun h' => h (BitVec.eq_of_toNat_eq h'),by omega⟩
  unfold Stored
  rw [hst,hcount,Emitter.lswiEa_eq (hform.string ho),← storeEa_dform (by rw [ho]; rfl)]
  refine ⟨_,writes_stswBytes _ _ _ cpu,?_⟩
  have hrun := @run_subset_iff (storeEa i cpu) 1 (Emitter.stringCount i) one_pos hpos.1 (by omega)
  simp only [one_mul] at hrun
  rw [LengthCovers,ho]
  exact hrun

theorem stored_stswx (ho : i.op = .stswx) : Stored host dev i cpu 1 := by
  have hst : execute host dev i cpu =
      Emitter.stswBytes i.rS (Emitter.lswxEa i cpu) (Emitter.lswxCount cpu) cpu :=
    execute_op he ho rfl
  unfold Stored
  rw [hst,Emitter.lswxEa_eq,← storeEa_xform (by rw [ho]; rfl)]
  refine ⟨_,writes_stswBytes _ _ _ cpu,?_⟩
  rw [LengthCovers,ho]
  exact string_subset_iff

theorem stored_dcbz (ho : i.op = .dcbz) : Stored host dev i cpu 32 := by
  have hst : execute host dev i cpu = Emitter.emitDcbz i cpu :=
    execute_op he ho rfl
  unfold Stored
  rw [hst,Emitter.emitDcbz,xformEa_plain (by rw [ho]; rfl)]
  refine ⟨_,writes_zeroBlock _ cpu,?_⟩
  rw [LengthCovers,ho]
  exact block_subset_iff

theorem stored_dcbzL (ho : i.op = .dcbzL) : Stored host dev i cpu 32 := by
  have hst : execute host dev i cpu = (Emitter.emitDcbzL dev i cpu).cpu :=
    execute_op he ho rfl
  have hrun : (execute host dev i cpu).history =
      (Runtime.ppcDcbzL dev cpu (storeEa i cpu) i.address).history := by
    rw [hst,Emitter.emitDcbzL,xformEa_plain (by rw [ho]; rfl)]
    exact unlessException_history fun _ => rfl
  by_cases hl : LocksCache cpu
  · refine ⟨_,(writes_dcbzL_of dev hl i.address).of_history hrun,?_⟩
    rw [LengthCovers,ho,block_subset_iff]
    exact ⟨fun h _ => h,fun h => h hl⟩
  · refine ⟨_,(writes_dcbzL_not dev hl i.address).of_history hrun,?_⟩
    rw [LengthCovers,ho]
    exact iff_of_true (Set.empty_subset _) fun h => absurd h hl

end

/-- Every store-like instruction writes an explicit set of bytes. -/
theorem stored (hform : i.AddressForm) (he : i.embeddedData = false)
    (hs : storeSizeForInst i = some size) : Stored host dev i cpu size := by
  cases i
  have noUpdate {p : Prop} : false = true → p := fun h => absurd h Bool.false_ne_true
  unfold storeSizeForInst at hs
  dsimp only at hs he
  split at hs
  all_goals cases hs
  -- the cases come in the order of the source's switch, plain and update forms in turn
  · exact stored_dform he trivial rfl rfl noUpdate fun _ _ => writes_memWrite _ _ 1
  · exact stored_dform he trivial rfl rfl (fun _ => hform.base rfl) fun _ _ => writes_memWrite _ _ 1
  · exact stored_xform he trivial rfl rfl noUpdate fun _ _ => writes_memWrite _ _ 1
  · exact stored_xform he trivial rfl rfl (fun _ => hform.base rfl) fun _ _ => writes_memWrite _ _ 1
  · exact stored_dform he trivial rfl rfl noUpdate fun _ _ => writes_memWrite _ _ 2
  · exact stored_dform he trivial rfl rfl (fun _ => hform.base rfl) fun _ _ => writes_memWrite _ _ 2
  · exact stored_xform he trivial rfl rfl noUpdate fun _ _ => writes_memWrite _ _ 2
  · exact stored_xform he trivial rfl rfl (fun _ => hform.base rfl) fun _ _ => writes_memWrite _ _ 2
  · exact stored_xform he trivial rfl rfl noUpdate fun _ _ => writes_memWrite _ _ 2
  · exact stored_dform he trivial rfl rfl noUpdate fun _ _ => writes_memWrite _ _ 4
  · exact stored_dform he trivial rfl rfl (fun _ => hform.base rfl) fun _ _ => writes_memWrite _ _ 4
  · exact stored_xform he trivial rfl rfl noUpdate fun _ _ => writes_memWrite _ _ 4
  · exact stored_xform he trivial rfl rfl (fun _ => hform.base rfl) fun _ _ => writes_memWrite _ _ 4
  · exact stored_xform he trivial rfl rfl noUpdate fun _ _ => writes_memWrite _ _ 4
  -- the remaining words: conditional, integer from a float register, single, quantised
  · exact stored_stwcx he rfl
  · exact stored_stfiwx he rfl
  · exact stored_fdform he trivial rfl rfl noUpdate rfl
  · exact stored_fdform he trivial rfl rfl (fun _ => hform.base rfl) rfl
  · exact stored_fxform he trivial rfl rfl noUpdate rfl
  · exact stored_fxform he trivial rfl rfl (fun _ => hform.base rfl) rfl
  · exact stored_psq he rfl Iff.rfl rfl rfl noUpdate
  · exact stored_psq he rfl Iff.rfl rfl rfl (fun _ => hform.base rfl)
  · exact stored_psq he rfl Iff.rfl rfl rfl noUpdate
  · exact stored_psq he rfl Iff.rfl rfl rfl (fun _ => hform.base rfl)
  · exact stored_fdform he trivial rfl rfl noUpdate rfl
  · exact stored_fdform he trivial rfl rfl (fun _ => hform.base rfl) rfl
  · exact stored_fxform he trivial rfl rfl noUpdate rfl
  · exact stored_fxform he trivial rfl rfl (fun _ => hform.base rfl) rfl
  -- the lengths that are computed, and the blocks
  · exact stored_stmw he rfl
  · exact stored_stswi he hform rfl
  · exact stored_stswx he rfl
  · exact stored_dcbz he rfl
  · exact stored_dcbzL he rfl

end

section

variable {regs : KnownRegs} {i : PPCInst} {cpu : CPUState} {size : ℕ}

end

end DolRecomp.Smc
