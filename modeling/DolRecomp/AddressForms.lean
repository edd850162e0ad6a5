import DolRecomp.Emitter

/-!
# The operands of decoded addresses

The decoder rejects an update form whose base register is 0, so that in every
decoded instruction register 0 stands for the number 0.
-/

namespace DolRecomp

/-- The opcodes that write the address back. -/
def PPCOpcode.updates : PPCOpcode → Bool
  | .lwzu | .lbzu | .lhzu | .lhau | .lwzux | .lbzux | .lhzux | .lhaux | .stwu | .stbu | .sthu
  | .stwux | .stbux | .sthux | .lfsu | .lfdu | .lfsux | .lfdux | .stfsu | .stfdu | .stfsux | .stfdux
  | .psqLu | .psqLux | .psqStu | .psqStux => true
  | _ => false

/-- The base of an update form is a register, and an immediate string store has no displacement. -/
structure PPCInst.AddressForm (inst : PPCInst) : Prop where
  base : inst.op.updates = true → inst.rA ≠ 0
  string : inst.op = .stswi → inst.simm = 0

namespace Decoder

section

variable (raw : BitVec 32) (inst : PPCInst)

variable {a b : PPCInst} {c : Prop} [Decidable c]

theorem addressForm_ite (ha : c → a.AddressForm) (hb : ¬c → b.AddressForm) :
    (if c then a else b).AddressForm := by
  by_cases h : c
  · simpa only [if_pos h] using ha h
  · simpa only [if_neg h] using hb h

theorem addressForm_of (h : a.op.updates = false ∧ a.op ≠ .stswi) : a.AddressForm where
  base hu := absurd hu (by simp [h.1])
  string ho := absurd ho h.2

theorem addressForm_unknown : (unknown inst).AddressForm :=
  addressForm_of ⟨rfl,fun h => PPCOpcode.noConfusion h⟩

attribute [local simp] unknown decodeDRtRa decodeDRtRaUpdate decodeDFrtRaUpdate decodeDRsRa
  decodeDRsRaUpdate decodeXRtRaRb decodeXRtRaRbNorc decodeXRtRaRbUpdate decodeXFrtRaRbUpdate
  decodeXoRtRaRb decodeXRsRaRb decodeXRsRaRbNorc decodeXRsRaRbUpdate decodeAFrtFraFrbFrc
  decodeXFrtFrb decodeFcmp decodeCrLogical decodeMtfsb decodeXoRtRa decodePsqDRtRa
  decodePsqDRtRaUpdate decodePsqDRsRa decodePsqDRsRaUpdate decodePsqXRtRaRb decodePsqXRtRaRbNorc
  decodePsqXRtRaRbUpdate decodePsqXRsRaRb decodePsqXRsRaRbNorc decodePsqXRsRaRbUpdate
  decodeCacheForm decodeCompare decodeRotate decodeLogicalImmediate

/-- Each update form checks its base register. -/
theorem update_form (ha : ¬c → a.rA ≠ 0) (ho : a.op ≠ .stswi) :
    (if c then unknown inst else a).AddressForm :=
  addressForm_ite (fun _ => addressForm_unknown inst)
    fun h => ⟨fun _ => ha h,fun h' => absurd h' ho⟩

section

variable (op : PPCOpcode) (ho : op ≠ .stswi)

include ho

theorem decodeDRtRaUpdate_form : (decodeDRtRaUpdate raw inst op).AddressForm :=
  update_form inst (fun h h' => h (Or.inl h')) ho

theorem decodeDFrtRaUpdate_form : (decodeDFrtRaUpdate raw inst op).AddressForm :=
  update_form inst id ho

theorem decodeDRsRaUpdate_form : (decodeDRsRaUpdate raw inst op).AddressForm :=
  update_form inst id ho

theorem decodeXRtRaRbUpdate_form : (decodeXRtRaRbUpdate raw inst op).AddressForm :=
  update_form inst (fun h h' => h (Or.inr (Or.inl h'))) ho

theorem decodeXFrtRaRbUpdate_form : (decodeXFrtRaRbUpdate raw inst op).AddressForm :=
  update_form inst (fun h h' => h (Or.inr h')) ho

theorem decodeXRsRaRbUpdate_form : (decodeXRsRaRbUpdate raw inst op).AddressForm :=
  update_form inst (fun h h' => h (Or.inr h')) ho

theorem decodePsqDRtRaUpdate_form : (decodePsqDRtRaUpdate raw inst op).AddressForm :=
  update_form inst id ho

theorem decodePsqDRsRaUpdate_form : (decodePsqDRsRaUpdate raw inst op).AddressForm :=
  update_form inst id ho

theorem decodePsqXRtRaRbUpdate_form : (decodePsqXRtRaRbUpdate raw inst op).AddressForm :=
  update_form inst (fun h h' => h (Or.inr h')) ho

theorem decodePsqXRsRaRbUpdate_form : (decodePsqXRsRaRbUpdate raw inst op).AddressForm :=
  update_form inst (fun h h' => h (Or.inr h')) ho

end

/-- The opcodes of the remaining decoders neither update nor store strings. -/
def Plain (inst : PPCInst) : Prop := inst.op.updates = false ∧ inst.op ≠ .stswi

theorem decodePaired_form : (decodePaired raw inst).AddressForm := by
  unfold decodePaired
  repeat' split
  all_goals first
    | exact decodePsqXRtRaRbUpdate_form raw inst _ (by decide)
    | exact decodePsqXRsRaRbUpdate_form raw inst _ (by decide)
    | exact addressForm_of (by simp [op_ite,ite_eq_iff,PPCOpcode.updates])

theorem decodeBranchRegister_form : (decodeBranchRegister raw inst).AddressForm := by
  unfold decodeBranchRegister
  repeat' refine addressForm_ite (fun _ => ?_) (fun _ => ?_)
  all_goals exact addressForm_of (by simp [PPCOpcode.updates])

theorem decodeOverflowForm_plain (h : Plain inst) : Plain (decodeOverflowForm raw inst) := by
  unfold decodeOverflowForm
  by_cases ho : raw.getLsbD 10 = true
  all_goals
    simp only [ho]
    repeat' split
    all_goals first
      | exact h
      | exact ⟨rfl,fun h' => PPCOpcode.noConfusion h'⟩

theorem decodeOverflowForm_simm : (decodeOverflowForm raw inst).simm = inst.simm := by
  unfold decodeOverflowForm
  split
  all_goals simp [apply_ite PPCInst.simm]

theorem decodeExtended_form (h : inst.simm = 0) : (decodeExtended raw inst).AddressForm := by
  unfold decodeExtended
  split
  all_goals first
    | exact decodeXRtRaRbUpdate_form raw inst _ (by decide)
    | exact decodeXFrtRaRbUpdate_form raw inst _ (by decide)
    | exact decodeXRsRaRbUpdate_form raw inst _ (by decide)
    | exact addressForm_ite (fun _ => ⟨fun hu => absurd hu Bool.false_ne_true,fun _ => h⟩)
        (fun _ => addressForm_unknown inst)
    | exact addressForm_of (by simp [op_ite,ite_eq_iff,PPCOpcode.updates])

theorem decodeSingle_form : (decodeSingle raw inst).AddressForm := by
  unfold decodeSingle
  split
  all_goals exact addressForm_of (by simp [op_ite,ite_eq_iff,PPCOpcode.updates])

theorem decodeDouble_form : (decodeDouble raw inst).AddressForm := by
  unfold decodeDouble
  repeat' split
  all_goals exact addressForm_of (by simp [op_ite,ite_eq_iff,PPCOpcode.updates])

theorem ppcDecode_form (address : BitVec 32) : (ppcDecode raw address).AddressForm := by
  unfold ppcDecode
  split
  all_goals first
    | exact decodePaired_form raw _
    | exact decodeBranchRegister_form raw _
    | exact decodeSingle_form raw _
    | exact decodeDouble_form raw _
    | exact decodeDRtRaUpdate_form raw _ _ (by decide)
    | exact decodeDFrtRaUpdate_form raw _ _ (by decide)
    | exact decodeDRsRaUpdate_form raw _ _ (by decide)
    | exact decodePsqDRtRaUpdate_form raw _ _ (by decide)
    | exact decodePsqDRsRaUpdate_form raw _ _ (by decide)
    | exact addressForm_ite (fun _ => addressForm_of (decodeOverflowForm_plain raw _ ⟨rfl,by simp⟩))
        (fun _ => decodeExtended_form raw _ (decodeOverflowForm_simm raw _))
    | exact addressForm_of (by simp [op_ite,ite_eq_iff,PPCOpcode.updates])

end

end Decoder

namespace Emitter

variable {i : PPCInst} {cpu : CPUState}

/-- The address of an indexed form, register 0 standing for 0. -/
def indexedEa (i : PPCInst) (cpu : CPUState) : BitVec 32 :=
  (if i.rA = 0 then 0 else cpu.gpr i.rA) + cpu.gpr i.rB

/-- The address of a displacement form, register 0 standing for 0. -/
def displacedEa (i : PPCInst) (cpu : CPUState) : BitVec 32 :=
  (if i.rA = 0 then 0 else cpu.gpr i.rA) + i.simm.signExtend 32

theorem dformEa_eq {update : Bool} (h : update = true → i.rA ≠ 0) :
    dformEa i update cpu = displacedEa i cpu := by
  by_cases hr : i.rA = 0
  · cases update with
    | true => exact absurd hr (h rfl)
    | false => simp [dformEa,displacedEa,hr]
  · rw [dformEa,displacedEa,if_neg (fun h' => hr h'.1),if_neg hr]

theorem xformEa_eq {update : Bool} (h : update = true → i.rA ≠ 0) :
    xformEa i update cpu = indexedEa i cpu := by
  by_cases hr : i.rA = 0
  · cases update with
    | true => exact absurd hr (h rfl)
    | false => simp [xformEa,indexedEa,hr]
  · rw [xformEa,indexedEa,if_neg (fun h' => hr h'.1),if_neg hr]

theorem lswiEa_eq (h : i.simm = 0) : lswiEa i cpu = displacedEa i cpu := by
  by_cases hr : i.rA = 0
  · simp [lswiEa,displacedEa,hr,h]
  · rw [lswiEa,displacedEa,if_pos hr,if_neg hr,h]
    simp

theorem lswxEa_eq : lswxEa i cpu = indexedEa i cpu := by
  by_cases hr : i.rA = 0
  · simp [lswxEa,indexedEa,hr]
  · rw [lswxEa,indexedEa,if_pos hr,if_neg hr,add_comm]

end Emitter

end DolRecomp
