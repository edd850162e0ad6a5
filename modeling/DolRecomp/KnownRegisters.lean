import DolRecomp.ChangedRegisters

/-!
# Whether the known registers are right

A step keeps the table right when the table forgets or recomputes every register
that changes. Along a run the registers that the analysis has no case for must
be unknown.
-/

namespace DolRecomp.Smc

/-- The opcodes that may be left to the fallback of the host. -/
def fallsBack : PPCOpcode → Bool
  | .dcbst | .dcbf | .dcbi | .icbi | .mfspr | .mtspr => true
  | _ => false

/-- A step that falls through, or that the fallback of the host carries out. -/
inductive Advances (host : Host) (dev : Devices) (i : PPCInst) (cpu : CPUState) : CPUState → Prop
  | next {cpu' : CPUState}
      (h : Emitter.emitInstruction (EmitConfig.whole host dev) i cpu = .next cpu') :
      Advances host dev i cpu cpu'
  | fallback (f : CPUState → BitVec 32 → BitVec 32 → CPUState)
      (hf : host.instructionFallback = some f) (ho : fallsBack i.op = true)
      (h : Emitter.emitInstruction (EmitConfig.whole host dev) i cpu =
        .ret (f cpu i.raw i.address)) :
      Advances host dev i cpu (f cpu i.raw i.address)

/-- Instructions one after another, the table updated along; `P` holds before each step. -/
inductive Run (host : Host) (dev : Devices) (P : KnownRegs → PPCInst → CPUState → Prop) :
    KnownRegs → List PPCInst → CPUState → CPUState → Prop
  | nil (regs : KnownRegs) (cpu : CPUState) : Run host dev P regs [] cpu cpu
  | cons {regs : KnownRegs} {i : PPCInst} {insts : List PPCInst} {cpu mid cpu' : CPUState}
      (hp : P regs i cpu) (hs : Advances host dev i cpu mid)
      (hr : Run host dev P (updateKnownRegs regs i) insts mid cpu') :
      Run host dev P regs (i :: insts) cpu cpu'

/-- A word that the decoder knows. -/
def Decoded (i : PPCInst) : Prop := ∃ raw address, i = ppcDecode raw address ∧ i.op ≠ .unknown

section

open Emitter

variable {host : Host} {dev : Devices} {i : PPCInst} {cpu cpu' : CPUState} {rs : List (BitVec 5)}
  {reg : BitVec 5}

theorem updateKnownRegs_eq (regs : KnownRegs) : updateKnownRegs regs i =
    match tableUpdate i.op with
    | .keep => regs
    | .forgetD => clearReg regs i.rD
    | .forgetA => clearReg regs i.rA
    | .loadD => clearReg (assignReg regs i.rA (knownDformEa regs i)) i.rD
    | .loadX => clearReg (assignReg regs i.rA (knownIndexedEa regs i)) i.rD
    | .storeD => assignReg regs i.rA (knownDformEa regs i)
    | .storeX => assignReg regs i.rA (knownIndexedEa regs i)
    | .addi => assignReg regs i.rD (if i.rA = 0 then some (i.simm.signExtend 32)
        else (regs i.rA).map (· + i.simm.signExtend 32))
    | .addis => assignReg regs i.rD (if i.rA = 0 then some (i.simm.signExtend 32 <<< 16)
        else (regs i.rA).map (· + (i.simm.signExtend 32 <<< 16)))
    | .ori => assignReg regs i.rA ((regs i.rS).map (· ||| i.uimm.zeroExtend 32))
    | .oris => assignReg regs i.rA ((regs i.rS).map (· ||| (i.uimm.zeroExtend 32 <<< 16)))
    | .xori => assignReg regs i.rA ((regs i.rS).map (· ^^^ i.uimm.zeroExtend 32))
    | .xoris => assignReg regs i.rA ((regs i.rS).map (· ^^^ (i.uimm.zeroExtend 32 <<< 16)))
    | .forgetFrom => clearFrom regs i.rD := by
  generalize hop : i.op = op
  unfold updateKnownRegs
  rw [hop]
  cases op <;> rfl

def TracksOutside (rs : List (BitVec 5)) (regs : KnownRegs) (cpu : CPUState) : Prop :=
  ∀ r v, r ∉ rs → regs r = some v → cpu.gpr r = v

variable {regs : KnownRegs} {reg' : BitVec 5}

theorem tracksOutside_of (ht : Tracks regs cpu) (hs : NotStale regs i cpu)
    (hc : Changes (changedRegs i cpu) cpu cpu') : TracksOutside (updatedRegs i) regs cpu' := by
  intro r v hr hv
  rw [hc.same r,ht r v hv]
  rintro hm
  rcases List.mem_append.mp hm with hm | hm
  · exact hr hm
  · rw [hs r hm] at hv
    cases hv

theorem tracks_clearReg (h : TracksOutside [reg] regs cpu) : Tracks (clearReg regs reg) cpu := by
  intro r v hv
  by_cases hr : r = reg
  · subst hr
    rw [clearReg,Function.update_self] at hv
    cases hv
  · rw [clearReg,Function.update_of_ne hr] at hv
    exact h r v (fun hm => hr (List.mem_singleton.mp hm)) hv

theorem assignReg_apply (value : Option (BitVec 32)) (r : BitVec 5) :
    assignReg regs reg value r = if r = reg then value else regs r := by
  cases value with
  | none => exact Function.update_apply regs reg none r
  | some v => exact Function.update_apply regs reg (some v) r

theorem tracks_assignReg {value : Option (BitVec 32)} (h : TracksOutside [reg] regs cpu)
    (hvalue : ∀ v, value = some v → cpu.gpr reg = v) : Tracks (assignReg regs reg value) cpu := by
  intro r v hv
  rw [assignReg_apply] at hv
  split at hv
  · next hr => exact hr ▸ hvalue v hv
  · next hr => exact h r v (fun hm => hr (List.mem_singleton.mp hm)) hv

/-- A load with update: the target is forgotten last. -/
theorem tracks_load {value : Option (BitVec 32)} (h : TracksOutside [reg,reg'] regs cpu)
    (hvalue : ∀ v, value = some v → cpu.gpr reg = v) :
    Tracks (clearReg (assignReg regs reg value) reg') cpu := by
  refine tracks_clearReg fun r v hr hv => ?_
  rw [assignReg_apply] at hv
  split at hv
  · next he => exact he ▸ hvalue v hv
  · next he =>
    refine h r v (fun hm => ?_) hv
    rcases List.mem_cons.mp hm with hm | hm
    · exact he hm
    · exact hr hm

theorem mem_registersFrom_succ {rD r : BitVec 5} {count : ℕ} :
    r ∈ registersFrom rD (count + 1) ↔
      r ∈ registersFrom rD count ∨ r = rD + BitVec.ofNat 5 count := by
  rw [registersFrom,List.range_succ,List.map_append,List.mem_append,List.map_singleton,
    List.mem_singleton,registersFrom]

theorem clearFrom_apply (rD r : BitVec 5) (count : ℕ) :
    (List.range count).foldl (fun regs n => clearReg regs (rD + BitVec.ofNat 5 n)) regs r =
      if r ∈ registersFrom rD count then none else regs r := by
  induction count with
  | zero => rfl
  | succ count ih =>
    rw [List.range_succ,List.foldl_append,List.foldl_cons,List.foldl_nil,clearReg,
      Function.update_apply,ih]
    simp only [mem_registersFrom_succ]
    by_cases h : r = rD + BitVec.ofNat 5 count
    · rw [if_pos h,if_pos (Or.inr h)]
    · simp only [h,if_false,or_false]

theorem tracks_clearFrom {rD : BitVec 5}
    (h : TracksOutside (registersFrom rD (32 - rD.toNat)) regs cpu) :
    Tracks (clearFrom regs rD) cpu := by
  intro r v hv
  rw [clearFrom,clearFrom_apply] at hv
  split at hv
  · cases hv
  · next hr => exact h r v hr hv

/-- The opcodes whose result the analysis computes. -/
def updaters : TableUpdate → List PPCOpcode
  | .loadD => [.lwzu,.lbzu,.lhzu,.lhau]
  | .loadX => [.lwzux,.lbzux,.lhzux,.lhaux]
  | .storeD => [.stwu,.stbu,.sthu]
  | .storeX => [.stwux,.stbux,.sthux,.stfsux,.stfdux,.psqStux]
  | .addi => [.addi]
  | .addis => [.addis]
  | .ori => [.ori]
  | .oris => [.oris]
  | .xori => [.xori]
  | .xoris => [.xoris]
  | _ => []

theorem mem_updaters {u : TableUpdate} (hk : tableUpdate i.op = u) (hu : updaters u ≠ []) :
    i.op ∈ updaters u := by
  have h : updaters (tableUpdate i.op) = [] ∨ i.op ∈ updaters (tableUpdate i.op) := by
    cases i.op <;> first
      | exact Or.inl rfl
      | exact Or.inr (by decide)
  rw [hk] at h
  exact h.resolve_left hu

theorem immediate_op {u : TableUpdate} {op : PPCOpcode} (hk : tableUpdate i.op = u)
    (hu : updaters u = [op]) : i.op = op := by
  have h := mem_updaters hk (by rw [hu]; exact List.cons_ne_nil _ _)
  rw [hu] at h
  exact List.mem_singleton.mp h

theorem emitLoadAt_base {read : CPUState → BitVec 32 → BitVec 32 × CPUState} {ea : BitVec 32} :
    (emitLoadAt i ea read true cpu).gpr i.rA = ea := Function.update_self _ _ _

theorem emitStoreAt_base {write : CPUState → BitVec 32 → BitVec 32 → CPUState} {ea : BitVec 32} :
    (emitStoreAt i ea write true cpu).gpr i.rA = ea := Function.update_self _ _ _

theorem unlessException_next {rest : CPUState → CPUState}
    (h : unlessException rest cpu = .next cpu') : cpu' = rest cpu := by
  unfold unlessException at h
  split at h
  · cases h
  · exact (CFlow.next.inj h).symm

theorem updateBase_base {ea : BitVec 32} : (updateBase i true ea cpu).gpr i.rA = ea :=
  Function.update_self _ _ _

section

variable (he : i.embeddedData = false)
  (hn : emitInstruction (EmitConfig.whole host dev) i cpu = .next cpu')

include he hn

/-- Statements that end with the result of the instruction. -/
theorem setGpr_value {v : BitVec 32}
    (h : emitStatements (EmitConfig.whole host dev) i cpu = .next (cpu.setGpr reg v)) :
    cpu'.gpr reg = v := by
  have hcpu := CFlow.next.inj (h.symm.trans (emitStatements_of_next he hn))
  rw [← hcpu,CPUState.setGpr_gpr,if_pos rfl]

theorem addi_value (hop : i.op = .addi) :
    cpu'.gpr i.rD = if i.rA = 0 then i.simm.signExtend 32
      else cpu.gpr i.rA + i.simm.signExtend 32 :=
  setGpr_value he hn (emitStatements_op hop _)

theorem addis_value (hop : i.op = .addis) :
    cpu'.gpr i.rD = if i.rA = 0 then i.simm.signExtend 32 <<< 16
      else cpu.gpr i.rA + (i.simm.signExtend 32 <<< 16) :=
  setGpr_value he hn (emitStatements_op hop _)

theorem oris_value (hop : i.op = .oris) :
    cpu'.gpr i.rA = cpu.gpr i.rS ||| (i.uimm.zeroExtend 32 <<< 16) :=
  setGpr_value he hn (emitStatements_op hop _)

theorem xori_value (hop : i.op = .xori) :
    cpu'.gpr i.rA = cpu.gpr i.rS ^^^ i.uimm.zeroExtend 32 :=
  setGpr_value he hn (emitStatements_op hop _)

theorem xoris_value (hop : i.op = .xoris) :
    cpu'.gpr i.rA = cpu.gpr i.rS ^^^ (i.uimm.zeroExtend 32 <<< 16) :=
  setGpr_value he hn (emitStatements_op hop _)

theorem ori_value (hop : i.op = .ori) : cpu'.gpr i.rA = cpu.gpr i.rS ||| i.uimm.zeroExtend 32 := by
  have hst := emitStatements_of_next he hn
  rw [emitStatements_op hop] at hst
  have hcpu : (if i.rS = 0 ∧ i.rA = 0 ∧ i.uimm = 0 then cpu
      else cpu.setGpr i.rA (cpu.gpr i.rS ||| i.uimm.zeroExtend 32)) = cpu' := CFlow.next.inj hst
  rw [← hcpu]
  split
  · next h =>
    rw [h.1,h.2.1,h.2.2]
    exact BitVec.or_zero.symm
  · exact Function.update_self _ _ _

variable (hform : i.AddressForm)

include hform

theorem loadD_value (hk : tableUpdate i.op = .loadD) : cpu'.gpr i.rA = displacedEa i cpu := by
  have hst := emitStatements_of_next he hn
  have hop : i.op = .lwzu ∨ i.op = .lbzu ∨ i.op = .lhzu ∨ i.op = .lhau := by
    simpa [updaters] using mem_updaters hk (by simp [updaters])
  have hea : dformEa i true cpu = displacedEa i cpu := dformEa_eq fun _ => hform.base (by
    rcases hop with ho | ho | ho | ho <;> rw [ho] <;> rfl)
  rw [← hea]
  rcases hop with ho | ho | ho | ho
  all_goals
    rw [emitStatements_op ho] at hst
    cases hst
    exact emitLoadAt_base

theorem loadX_value (hk : tableUpdate i.op = .loadX) : cpu'.gpr i.rA = indexedEa i cpu := by
  have hst := emitStatements_of_next he hn
  have hop : i.op = .lwzux ∨ i.op = .lbzux ∨ i.op = .lhzux ∨ i.op = .lhaux := by
    simpa [updaters] using mem_updaters hk (by simp [updaters])
  have hea : xformEa i true cpu = indexedEa i cpu := xformEa_eq fun _ => hform.base (by
    rcases hop with ho | ho | ho | ho <;> rw [ho] <;> rfl)
  rw [← hea]
  rcases hop with ho | ho | ho | ho
  all_goals
    rw [emitStatements_op ho] at hst
    cases hst
    exact emitLoadAt_base

theorem storeD_value (hk : tableUpdate i.op = .storeD) : cpu'.gpr i.rA = displacedEa i cpu := by
  have hst := emitStatements_of_next he hn
  have hop : i.op = .stwu ∨ i.op = .stbu ∨ i.op = .sthu := by
    simpa [updaters] using mem_updaters hk (by simp [updaters])
  have hea : dformEa i true cpu = displacedEa i cpu := dformEa_eq fun _ => hform.base (by
    rcases hop with ho | ho | ho <;> rw [ho] <;> rfl)
  rw [← hea]
  rcases hop with ho | ho | ho
  all_goals
    rw [emitStatements_op ho] at hst
    cases hst
    exact emitStoreAt_base

theorem storeX_value (hk : tableUpdate i.op = .storeX) : cpu'.gpr i.rA = indexedEa i cpu := by
  have hst := emitStatements_of_next he hn
  have hop : i.op = .stwux ∨ i.op = .stbux ∨ i.op = .sthux ∨ i.op = .stfsux ∨ i.op = .stfdux ∨
      i.op = .psqStux := by
    simpa [updaters] using mem_updaters hk (by simp [updaters])
  have hea : xformEa i true cpu = indexedEa i cpu := xformEa_eq fun _ => hform.base (by
    rcases hop with ho | ho | ho | ho | ho | ho <;> rw [ho] <;> rfl)
  rw [← hea]
  rcases hop with ho | ho | ho | ho | ho | ho
  all_goals rw [emitStatements_op ho] at hst
  case inr.inr.inr.inr.inr =>
    have hrest := unlessException_next hst
    rw [hrest]
    exact updateBase_base
  all_goals
    cases hst
    first
    | exact emitStoreAt_base
    | exact updateBase_base

end

/-- A value that the table computes from one register. -/
theorem map_known {f : BitVec 32 → BitVec 32} {v : BitVec 32} (ht : Tracks regs cpu)
    (h : (regs reg).map f = some v) : f (cpu.gpr reg) = v := by
  obtain ⟨w,hw,rfl⟩ := Option.map_eq_some_iff.mp h
  rw [ht reg w hw]

/-- An immediate form whose base may be the number 0. -/
theorem base_known {simm v : BitVec 32} (ht : Tracks regs cpu)
    (h : (if i.rA = 0 then some simm else (regs i.rA).map (· + simm)) = some v) :
    (if i.rA = 0 then simm else cpu.gpr i.rA + simm) = v := by
  split at h
  · next hr =>
    rw [if_pos hr]
    exact Option.some.inj h
  · next hr =>
    rw [if_neg hr]
    exact map_known (f := (· + simm)) ht h

theorem fallsBack_update (h : fallsBack i.op = true) :
    tableUpdate i.op = .keep ∨ tableUpdate i.op = .forgetD := by
  unfold fallsBack at h
  split at h
  case h_7 => cases h
  all_goals
    rename_i hop
    rw [hop]
    first
      | exact .inl rfl
      | exact .inr rfl

/-- A fallen-through step keeps the table right, unless a register was missed. -/
theorem next_tracks (he : i.embeddedData = false) (hform : i.AddressForm) (ht : Tracks regs cpu)
    (ho : TracksOutside (updatedRegs i) regs cpu')
    (hn : emitInstruction (EmitConfig.whole host dev) i cpu = .next cpu') :
    Tracks (updateKnownRegs regs i) cpu' := by
  rw [updateKnownRegs_eq]
  rw [updatedRegs] at ho
  cases hk : tableUpdate i.op
  all_goals rw [hk] at ho
  case keep => exact fun r v hv => ho r v List.not_mem_nil hv
  case forgetD | forgetA => exact tracks_clearReg ho
  case forgetFrom => exact tracks_clearFrom ho
  case loadD =>
    refine tracks_load ho fun v hv => ?_
    rw [loadD_value he hn hform hk,knownDformEa_sound ht hv]
  case loadX =>
    refine tracks_load ho fun v hv => ?_
    rw [loadX_value he hn hform hk,knownIndexedEa_sound ht hv]
  case storeD =>
    refine tracks_assignReg ho fun v hv => ?_
    rw [storeD_value he hn hform hk,knownDformEa_sound ht hv]
  case storeX =>
    refine tracks_assignReg ho fun v hv => ?_
    rw [storeX_value he hn hform hk,knownIndexedEa_sound ht hv]
  case addi =>
    refine tracks_assignReg ho fun v hv => ?_
    rw [addi_value he hn (immediate_op hk rfl)]
    exact base_known ht hv
  case addis =>
    refine tracks_assignReg ho fun v hv => ?_
    rw [addis_value he hn (immediate_op hk rfl)]
    exact base_known ht hv
  case ori =>
    refine tracks_assignReg ho fun v hv => ?_
    rw [ori_value he hn (immediate_op hk rfl)]
    exact map_known (f := (· ||| i.uimm.zeroExtend 32)) ht hv
  case oris =>
    refine tracks_assignReg ho fun v hv => ?_
    rw [oris_value he hn (immediate_op hk rfl)]
    exact map_known (f := (· ||| (i.uimm.zeroExtend 32 <<< 16))) ht hv
  case xori =>
    refine tracks_assignReg ho fun v hv => ?_
    rw [xori_value he hn (immediate_op hk rfl)]
    exact map_known (f := (· ^^^ i.uimm.zeroExtend 32)) ht hv
  case xoris =>
    refine tracks_assignReg ho fun v hv => ?_
    rw [xoris_value he hn (immediate_op hk rfl)]
    exact map_known (f := (· ^^^ (i.uimm.zeroExtend 32 <<< 16))) ht hv

theorem step_tracks (hh : FallbackKeeps host) (hd : Decoded i) (ht : Tracks regs cpu)
    (hs : NotStale regs i cpu) (ha : Advances host dev i cpu cpu') :
    Tracks (updateKnownRegs regs i) cpu' := by
  obtain ⟨raw,address,hi,-⟩ := hd
  have he : i.embeddedData = false := by rw [hi,ppcDecode_embeddedData]
  have hform : i.AddressForm := by
    rw [hi]
    exact Decoder.ppcDecode_form raw address
  have hself : i = ppcDecode i.raw i.address := by
    rw [hi,ppcDecode_raw,ppcDecode_address]
  have hc := @emitInstruction_changes i cpu dev host hh hself
  cases ha with
  | next h =>
    rw [h] at hc
    exact next_tracks he hform ht (tracksOutside_of ht hs hc) h
  | fallback f hf hfb h =>
    -- the table keeps the registers of these opcodes or forgets the target of `mfspr`
    rw [h] at hc
    have ho := tracksOutside_of ht hs hc
    rw [updateKnownRegs_eq]
    rw [updatedRegs] at ho
    rcases fallsBack_update hfb with hk | hk <;> rw [hk] at ho ⊢
    · exact fun r v hv => ho r v List.not_mem_nil hv
    · exact tracks_clearReg ho

end

section

variable {host : Host} {dev : Devices} {P : KnownRegs → PPCInst → CPUState → Prop}
  {regs : KnownRegs} {cpu cpu' : CPUState}

/-- A run up to some instruction and the run from there. -/
theorem Run.append {pre post : List PPCInst} (h : Run host dev P regs (pre ++ post) cpu cpu') :
    ∃ mid, Run host dev P regs pre cpu mid ∧
      Run host dev P (pre.foldl updateKnownRegs regs) post mid cpu' := by
  induction pre generalizing regs cpu with
  | nil => exact ⟨cpu,.nil regs cpu,h⟩
  | cons i pre ih =>
    cases h with
    | cons hp hs hr =>
      obtain ⟨mid,hpre,hpost⟩ := ih hr
      exact ⟨mid,.cons hp hs hpre,hpost⟩

theorem Run.tracks (hh : FallbackKeeps host) {insts : List PPCInst}
    (h : Run host dev NotStale regs insts cpu cpu') (hd : ∀ i ∈ insts, Decoded i)
    (ht : Tracks regs cpu) : Tracks (insts.foldl updateKnownRegs regs) cpu' := by
  induction h with
  | nil regs cpu => exact ht
  | cons hp hs hr ih =>
    have hmid := step_tracks hh (hd _ List.mem_cons_self) ht hp hs
    exact ih (fun i hi => hd i (List.mem_cons_of_mem _ hi)) hmid

theorem tracks_unknownRegs : Tracks unknownRegs cpu := fun _ _ h => nomatch h

end

/-- Where no step writes a known register that the analysis has no case for, every known
register holds its recorded value after every instruction. -/
theorem known_registers_hold (host : Host) (dev : Devices) (hh : FallbackKeeps host)
    (pre post : List PPCInst) (hd : ∀ i ∈ pre ++ post, Decoded i) (cpu cpu' : CPUState)
    (hr : Run host dev NotStale unknownRegs (pre ++ post) cpu cpu') :
    ∃ mid, Run host dev NotStale unknownRegs pre cpu mid ∧
      Run host dev NotStale (pre.foldl updateKnownRegs unknownRegs) post mid cpu' ∧
      Tracks (pre.foldl updateKnownRegs unknownRegs) mid := by
  obtain ⟨mid,hpre,hpost⟩ := hr.append
  exact ⟨mid,hpre,hpost,hpre.tracks hh (fun i hi => hd i (List.mem_append_left _ hi))
    tracks_unknownRegs⟩

theorem noFallback_keeps : FallbackKeeps {} := fun _ hf => nomatch hf

/-- `li r3, 1` -/
def loadOne : PPCInst := ppcDecode 0x38600001 0

/-- `addi r4, r3, 2` -/
def addTwo : PPCInst := ppcDecode 0x38830002 4

/-- `addic r3, r3, 1` -/
def addCarrying : PPCInst := ppcDecode 0x30630001 4

theorem loadOne_eq : loadOne = { op := .addi, raw := 0x38600001, rD := 3, simm := 1 } := by
  decide

theorem addTwo_eq :
    addTwo = { op := .addi, raw := 0x38830002, address := 4, rD := 4, rA := 3, simm := 2 } := by
  decide

theorem addCarrying_eq :
    addCarrying =
      { op := .addic, raw := 0x30630001, address := 4, rD := 3, rA := 3, simm := 1 } := by
  decide

theorem loadOne_decoded : Decoded loadOne := ⟨_,_,rfl,by rw [loadOne_eq]; exact nofun⟩

theorem addTwo_decoded : Decoded addTwo := ⟨_,_,rfl,by rw [addTwo_eq]; exact nofun⟩

theorem addCarrying_decoded : Decoded addCarrying := ⟨_,_,rfl,by rw [addCarrying_eq]; exact nofun⟩

theorem loadOne_advances : Advances {} noDevices loadOne cpuInit (cpuInit.setGpr 3 1) := by
  rw [loadOne_eq]
  exact .next rfl

theorem addTwo_run : Run {} noDevices NotStale unknownRegs [loadOne,addTwo] cpuInit
    ((cpuInit.setGpr 3 1).setGpr 4 3) := by
  refine .cons ?_ loadOne_advances (.cons ?_ ?_ (.nil _ _))
  · rw [loadOne_eq]
    exact fun r hr => absurd hr List.not_mem_nil
  · rw [addTwo_eq]
    exact fun r hr => absurd hr List.not_mem_nil
  · rw [addTwo_eq]
    exact .next rfl

theorem known_registers_hold_two : Run {} noDevices NotStale unknownRegs ([loadOne,addTwo] ++ [])
      cpuInit ((cpuInit.setGpr 3 1).setGpr 4 3) ∧
    ∃ mid, Run {} noDevices NotStale unknownRegs [loadOne,addTwo] cpuInit mid ∧
      Run {} noDevices NotStale ([loadOne,addTwo].foldl updateKnownRegs unknownRegs) [] mid
        ((cpuInit.setGpr 3 1).setGpr 4 3) ∧
      Tracks ([loadOne,addTwo].foldl updateKnownRegs unknownRegs) mid :=
  have hd : ∀ i ∈ [loadOne,addTwo] ++ [], Decoded i := by
    intro i hi
    rcases List.mem_cons.mp hi with rfl | hi
    · exact loadOne_decoded
    · rcases List.mem_cons.mp hi with rfl | hi
      · exact addTwo_decoded
      · cases hi
  ⟨addTwo_run,known_registers_hold {} noDevices noFallback_keeps [loadOne,addTwo] [] hd _ _
    addTwo_run⟩

/-- The table still says 1 after `addic` has made it 2. -/
theorem addic_keeps_stale : ∃ cpu', Decoded loadOne ∧ Decoded addCarrying ∧
    Run {} noDevices (fun _ _ _ => True) unknownRegs [loadOne,addCarrying] cpuInit cpu' ∧
    ¬Tracks ([loadOne,addCarrying].foldl updateKnownRegs unknownRegs) cpu' := by
  refine ⟨Emitter.emitInteger addCarrying (cpuInit.setGpr 3 1),loadOne_decoded,addCarrying_decoded,
    .cons trivial loadOne_advances (.cons trivial (.next ?_) (.nil _ _)),fun h => ?_⟩
  · rw [addCarrying_eq]
    rfl
  · have hknown : [loadOne,addCarrying].foldl updateKnownRegs unknownRegs 3 = some 1 := by
      decide
    have hvalue : (Emitter.emitInteger addCarrying (cpuInit.setGpr 3 1)).gpr 3 = 2 := by
      decide
    exact absurd (hvalue.symm.trans (h 3 1 hknown)) (by decide)

end DolRecomp.Smc
