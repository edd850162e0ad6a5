import DolRecomp.LlvmMemory
import DolRecomp.Emitter

/-!
# Reservations

A store ends the reservation of the granule that its first byte is in. A run of
stores between `lwarx` and `stwcx.` therefore keeps the reservation when the only
stores to the granule begin in front of it; in LLVM code also when they use the
other alias.
-/

namespace DolRecomp

open DolRecomp.Runtime

namespace Reservation

inductive StorePath
  | runtime | llvm
  deriving DecidableEq, Repr

/-- `clearReservation` of the LLVM backend; it does not fold the aliases. -/
def clearReservation (cpu : CPUState) (address : BitVec 32) : CPUState :=
  { cpu with
    reserveValid := cpu.reserveValid && (cpu.reserveAddr ^^^ address) &&& ~~~31#32 != 0 }

/-- The generic sequence of `emitGuestStore`. -/
def llvmStore (cpu : CPUState) (address : BitVec 32) (value : BitVec 64) (width : ℕ) : CPUState :=
  let cpu := clearReservation cpu address
  match LlvmMemory.guestPath cpu.ramSize cpu.mem2Size (cpu.mem2Size != 0) address width with
  | .mem1 offset => { cpu with ram := LlvmMemory.endianStore cpu.ram offset.toNat width value }
  | .mem2 offset => { cpu with mem2 := LlvmMemory.endianStore cpu.mem2 offset.toNat width value }
  | .slow => { cpu with history := ⟨true,address,width,value⟩ :: cpu.history }

def store : StorePath → CPUState → BitVec 32 → BitVec 64 → ℕ → CPUState
  | .runtime => memWrite
  | .llvm => llvmStore

/-- A step without a store or a `lwarx`. -/
structure Quiet (cpu cpu' : CPUState) : Prop where
  addr : cpu'.reserveAddr = cpu.reserveAddr
  valid : cpu'.reserveValid = cpu.reserveValid
  sizes : cpu'.ramSize = cpu.ramSize ∧ cpu'.mem2Size = cpu.mem2Size
  bytes : bytesOf cpu' = bytesOf cpu

structure MadeStore where
  path : StorePath
  addr : BitVec 32
  width : Width

inductive Trace (start : CPUState) : List MadeStore → CPUState → Prop
  | start : Trace start [] start
  | store {stores cpu} (h : Trace start stores cpu) (path : StorePath) (addr : BitVec 32)
      (value : BitVec 64) (width : Width) :
      Trace start (stores ++ [⟨path,addr,width⟩]) (store path cpu addr value width.bytes)
  | quiet {stores cpu cpu'} (h : Trace start stores cpu) (hq : Quiet cpu cpu') :
      Trace start stores cpu'
  | conditional {stores cpu} (h : Trace start stores cpu) (i : PPCInst) :
      Trace start stores (Emitter.emitStwcx i cpu)
  | helper {stores cpu} (h : Trace start stores cpu) (s : BitVec 5) (ea cia : BitVec 32) :
      Trace start stores (ppcStwcxOp cpu s ea cia)

/-- The store covers a byte of the 32 that the reserved address is in. -/
def WritesGranule (cpu : CPUState) (a : BitVec 32) (st : MadeStore) : Prop :=
  ∃ region r offset n, Names cpu a region r ∧ Fits cpu st.addr st.width.bytes region offset ∧
    offset ≤ n ∧ n < offset + st.width.bytes ∧ n/32 = r/32

/-- The first byte of the store is in the granule, for LLVM code through the same alias. -/
def StartsInside (cpu : CPUState) (a : BitVec 32) (st : MadeStore) : Prop :=
  ∃ region r offset, Names cpu a region r ∧ Names cpu st.addr region offset ∧ offset/32 = r/32 ∧
    (st.path = .llvm → st.addr.toNat/2^30 = a.toNat/2^30)

theorem line_eq {x y : BitVec 32} (h : x.toNat/32 = y.toNat/32) :
    (x ^^^ y) &&& ~~~31#32 = 0 := by
  have hshift : x >>> 5 = y >>> 5 := by
    apply BitVec.eq_of_toNat_eq
    rw [BitVec.toNat_ushiftRight,BitVec.toNat_ushiftRight,Nat.shiftRight_eq_div_pow,
      Nat.shiftRight_eq_div_pow]
    exact h
  apply BitVec.eq_of_getLsbD_eq
  intro n hn
  rw [BitVec.getLsbD_and,BitVec.getLsbD_xor]
  by_cases hlow : n < 5
  · have hm : (~~~31#32).getLsbD n = false := by
      revert n
      decide
    rw [hm,Bool.and_false]
    exact (BitVec.getLsbD_zero).symm
  · have hbit : x.getLsbD n = y.getLsbD n := by
      have := congrArg (fun z => z.getLsbD (n - 5)) hshift
      simpa only [BitVec.getLsbD_ushiftRight,show 5 + (n - 5) = n by omega] using this
    rw [hbit,Bool.xor_self,Bool.false_and]
    exact (BitVec.getLsbD_zero).symm

theorem names_line {cpu : CPUState} (h : Sized cpu) {a addr : BitVec 32} {region : Region}
    {r offset : ℕ} (ha : Names cpu a region r) (hn : Names cpu addr region offset)
    (hl : offset/32 = r/32) :
    (LlvmMemory.normalizeAddress a).toNat/32 = (LlvmMemory.normalizeAddress addr).toNat/32 ∧
      (addr.toNat/2^30 = a.toNat/2^30 → a.toNat/32 = addr.toNat/32) := by
  have hr := h.ram_le
  have hm := h.mem2_le
  have h1 := LlvmMemory.normalizeAddress_toNat a
  have h2 := LlvmMemory.normalizeAddress_toNat addr
  rw [names_cases] at ha hn
  obtain ⟨hlt,ha⟩ := ha
  obtain ⟨hlt',hn⟩ := hn
  rcases ha with ⟨rfl,ha⟩ | ⟨rfl,ha⟩
  · rcases hn with ⟨-,hn⟩ | ⟨hn,-⟩
    · simp only [Runtime.sizeOf] at hlt hlt'
      constructor <;> split at h1 <;> split at h2 <;> omega
    · cases hn
  · rcases hn with ⟨hn,-⟩ | ⟨-,hn⟩
    · cases hn
    · simp only [Runtime.sizeOf] at hlt hlt'
      constructor <;> split at h1 <;> split at h2 <;> omega

theorem setBytes_reserve (cpu : CPUState) (region : Region) (bytes : ℕ → BitVec 8) :
    (setBytes cpu region bytes).reserveAddr = cpu.reserveAddr ∧
      (setBytes cpu region bytes).reserveValid = cpu.reserveValid := by
  cases region <;> exact ⟨rfl,rfl⟩

theorem clearMatchingReservation_reserve (cpu : CPUState) (addr : BitVec 32) :
    (clearMatchingReservation cpu addr).reserveAddr = cpu.reserveAddr ∧
      (cpu.reserveValid = false → (clearMatchingReservation cpu addr).reserveValid = false) ∧
      ((LlvmMemory.normalizeAddress cpu.reserveAddr).toNat/32 =
        (LlvmMemory.normalizeAddress addr).toNat/32 →
        (clearMatchingReservation cpu addr).reserveValid = false) := by
  simp only [clearMatchingReservation]
  split
  next => exact ⟨rfl,fun _ => rfl,fun _ => rfl⟩
  next hc =>
    refine ⟨rfl,id,fun hl => ?_⟩
    rw [← Bool.not_eq_true]
    exact fun hv => hc ⟨hv,line_eq hl⟩

/-- What a store of the runtime does to the reservation. -/
theorem memWrite_reserve (cpu : CPUState) (addr : BitVec 32) (value : BitVec 64) (width : ℕ) :
    (memWrite cpu addr value width).reserveAddr = cpu.reserveAddr ∧
      (cpu.reserveValid = false → (memWrite cpu addr value width).reserveValid = false) ∧
      (Sized cpu → (∃ region offset, Fits cpu addr width region offset) →
        (LlvmMemory.normalizeAddress cpu.reserveAddr).toNat/32 =
          (LlvmMemory.normalizeAddress addr).toNat/32 →
        (memWrite cpu addr value width).reserveValid = false) := by
  have hclear := clearMatchingReservation_reserve
    { cpu with history := ⟨true,addr,width,value⟩ :: cpu.history } addr
  refine ⟨?_,?_,?_⟩
  · simp only [memWrite]
    split
    · split
      · rfl
      · rw [(setBytes_reserve _ _ _).1,hclear.1]
    · rfl
  · intro hv
    simp only [memWrite]
    split
    · split
      · exact hv
      · rw [(setBytes_reserve _ _ _).2,hclear.2.1 hv]
    · exact hv
  · rintro hs ⟨region,offset,hf⟩ hl
    obtain ⟨o,avail,hr,-,ha⟩ := resolveAddr_fits hs hf
    simp only [memWrite]
    rw [show resolveAddr { cpu with history := ⟨true,addr,width,value⟩ :: cpu.history } addr =
      some (region,o,avail) from hr]
    simp only [if_neg ha]
    rw [(setBytes_reserve _ _ _).2]
    exact hclear.2.2 hl

theorem llvmStore_reserve (cpu : CPUState) (addr : BitVec 32) (value : BitVec 64) (width : ℕ) :
    (llvmStore cpu addr value width).reserveAddr = cpu.reserveAddr ∧
      (llvmStore cpu addr value width).reserveValid =
        (clearReservation cpu addr).reserveValid ∧
      (llvmStore cpu addr value width).ramSize = cpu.ramSize ∧
      (llvmStore cpu addr value width).mem2Size = cpu.mem2Size := by
  simp only [llvmStore]
  split <;> exact ⟨rfl,rfl,rfl,rfl⟩

/-- The reservation that is kept behind `lwarx a`: its address and the sizes of the regions. -/
structure Held (start : CPUState) (a : BitVec 32) (cpu : CPUState) : Prop where
  addr : cpu.reserveAddr = a
  sizes : cpu.ramSize = start.ramSize ∧ cpu.mem2Size = start.mem2Size

variable {start : CPUState} {a : BitVec 32}

theorem Held.store {cpu : CPUState} (h : Held start a cpu) (path : StorePath) (addr : BitVec 32)
    (value : BitVec 64) (width : ℕ) : Held start a (store path cpu addr value width) := by
  cases path with
  | runtime =>
    have hs := memWrite_sizes cpu addr value width
    exact ⟨(memWrite_reserve cpu addr value width).1.trans h.addr,
      hs.1.trans h.sizes.1,hs.2.trans h.sizes.2⟩
  | llvm =>
    obtain ⟨ha,-,hr,hm⟩ := llvmStore_reserve cpu addr value width
    exact ⟨ha.trans h.addr,hr.trans h.sizes.1,hm.trans h.sizes.2⟩

theorem store_invalid {cpu : CPUState} (hv : cpu.reserveValid = false) (path : StorePath)
    (addr : BitVec 32) (value : BitVec 64) (width : ℕ) :
    (store path cpu addr value width).reserveValid = false := by
  cases path with
  | runtime => exact (memWrite_reserve cpu addr value width).2.1 hv
  | llvm =>
    rw [store,(llvmStore_reserve cpu addr value width).2.1,clearReservation,hv,Bool.false_and]

/-- A store to the granule that starts inside it ends the reservation. -/
theorem store_clears (hs : Sized start) {cpu : CPUState} (h : Held start a cpu)
    {path : StorePath} {addr : BitVec 32} {width : Width}
    (hw : WritesGranule start a ⟨path,addr,width⟩) (hi : StartsInside start a ⟨path,addr,width⟩)
    (value : BitVec 64) :
    (store path cpu addr value width.bytes).reserveValid = false := by
  obtain ⟨region,r,offset,ha,hn,hl,halias⟩ := hi
  obtain ⟨hnorm,hplain⟩ := names_line hs ha hn hl
  cases path with
  | runtime =>
    obtain ⟨region',r',offset',n,-,hf,-⟩ := hw
    refine (memWrite_reserve cpu addr value width.bytes).2.2 (hs.congr h.sizes)
      ⟨region',offset',(fits_congr h.sizes).mpr hf⟩ ?_
    rw [h.addr]
    exact hnorm
  | llvm =>
    rw [store,(llvmStore_reserve cpu addr value width.bytes).2.1,clearReservation,h.addr,
      line_eq (hplain (halias rfl)),bne_self_eq_false,Bool.and_false]

theorem emitStwcx_held {cpu : CPUState} (h : Held start a cpu) (i : PPCInst) :
    Held start a (Emitter.emitStwcx i cpu) ∧
      (cpu.reserveValid = false → (Emitter.emitStwcx i cpu).reserveValid = false) := by
  simp only [Emitter.emitStwcx]
  split
  next =>
    have hs := memWrite_sizes cpu (Emitter.xformEa i false cpu)
      ((cpu.gpr i.rS).zeroExtend 64) 4
    exact ⟨⟨(memWrite_reserve cpu _ _ _).1.trans h.addr,hs.1.trans h.sizes.1,
      hs.2.trans h.sizes.2⟩,fun _ => rfl⟩
  next => exact ⟨⟨h.addr,h.sizes⟩,id⟩

theorem takeException_held {cpu : CPUState} (h : Held start a cpu)
    (exception vector srr0 srr1Info : BitVec 32) :
    Held start a (ppcTakeException cpu exception vector srr0 srr1Info) ∧
      (cpu.reserveValid = false →
        (ppcTakeException cpu exception vector srr0 srr1Info).reserveValid = false) :=
  ⟨⟨h.addr,h.sizes⟩,id⟩

theorem ppcStwcxOp_held {cpu : CPUState} (h : Held start a cpu) (s : BitVec 5) (ea cia : BitVec 32) :
    Held start a (ppcStwcxOp cpu s ea cia) ∧
      (cpu.reserveValid = false → (ppcStwcxOp cpu s ea cia).reserveValid = false) := by
  simp only [ppcStwcxOp]
  split
  next =>
    have hdar : Held start a { cpu with dar := ea } := ⟨h.addr,h.sizes⟩
    exact takeException_held hdar _ _ _ _
  next =>
    split
    next =>
      have hs := memWrite_sizes cpu ea ((cpu.gpr s).zeroExtend 64) 4
      exact ⟨⟨(memWrite_reserve cpu _ _ _).1.trans h.addr,hs.1.trans h.sizes.1,
        hs.2.trans h.sizes.2⟩,fun _ => rfl⟩
    next => exact ⟨⟨h.addr,h.sizes⟩,id⟩

/-- Behind a store to the granule the reservation is gone, whatever follows. -/
theorem Trace.invalid (hs : Sized start) (ha : start.reserveAddr = a)
    {stores : List MadeStore} {cpu : CPUState} (h : Trace start stores cpu)
    (hcond : ∀ st ∈ stores, WritesGranule start a st → StartsInside start a st) :
    Held start a cpu ∧ ((∃ st ∈ stores, WritesGranule start a st) → cpu.reserveValid = false) := by
  induction h with
  | start => exact ⟨⟨ha,rfl,rfl⟩,fun ⟨st,hm,_⟩ => (List.not_mem_nil hm).elim⟩
  | store h path addr value width ih =>
    obtain ⟨hheld,hgone⟩ := ih fun st hm => hcond st (List.mem_append_left _ hm)
    refine ⟨hheld.store path addr value width.bytes,?_⟩
    rintro ⟨st,hm,hw⟩
    rcases List.mem_append.mp hm with hm | hm
    · exact store_invalid (hgone ⟨st,hm,hw⟩) path addr value width.bytes
    · have hst := List.mem_singleton.mp hm
      subst hst
      exact store_clears hs hheld hw (hcond _ (List.mem_append_right _ hm) hw) value
  | quiet h hq ih =>
    obtain ⟨hheld,hgone⟩ := ih hcond
    exact ⟨⟨hq.addr.trans hheld.addr,hq.sizes.1.trans hheld.sizes.1,
      hq.sizes.2.trans hheld.sizes.2⟩,fun hw => hq.valid.trans (hgone hw)⟩
  | conditional h i ih =>
    obtain ⟨hheld,hgone⟩ := ih hcond
    have hstep := emitStwcx_held hheld i
    exact ⟨hstep.1,fun hw => hstep.2 (hgone hw)⟩
  | helper h s ea cia ih =>
    obtain ⟨hheld,hgone⟩ := ih hcond
    have hstep := ppcStwcxOp_held hheld s ea cia
    exact ⟨hstep.1,fun hw => hstep.2 (hgone hw)⟩

theorem quiet_setGpr (cpu : CPUState) (r : BitVec 5) (value : BitVec 32) :
    Quiet cpu (cpu.setGpr r value) :=
  ⟨rfl,rfl,⟨rfl,rfl⟩,by funext region; cases region <;> rfl⟩

/-- A step that is one store of the runtime. -/
def Stores (f : CPUState → CPUState) : Prop :=
  ∀ cpu, ∃ addr value, ∃ width : Width, f cpu = memWrite cpu addr value width.bytes

theorem Trace.store_of {f : CPUState → CPUState} (hf : Stores f)
    {stores : List MadeStore} {cpu : CPUState} (h : Trace start stores cpu) :
    ∃ stores', Trace start (stores ++ stores') (f cpu) := by
  obtain ⟨addr,value,width,he⟩ := hf cpu
  rw [he]
  exact ⟨[⟨.runtime,addr,width⟩],h.store .runtime addr value width⟩

theorem Trace.foldl {f : CPUState → ℕ → CPUState} (hf : ∀ n, Stores fun cpu => f cpu n)
    (ns : List ℕ) {stores : List MadeStore} {cpu : CPUState}
    (h : Trace start stores cpu) :
    ∃ stores', Trace start (stores ++ stores') (ns.foldl f cpu) := by
  induction ns generalizing stores cpu with
  | nil => exact ⟨[],(List.append_nil stores).symm ▸ h⟩
  | cons n ns ih =>
    obtain ⟨s1,h1⟩ := h.store_of (hf n)
    obtain ⟨s2,h2⟩ := ih h1
    exact ⟨s1 ++ s2,List.append_assoc stores s1 s2 ▸ h2⟩

theorem Trace.emitStoreAt {i : PPCInst} {ea : BitVec 32} {update : Bool}
    {stores : List MadeStore} {cpu : CPUState} (h : Trace start stores cpu)
    {write : CPUState → BitVec 32 → BitVec 32 → CPUState}
    (hf : ∀ ea value, Stores fun cpu => write cpu ea value) :
    ∃ stores', Trace start (stores ++ stores')
      (Emitter.emitStoreAt i ea write update cpu) := by
  obtain ⟨stores',h'⟩ := h.store_of (hf ea (cpu.gpr i.rS))
  unfold Emitter.emitStoreAt
  cases update with
  | false => exact ⟨stores',h'⟩
  | true => exact ⟨stores',h'.quiet (quiet_setGpr _ _ _)⟩

theorem stores_word (ea : BitVec 32) (value : CPUState → BitVec 32) :
    Stores fun cpu => memWrite32 cpu ea (value cpu) := fun _ => ⟨ea,_,.w32,rfl⟩

theorem stores_half (ea : BitVec 32) (value : CPUState → BitVec 16) :
    Stores fun cpu => memWrite16 cpu ea (value cpu) := fun _ => ⟨ea,_,.w16,rfl⟩

theorem stores_byte (ea : BitVec 32) (value : CPUState → BitVec 8) :
    Stores fun cpu => memWrite8 cpu ea (value cpu) := fun _ => ⟨ea,_,.w8,rfl⟩

/-- The printed store instructions are runs of stores. -/
theorem Trace.emitMemory {cfg : EmitConfig} {i : PPCInst} (ho : i.op ∈ [PPCOpcode.stw,.stwu,.stb,
      .stbu,.sth,.sthu,.stwx,.stwux,.stbx,.stbux,.sthx,.sthux,.stwbrx,.sthbrx,.stswi,.stswx,.dcbz,
      .stmw])
    {stores : List MadeStore} {cpu cpu' : CPUState} (h : Trace start stores cpu)
    (he : Emitter.emitMemory cfg i cpu = .next cpu') :
    ∃ stores', Trace start (stores ++ stores') cpu' := by
  have hword : ∀ update ea, ∃ stores', Trace start (stores ++ stores')
      (Emitter.emitStoreAt i ea memWrite32 update cpu) := fun update ea =>
    h.emitStoreAt fun ea value => stores_word ea fun _ => value
  have hhalf : ∀ update ea, ∃ stores', Trace start (stores ++ stores')
      (Emitter.emitStoreAt i ea Emitter.memWrite16 update cpu) := fun update ea =>
    h.emitStoreAt fun ea value => stores_half ea fun _ => value.truncate 16
  have hbyte : ∀ update ea, ∃ stores', Trace start (stores ++ stores')
      (Emitter.emitStoreAt i ea Emitter.memWrite8 update cpu) := fun update ea =>
    h.emitStoreAt fun ea value => stores_byte ea fun _ => value.truncate 8
  simp only [List.mem_cons,List.not_mem_nil,or_false] at ho
  rcases ho with ho | ho | ho | ho | ho | ho | ho | ho | ho | ho | ho | ho | ho | ho | ho | ho | ho |
    ho <;> simp only [Emitter.emitMemory,ho,CFlow.next.injEq] at he <;> subst he
  · exact hword false _
  · exact hword true _
  · exact hbyte false _
  · exact hbyte true _
  · exact hhalf false _
  · exact hhalf true _
  · exact hword false _
  · exact hword true _
  · exact hbyte false _
  · exact hbyte true _
  · exact hhalf false _
  · exact hhalf true _
  · exact h.emitStoreAt fun ea value => stores_word ea fun _ => bswap32 value
  · exact h.emitStoreAt fun ea value => stores_half ea fun _ => bswap16 (value.truncate 16)
  · exact h.foldl (fun n => stores_byte _ fun cpu => _) _
  · exact h.foldl (fun n => stores_byte _ fun cpu => _) _
  · exact h.foldl (fun n => stores_word _ fun cpu => _) _
  · exact h.foldl (fun n => stores_word _ fun cpu => _) _

def reserved (a : BitVec 32) : CPUState := { cpuInit with reserveAddr := a, reserveValid := true }

end Reservation

end DolRecomp
