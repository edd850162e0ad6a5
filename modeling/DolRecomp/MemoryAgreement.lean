import DolRecomp.Agreement
import DolRecomp.LlvmMemory

/-!
# The two backends agree on guest memory

A row of the load and store table lowers to the statements of its opcode; the
loops of multiple transfers are folds on both sides.
-/

namespace DolRecomp

open Builder Emitter

section

variable (host : Host) (st : IRState) (ea : BitVec 32) (width : ℕ)

def IRState.withCpu (cpu : CPUState) : IRState := { st with cpu }

theorem memRead_commit : Runtime.memRead host st.commit ea width =
    ((Runtime.memRead host st.cpu ea width).1,
      (st.withCpu (Runtime.memRead host st.cpu ea width).2).commit) := by
  cases st
  rfl

/-- The memory, the accesses and the reservation of a state with the registers of another. -/
def CPUState.onto (cpu base : CPUState) : CPUState :=
  { base with
    ram := cpu.ram
    ramSize := cpu.ramSize
    mem2 := cpu.mem2
    mem2Size := cpu.mem2Size
    history := cpu.history
    reserveAddr := cpu.reserveAddr
    reserveValid := cpu.reserveValid }

theorem clearMatchingReservation_onto (cpu base : CPUState) :
    Runtime.clearMatchingReservation (cpu.onto base) ea =
      (Runtime.clearMatchingReservation cpu ea).onto base := by
  unfold Runtime.clearMatchingReservation
  dsimp only
  rw [apply_ite fun cpu : CPUState => cpu.onto base]
  rfl

theorem setBytes_onto (cpu base : CPUState) (region : Runtime.Region) (bytes : ℕ → BitVec 8) :
    Runtime.setBytes (cpu.onto base) region bytes =
      (Runtime.setBytes cpu region bytes).onto base := by cases region <;> rfl

theorem bytesOf_onto (cpu base : CPUState) (region : Runtime.Region) :
    Runtime.bytesOf (cpu.onto base) region = Runtime.bytesOf cpu region := by
  cases region <;> rfl

/-- A write sees and changes nothing but memory, its accesses and the reservation. -/
theorem memWrite_onto (cpu base : CPUState) (value : BitVec 64) :
    Runtime.memWrite (cpu.onto base) ea value width =
      (Runtime.memWrite cpu ea value width).onto base := by
  let log (cpu : CPUState) : CPUState :=
    { cpu with history := ⟨true,ea,width,value⟩ :: cpu.history }
  have hlog : log (cpu.onto base) = (log cpu).onto base := rfl
  have hr : Runtime.resolveAddr (log (cpu.onto base)) ea = Runtime.resolveAddr (log cpu) ea := rfl
  have hnone {cpu : CPUState} (h : Runtime.resolveAddr (log cpu) ea = none) :
      Runtime.memWrite cpu ea value width = log cpu := by
    simp only [Runtime.memWrite]
    rw [h]
  have hsome {cpu : CPUState} {region : Runtime.Region} {offset avail : BitVec 32}
      (h : Runtime.resolveAddr (log cpu) ea = some (region,offset,avail)) :
      Runtime.memWrite cpu ea value width = if avail.toNat < width then log cpu
        else Runtime.setBytes (Runtime.clearMatchingReservation (log cpu) ea) region
          (Runtime.writeBe (Runtime.bytesOf (Runtime.clearMatchingReservation (log cpu) ea) region)
            offset.toNat width value) := by
    simp only [Runtime.memWrite]
    rw [h]
  rcases h : Runtime.resolveAddr (log cpu) ea with _ | ⟨region,offset,avail⟩
  · rw [hnone h,hnone (hr.trans h),hlog]
  · rw [hsome h,hsome (hr.trans h),hlog]
    by_cases h : avail.toNat < width
    · rw [if_pos h,if_pos h]
    · rw [if_neg h,if_neg h,clearMatchingReservation_onto,bytesOf_onto,setBytes_onto]

theorem memWrite_self (cpu : CPUState) (value : BitVec 64) :
    Runtime.memWrite cpu ea value width = (Runtime.memWrite cpu ea value width).onto cpu :=
  memWrite_onto ea width cpu cpu value

theorem memWrite_withPc (cpu : CPUState) (pc : BitVec 32) (value : BitVec 64) :
    Runtime.memWrite { cpu with pc } ea value width =
      { Runtime.memWrite cpu ea value width with pc } := by
  rw [memWrite_self ea width cpu value]
  exact memWrite_onto ea width cpu { cpu with pc } value

/-- The packed words that a commit rebuilds are not part of memory. -/
theorem memWrite_commit (value : BitVec 64) : Runtime.memWrite st.commit ea value width =
    (st.withCpu (Runtime.memWrite st.cpu ea value width)).commit := by
  refine (memWrite_onto ea width st.cpu st.commit value).trans ?_
  rw [memWrite_self ea width st.cpu value]
  rfl

end

namespace Builder

variable (m : Machine) (i : PPCInst) (s : Point)

/-- The word that a guest load yields. -/
def loadedWord (cpu : CPUState) (ea : BitVec 32) (width : ℕ) (sign : Bool) : BitVec 32 :=
  let bits := (Runtime.memRead m.host cpu ea width).1
  (if sign then (bits.truncate (8*width)).signExtend 64 else bits).setWidth 32

theorem run_guestLoad (address : DolIRValue) {ea : BitVec 32} (width : ℕ) (sign : Bool)
    (h : s.env address = some (.i32 ea)) : run m (guestLoad address width sign) i s =
      .next (s.next, (s.push (.i32 (loadedWord m s.st.cpu ea width sign))).withSt
        (s.st.withCpu (Runtime.memRead m.host s.st.cpu ea width).2)) := by
  rw [guestLoad,guestLoadTyped,run_value _ _ _ _ _ _ _ (by decide),operands_cons,operands_nil,h]
  rfl

theorem run_guestStore (address value : DolIRValue) {ea v : BitVec 32} (width : ℕ)
    (h : s.env address = some (.i32 ea)) (hv : s.env value = some (.i32 v)) :
    run m (guestStore address value width) i s = .next ((), s.withSt (s.st.withCpu
      (Runtime.memWrite s.st.cpu ea (Runtime.truncateWidth width (v.zeroExtend 64)) width))) := by
  rw [guestStore,run_bind',run_void,operands_cons,operands_cons,operands_nil,h,hv]
  rfl

/-- The address of a row, computed before its access. -/
def formEa (indexed update : Bool) (cpu : CPUState) : BitVec 32 :=
  if indexed then xformEa i update cpu else dformEa i update cpu

theorem run_effectiveAddress (indexed update : Bool) :
    ∃ id s', run m (effectiveAddress indexed update) i s = .next (id, s') ∧ id < s'.next ∧
      s'.env id = some (.i32 (formEa i indexed update s.st.commit)) ∧ s'.st = s.st := by
  have hv : value m (effectiveAddress indexed update) i s =
      .next (some (.i32 (formEa i indexed update s.st.commit)), s.st) := by
    by_cases hA : i.rA = 0#5 <;> cases indexed <;> cases update <;>
      simp [value,effectiveAddress,formEa,xformEa,dformEa,hA]
  obtain ⟨id,s',hrun,hlt,henv,hst⟩ := run_of_value m i s hv
  exact ⟨id,s',hrun,hlt,henv,hst⟩

def reversedIf (reverse : Bool) (v : BitVec 32) : BitVec 32 := if reverse then bswap32 v else v

def formRead (form : MemoryForm) (cpu : CPUState) (ea : BitVec 32) : BitVec 32 × CPUState :=
  (reversedIf form.reverse (loadedWord m cpu ea form.width form.sign),
    (Runtime.memRead m.host cpu ea form.width).2)

def formWrite (form : MemoryForm) (cpu : CPUState) (ea value : BitVec 32) : CPUState :=
  Runtime.memWrite cpu ea
    (Runtime.truncateWidth form.width ((reversedIf form.reverse value).zeroExtend 64)) form.width

def formResult (form : MemoryForm) (cpu : CPUState) : CPUState :=
  if form.load then emitLoadAt i (formEa i form.indexed form.update cpu) (formRead m form)
    form.update cpu
  else emitStoreAt i (formEa i form.indexed form.update cpu) (formWrite form) form.update cpu

theorem run_reverseIf (reverse : Bool) (id : DolIRValue) {v : BitVec 32}
    (h : s.env id = some (.i32 v)) (hlt : id < s.next) :
    ∃ id' s', run m (reverseIf reverse id) i s = .next (id', s') ∧ id' < s'.next ∧
      s'.env id' = some (.i32 (reversedIf reverse v)) ∧ s'.st = s.st ∧
      ∀ k < s.next, s'.env k = s.env k := by
  cases reverse
  · exact ⟨id,s,rfl,hlt,h,rfl,fun _ _ => rfl⟩
  · refine ⟨s.next,s.push (.i32 (bswap32 v)),?_,Nat.lt_succ_self _,?_,rfl,fun k hk => ?_⟩
    · rw [reverseIf,if_pos rfl,run_unary m i s rfl (by decide),h]
      rfl
    · rw [Point.push_env,if_pos rfl]
      rfl
    · rw [Point.push_env,if_neg (Nat.ne_of_lt hk)]

theorem run_setGpr (reg : BitVec 5) (id : DolIRValue) {v : BitVec 32}
    (h : s.env id = some (.i32 v)) :
    run m (setGpr reg id) i s = .next ((), s.withSt (s.st.setGpr reg v)) := by
  rw [setGpr,run_writeSlot,h]
  rfl

theorem withCpu_commit_setGpr (st : IRState) (cpu : CPUState) (reg : BitVec 5) (v : BitVec 32) :
    ((st.withCpu cpu).setGpr reg v).commit = (st.withCpu cpu).commit.setGpr reg v :=
  (commit_setGpr _ _ _).symm

theorem loadedWord_commit (st : IRState) (ea : BitVec 32) (width : ℕ) (sign : Bool) :
    loadedWord m st.commit ea width sign = loadedWord m st.cpu ea width sign := by
  rw [loadedWord,memRead_commit]
  rfl

def updated (update : Bool) (ea : BitVec 32) (st : IRState) : IRState :=
  if update then st.setGpr i.rA ea else st

theorem updated_commit (update : Bool) (ea : BitVec 32) (st : IRState) :
    (updated i update ea st).commit =
      if update then st.commit.setGpr i.rA ea else st.commit := by
  cases update
  · rfl
  · exact (commit_setGpr st i.rA ea).symm

theorem run_update (update : Bool) (id : DolIRValue) {ea : BitVec 32}
    (h : s.env id = some (.i32 ea)) :
    run m (if update then setGpr i.rA id >>= fun _ => pure true else pure true) i s =
      .next (true, s.withSt (updated i update ea s.st)) := by
  cases update
  · rfl
  · rw [if_pos rfl,run_bind,run_setGpr m i s i.rA id h]
    rfl

theorem run_lowerMemoryForm (form : MemoryForm) :
    ∃ s', run m (lowerMemoryForm i form) i s = .next (true, s') ∧
      s'.st.commit = formResult m i form s.st.commit := by
  obtain ⟨id,s1,hrun,hlt,henv,hst⟩ := run_effectiveAddress m i s form.indexed form.update
  generalize hea : formEa i form.indexed form.update s.st.commit = ea at henv
  rw [formResult,hea,lowerMemoryForm,run_bind,hrun,Exec.next_bind]
  dsimp only
  cases hl : form.load
  · obtain ⟨v,s2,hrev,hvlt,hv,hst2,hkeep⟩ := run_reverseIf m i (s1.push (.i32 (s1.st.cpu.gpr i.rS)))
      form.reverse s1.next (by rw [Point.push_env,if_pos rfl]) (Nat.lt_succ_self _)
    have hid2 : s2.env id = some (.i32 ea) := by
      rw [hkeep id (Nat.lt_succ_of_lt hlt),Point.push_env,if_neg (Nat.ne_of_lt hlt),henv]
    rw [Point.push_st,hst] at hst2
    rw [hst] at hv
    have hw := run_guestStore m i s2 id v form.width hid2 hv
    rw [hst2] at hw
    let stored := s.st.withCpu (Runtime.memWrite s.st.cpu ea (Runtime.truncateWidth form.width
      ((reversedIf form.reverse (s.st.cpu.gpr i.rS)).zeroExtend 64)) form.width)
    have hu := run_update m i (s2.withSt stored) form.update id hid2
    refine ⟨_,Eq.trans ?_ hu,?_⟩
    · rw [if_neg Bool.false_ne_true,run_bind,gpr,run_readSlot,Exec.next_bind,run_bind,
        IRState.readSlot_gpr,hrev,Exec.next_bind,run_bind,hw,Exec.next_bind]
    · rw [Point.withSt_st,Point.withSt_st,updated_commit,← memWrite_commit,
        if_neg Bool.false_ne_true,emitStoreAt,commit_gpr]
      rfl
  · let read := (Runtime.memRead m.host s.st.cpu ea form.width).2
    let word := loadedWord m s.st.cpu ea form.width form.sign
    have hload := run_guestLoad m i s1 id form.width form.sign henv
    rw [hst] at hload
    obtain ⟨v,s2,hrev,hvlt,hv,hst2,hkeep⟩ := run_reverseIf m i
      ((s1.push (.i32 word)).withSt (s.st.withCpu read)) form.reverse s1.next
      (by rw [Point.withSt_env,Point.push_env,if_pos rfl]) (Nat.lt_succ_self _)
    have hid2 : s2.env id = some (.i32 ea) := by
      rw [hkeep id (Nat.lt_succ_of_lt hlt),Point.withSt_env,Point.push_env,
        if_neg (Nat.ne_of_lt hlt),henv]
    have hset := run_setGpr m i s2 i.rD v hv
    have hu := run_update m i (s2.withSt (s2.st.setGpr i.rD (reversedIf form.reverse word)))
      form.update id hid2
    refine ⟨_,Eq.trans ?_ hu,?_⟩
    · rw [if_pos rfl,run_bind,hload,Exec.next_bind,run_bind,hrev,Exec.next_bind,run_bind,hset,
        Exec.next_bind]
    · rw [Point.withSt_st,Point.withSt_st,updated_commit,hst2,Point.withSt_st,
        withCpu_commit_setGpr,if_pos rfl,emitLoadAt,formRead,loadedWord_commit,memRead_commit]

theorem getLsbD_memValue (host : Host) (cpu : CPUState) (ea : BitVec 32) {width : ℕ}
    (hw : width ≤ 8) {n : ℕ} (hn : 8*width ≤ n) :
    (Runtime.memValue host cpu ea width).getLsbD n = false := by
  have htruncated (value : BitVec 64) :
      (Runtime.truncateWidth width value).getLsbD n = false := by
    rw [LlvmMemory.getLsbD_truncateWidth _ hw]
    simp [Nat.not_lt.mpr hn]
  have hread (region : Runtime.Region) (offset : ℕ) :
      (Runtime.readBe (Runtime.bytesOf cpu region) offset width).getLsbD n = false := by
    rw [Runtime.getLsbD_readBe _ _ _ hw]
    simp [Nat.not_lt.mpr hn]
  unfold Runtime.memValue
  dsimp only
  split
  · split
    · cases host.externalRead with
      | none => exact BitVec.getLsbD_zero
      | some read => exact htruncated _
    · exact hread _ _
  · cases host.externalRead with
    | none => exact BitVec.getLsbD_zero
    | some read => exact htruncated _

/-- A narrow read is the zero extension of its own bits. -/
theorem setWidth_memValue (host : Host) (cpu : CPUState) (ea : BitVec 32) (width : ℕ)
    (hw : width ≤ 4) : ((Runtime.memValue host cpu ea width).truncate (8*width)).zeroExtend 32 =
      (Runtime.memValue host cpu ea width).setWidth 32 := by
  refine BitVec.eq_of_getLsbD_eq fun n hn => ?_
  simp only [BitVec.truncate_eq_setWidth,BitVec.getLsbD_setWidth]
  by_cases h : n < 8*width
  · simp [h,hn]
  · simp [h,getLsbD_memValue host cpu ea (by omega) (Nat.not_lt.mp h)]

theorem truncateWidth_zeroExtend (v : BitVec 32) (width : ℕ) (hw : width ≤ 4) :
    Runtime.truncateWidth width (v.zeroExtend 64) = (v.truncate (8*width)).zeroExtend 64 := by
  refine BitVec.eq_of_getLsbD_eq fun n hn => ?_
  rw [LlvmMemory.getLsbD_truncateWidth _ (by omega)]
  simp only [BitVec.truncate_eq_setWidth,BitVec.getLsbD_setWidth]
  by_cases h : n < 8*width
  · simp [h,hn]
  · simp [h]

theorem truncateWidth_word (v : BitVec 32) :
    Runtime.truncateWidth 4 (v.zeroExtend 64) = v.zeroExtend 64 :=
  (truncateWidth_zeroExtend v 4 (by decide)).trans
    (by rw [BitVec.truncate_eq_setWidth,BitVec.setWidth_eq])

def Holds (s : Point) (id : DolIRValue) (v : Value) : Prop := id < s.next ∧ s.env id = some v

theorem run_forM_folds {step : ℕ → Builder PUnit} {f : CPUState → ℕ → CPUState} {id : DolIRValue}
    {v : Value} (h : ∀ n (s : Point), Holds s id v → ∃ s', run m (step n) i s = .next ((), s') ∧
      Holds s' id v ∧ s'.st.commit = f s.st.commit n) (ns : List ℕ) (hs : Holds s id v) :
    ∃ s', run m (ns.forM step) i s = .next ((), s') ∧ s'.st.commit = ns.foldl f s.st.commit := by
  induction ns generalizing s with
  | nil => exact ⟨s,rfl,rfl⟩
  | cons n ns ih =>
    obtain ⟨s1,hrun,hs1,hst⟩ := h n s hs
    obtain ⟨s2,hrun',hst'⟩ := ih s1 hs1
    refine ⟨s2,?_,?_⟩
    · rw [run_forM_cons,hrun,Exec.next_bind,hrun']
    · rw [hst',hst,List.foldl_cons]

theorem run_wordAddress (address : DolIRValue) (d : BitVec 32) {ea : BitVec 32}
    (h : Holds s address (.i32 ea)) :
    ∃ s', run m (binary .add .i32 address s.next) i (s.push (.i32 d)) =
        .next (s.next + 1, s') ∧ s'.next = s.next + 2 ∧ s'.st = s.st ∧
      s'.env (s.next + 1) = some (.i32 (ea + d)) ∧ ∀ k < s.next, s'.env k = s.env k := by
  refine ⟨(s.push (.i32 d)).push (.i32 (ea + d)),?_,rfl,rfl,?_,fun k hk => ?_⟩
  · rw [run_binary m i _ rfl (by decide),Point.push_env,if_neg (Nat.ne_of_lt h.1),h.2,
      Point.push_env,if_pos rfl]
    rfl
  · simp
  · have h1 : k ≠ s.next + 1 := Nat.ne_of_lt (Nat.lt_succ_of_lt hk)
    simp [h1,Nat.ne_of_lt hk]

def lmwRound (ea : BitVec 32) (cpu : CPUState) (n : ℕ) : CPUState :=
  let (value, cpu) := Runtime.memRead32 m.host cpu (ea + BitVec.ofNat 32 (4*n))
  cpu.setGpr (i.rD + BitVec.ofNat 5 n) value

theorem run_lowerLmwStep (address : DolIRValue) (n : ℕ) {ea : BitVec 32}
    (h : Holds s address (.i32 ea)) :
    ∃ s', run m (lowerLmwStep i address n) i s = .next ((), s') ∧ Holds s' address (.i32 ea) ∧
      s'.st.commit = lmwRound m i ea s.st.commit n := by
  obtain ⟨s1,hrun,hnext,hst,henv,hkeep⟩ := run_wordAddress m i s address (BitVec.ofNat 32 (4*n)) h
  have hload := run_guestLoad m i s1 (s.next + 1) 4 false henv
  rw [hst] at hload
  let word := loadedWord m s.st.cpu (ea + BitVec.ofNat 32 (4*n)) 4 false
  let read := (Runtime.memRead m.host s.st.cpu (ea + BitVec.ofNat 32 (4*n)) 4).2
  have hword : ((s1.push (.i32 word)).withSt (s.st.withCpu read)).env s1.next =
      some (.i32 word) := by rw [Point.withSt_env,Point.push_env,if_pos rfl]
  have hset := run_setGpr m i _ (i.rD + BitVec.ofNat 5 n) s1.next hword
  refine ⟨_,Eq.trans ?_ hset,⟨?_,?_⟩,?_⟩
  · rw [lowerLmwStep,run_bind,run_c32,Exec.next_bind,run_bind,hrun,Exec.next_bind,run_bind,hload,
      Exec.next_bind]
  · show address < s1.next + 1
    rw [hnext]
    exact Nat.lt_of_lt_of_le h.1 (by omega)
  · rw [Point.withSt_env,Point.withSt_env,Point.push_env,
      if_neg (by rw [hnext]; exact Nat.ne_of_lt (Nat.lt_of_lt_of_le h.1 (by omega))),
      hkeep address h.1,h.2]
  · rw [Point.withSt_st,Point.withSt_st,withCpu_commit_setGpr,lmwRound]
    rfl

def storeRound (value : CPUState → ℕ → BitVec 32) (ea : BitVec 32) (cpu : CPUState) (n : ℕ) :
    CPUState := Runtime.memWrite32 cpu (ea + BitVec.ofNat 32 (4*n)) (value cpu n)

theorem run_lowerStmwStep (address : DolIRValue) (n : ℕ) {ea : BitVec 32}
    (h : Holds s address (.i32 ea)) :
    ∃ s', run m (lowerStmwStep i address n) i s = .next ((), s') ∧ Holds s' address (.i32 ea) ∧
      s'.st.commit =
        storeRound (fun cpu n => cpu.gpr (i.rS + BitVec.ofNat 5 n)) ea s.st.commit n := by
  obtain ⟨s1,hrun,hnext,hst,henv,hkeep⟩ :=
    run_wordAddress m i s address (BitVec.ofNat 32 (4*n)) h
  let word := s.st.cpu.gpr (i.rS + BitVec.ofNat 5 n)
  have haddress : (s1.push (.i32 word)).env (s.next + 1) =
      some (.i32 (ea + BitVec.ofNat 32 (4*n))) := by
    rw [Point.push_env,if_neg (hnext ▸ Nat.ne_of_lt (Nat.lt_succ_self _)),henv]
  have hstore := run_guestStore m i (s1.push (.i32 word)) (s.next + 1) s1.next 4 haddress
    (by rw [Point.push_env,if_pos rfl])
  rw [Point.push_st,hst,truncateWidth_word] at hstore
  refine ⟨_,Eq.trans ?_ hstore,⟨?_,?_⟩,?_⟩
  · rw [lowerStmwStep,run_bind,run_c32,Exec.next_bind,run_bind,hrun,Exec.next_bind,run_bind,gpr,
      run_readSlot,IRState.readSlot_gpr,hst,Exec.next_bind]
  · show address < s1.next + 1
    rw [hnext]
    exact Nat.lt_of_lt_of_le h.1 (by omega)
  · rw [Point.withSt_env,Point.push_env,
      if_neg (by rw [hnext]; exact Nat.ne_of_lt (Nat.lt_of_lt_of_le h.1 (by omega))),
      hkeep address h.1,h.2]
  · rw [Point.withSt_st,← memWrite_commit,storeRound,commit_gpr]
    rfl

theorem run_lowerDcbzStep (address : DolIRValue) (n : ℕ) {ea : BitVec 32}
    (h : Holds s address (.i32 ea)) :
    ∃ s', run m (lowerDcbzStep address n) i s = .next ((), s') ∧ Holds s' address (.i32 ea) ∧
      s'.st.commit = storeRound (fun _ _ => 0) ea s.st.commit n := by
  obtain ⟨s1,hrun,hnext,hst,henv,hkeep⟩ :=
    run_wordAddress m i s address (BitVec.ofNat 32 (4*n)) h
  have haddress : (s1.push (.i32 0)).env (s.next + 1) =
      some (.i32 (ea + BitVec.ofNat 32 (4*n))) := by
    rw [Point.push_env,if_neg (hnext ▸ Nat.ne_of_lt (Nat.lt_succ_self _)),henv]
  have hstore := run_guestStore m i (s1.push (.i32 0)) (s.next + 1) s1.next 4 haddress
    (by rw [Point.push_env,if_pos rfl])
  rw [Point.push_st,hst,truncateWidth_word] at hstore
  refine ⟨_,Eq.trans ?_ hstore,⟨?_,?_⟩,?_⟩
  · rw [lowerDcbzStep,run_bind,run_c32,Exec.next_bind,run_bind,hrun,Exec.next_bind,run_bind,run_c32,
      Exec.next_bind]
  · show address < s1.next + 1
    rw [hnext]
    exact Nat.lt_of_lt_of_le h.1 (by omega)
  · rw [Point.withSt_env,Point.push_env,
      if_neg (by rw [hnext]; exact Nat.ne_of_lt (Nat.lt_of_lt_of_le h.1 (by omega))),
      hkeep address h.1,h.2]
  · rw [Point.withSt_st,← memWrite_commit,storeRound]
    rfl

section

variable (form : MemoryForm)

theorem formRead_word (hw : form.width = 4) (hs : form.sign = false) (hr : form.reverse = false) :
    formRead m form = Runtime.memRead32 m.host := by
  funext cpu ea
  rw [formRead,hw,hs,hr]
  rfl

theorem formRead_reversed (hw : form.width = 4) (hs : form.sign = false)
    (hr : form.reverse = true) : formRead m form = memReadReversed32 m.host := by
  funext cpu ea
  rw [formRead,hw,hs,hr]
  rfl

theorem formRead_half (hw : form.width = 2) (hs : form.sign = false) (hr : form.reverse = false) :
    formRead m form = Emitter.memRead16 m.host := by
  funext cpu ea
  rw [formRead,hw,hs,hr]
  exact Prod.ext (setWidth_memValue m.host cpu ea 2 (by decide)).symm rfl

theorem formRead_algebraic (hw : form.width = 2) (hs : form.sign = true)
    (hr : form.reverse = false) : formRead m form = memReadS16 m.host := by
  funext cpu ea
  rw [formRead,hw,hs,hr]
  have h : loadedWord m cpu ea 2 true =
      ((Runtime.memValue m.host cpu ea 2).truncate 16).signExtend 32 :=
    Words.setWidth_signExtend _ (by decide)
  exact Prod.ext h rfl

theorem formRead_byte (hw : form.width = 1) (hs : form.sign = false) (hr : form.reverse = false) :
    formRead m form = Emitter.memRead8 m.host := by
  funext cpu ea
  rw [formRead,hw,hs,hr]
  exact Prod.ext (setWidth_memValue m.host cpu ea 1 (by decide)).symm rfl

theorem formWrite_word (hw : form.width = 4) (hr : form.reverse = false) :
    formWrite form = Runtime.memWrite32 := by
  funext cpu ea v
  rw [formWrite,hw,hr,truncateWidth_word]
  rfl

theorem formWrite_reversed (hw : form.width = 4) (hr : form.reverse = true) :
    formWrite form = fun cpu ea v => Runtime.memWrite32 cpu ea (bswap32 v) := by
  funext cpu ea v
  rw [formWrite,hw,hr,truncateWidth_word]
  rfl

theorem formWrite_half (hw : form.width = 2) (hr : form.reverse = false) :
    formWrite form = Emitter.memWrite16 := by
  funext cpu ea v
  rw [formWrite,hw,hr]
  exact congrArg (Runtime.memWrite cpu ea · 2) (truncateWidth_zeroExtend v 2 (by decide))

theorem formWrite_byte (hw : form.width = 1) (hr : form.reverse = false) :
    formWrite form = Emitter.memWrite8 := by
  funext cpu ea v
  rw [formWrite,hw,hr]
  exact congrArg (Runtime.memWrite cpu ea · 1) (truncateWidth_zeroExtend v 1 (by decide))

end

/-- The rows that both backends read alike. -/
def rowOps : List PPCOpcode :=
  [.lwz,.lwzu,.lbz,.lbzu,.lhz,.lhzu,.lha,.lhau,.lwzx,.lwzux,.lbzx,.lbzux,.lhzx,.lhzux,.lhax,
    .lhaux,.lwbrx,.stw,.stwu,.stb,.stbu,.sth,.sthu,.stwx,.stwux,.stbx,.stbux,.sthx,.sthux,.stwbrx]

theorem emitMemory_row (cfg : EmitConfig) (hh : cfg.host = m.host) (ho : i.op ∈ rowOps)
    (cpu : CPUState) : ∃ form, memoryForm i.op = some form ∧
      emitMemory cfg i cpu = .next (formResult m i form cpu) := by
  simp only [rowOps,List.mem_cons,List.not_mem_nil,or_false] at ho
  rcases ho with ho | ho | ho | ho | ho | ho | ho | ho | ho | ho | ho | ho | ho | ho | ho | ho |
    ho | ho | ho | ho | ho | ho | ho | ho | ho | ho | ho | ho | ho | ho
  all_goals
    rw [ho]
    refine ⟨_,rfl,?_⟩
    simp only [emitMemory,ho,hh]
    rw [formResult]
    first
    | rw [if_pos rfl,formRead_word m _ rfl rfl rfl]; rfl
    | rw [if_pos rfl,formRead_byte m _ rfl rfl rfl]; rfl
    | rw [if_pos rfl,formRead_half m _ rfl rfl rfl]; rfl
    | rw [if_pos rfl,formRead_algebraic m _ rfl rfl rfl]; rfl
    | rw [if_pos rfl,formRead_reversed m _ rfl rfl rfl]; rfl
    | rw [if_neg Bool.false_ne_true,formWrite_word _ rfl rfl]; rfl
    | rw [if_neg Bool.false_ne_true,formWrite_byte _ rfl rfl]; rfl
    | rw [if_neg Bool.false_ne_true,formWrite_half _ rfl rfl]; rfl
    | rw [if_neg Bool.false_ne_true,formWrite_reversed _ rfl rfl]; rfl

theorem lowerMemory_row {form : MemoryForm} (hf : memoryForm i.op = some form) :
    ∃ s', run m (lowerMemory i) i s = .next (true, s') ∧
      s'.st.commit = formResult m i form s.st.commit := by
  simp only [lowerMemory,hf]
  exact run_lowerMemoryForm m i s form

theorem lowerMemory_lmw (ho : i.op = .lmw) : ∃ s', run m (lowerMemory i) i s = .next (true, s') ∧
    s'.st.commit = emitLmw m.host i s.st.commit := by
  obtain ⟨id,s1,hrun,hlt,henv,hst⟩ := run_effectiveAddress m i s false false
  obtain ⟨s2,hrun',hst'⟩ := run_forM_folds m i s1
    (fun n s h => run_lowerLmwStep m i s id n h) (List.range (32 - i.rD.toNat)) ⟨hlt,henv⟩
  refine ⟨s2,?_,?_⟩
  · simp only [lowerMemory,memoryForm,ho,run_bind,hrun,Exec.next_bind,forRegistersFrom,hrun',
      run_pure]
  · rw [hst',hst]
    rfl

theorem lowerMemory_stmw (ho : i.op = .stmw) :
    ∃ s', run m (lowerMemory i) i s = .next (true, s') ∧
      s'.st.commit = emitStmw i s.st.commit := by
  obtain ⟨id,s1,hrun,hlt,henv,hst⟩ := run_effectiveAddress m i s false false
  obtain ⟨s2,hrun',hst'⟩ := run_forM_folds m i s1
    (fun n s h => run_lowerStmwStep m i s id n h) (List.range (32 - i.rS.toNat)) ⟨hlt,henv⟩
  refine ⟨s2,?_,?_⟩
  · simp only [lowerMemory,memoryForm,ho,run_bind,hrun,Exec.next_bind,forRegistersFrom,hrun',
      run_pure]
  · rw [hst',hst]
    rfl

theorem lowerMemory_dcbz (ho : i.op = .dcbz) :
    ∃ s', run m (lowerMemory i) i s = .next (true, s') ∧
      s'.st.commit = emitDcbz i s.st.commit := by
  obtain ⟨id,s1,hrun,hlt,henv,hst⟩ := run_effectiveAddress m i s true false
  let block := formEa i true false s.st.commit &&& ~~~31#32
  let s2 := (s1.push (.i32 (~~~31#32))).push (.i32 block)
  have hmask : run m (binary .and .i32 id s1.next) i (s1.push (.i32 (~~~31#32))) =
      .next (s1.next + 1, s2) := by
    rw [run_binary m i _ rfl (by decide),Point.push_env,if_neg (Nat.ne_of_lt hlt),henv,
      Point.push_env,if_pos rfl]
    rfl
  have hs2 : Holds s2 (s1.next + 1) (.i32 block) := by
    refine ⟨Nat.lt_succ_self _,?_⟩
    rw [Point.push_env]
    exact if_pos rfl
  obtain ⟨s3,hrun',hst'⟩ := run_forM_folds m i s2
    (fun n s h => run_lowerDcbzStep m i s (s1.next + 1) n h) (List.range 8) hs2
  refine ⟨s3,?_,?_⟩
  · simp only [lowerMemory,memoryForm,ho,run_bind,hrun,Exec.next_bind,run_c32,hmask,hrun',run_pure]
  · have hround : storeRound (fun _ _ => 0) block = fun cpu n => Runtime.memWrite32 cpu
        ((xformEa i false s.st.commit &&& ~~~31#32) + BitVec.ofNat 32 (4*n)) 0 := rfl
    rw [hst',show s2.st = s.st from hst,hround,emitDcbz]

theorem lowerMemory_lwarx (ho : i.op = .lwarx) :
    ∃ s', run m (lowerMemory i) i s = .next (true, s') ∧
      s'.st.commit = emitLwarx m.host i s.st.commit := by
  obtain ⟨id,s1,hrun,hlt,henv,hst⟩ := run_effectiveAddress m i s true false
  let ea := formEa i true false s.st.commit
  let word := loadedWord m s.st.cpu ea 4 false
  let read := s.st.withCpu (Runtime.memRead m.host s.st.cpu ea 4).2
  let s2 := (s1.push (.i32 word)).withSt (read.setGpr i.rD word)
  let reserved : IRState := (read.setGpr i.rD word).withCpu
    { (read.setGpr i.rD word).cpu with reserveAddr := ea }
  have hload := run_guestLoad m i s1 id 4 false henv
  rw [hst] at hload
  have hset : run m (setGpr i.rD s1.next) i ((s1.push (.i32 word)).withSt read) =
      .next ((), s2) :=
    run_setGpr m i _ i.rD s1.next (by rw [Point.withSt_env,Point.push_env,if_pos rfl])
  have hid : s2.env id = some (.i32 ea) := by
    rw [Point.withSt_env,Point.push_env,if_neg (Nat.ne_of_lt hlt),henv]
  have haddr : run m (writeSlot .reserveAddr id) i s2 = .next ((), s2.withSt reserved) := by
    rw [run_writeSlot,hid]
    rfl
  have hvalid : run m (writeSlot .reserveValid s2.next) i ((s2.withSt reserved).push (.i1 true)) =
      .next ((), ((s2.withSt reserved).push (.i1 true)).withSt
        (reserved.withCpu { reserved.cpu with reserveValid := true })) := by
    rw [run_writeSlot,Point.push_env]
    rw [if_pos (show s2.next = (s2.withSt reserved).next from rfl)]
    rfl
  refine ⟨((s2.withSt reserved).push (.i1 true)).withSt
    (reserved.withCpu { reserved.cpu with reserveValid := true }),?_,?_⟩
  · simp only [lowerMemory,memoryForm,ho]
    rw [run_bind,hrun,Exec.next_bind,run_bind,hload,Exec.next_bind,run_bind,hset,Exec.next_bind,
      run_bind,haddr,Exec.next_bind,run_bind,run_c1,Exec.next_bind,run_bind]
    show (run m (writeSlot .reserveValid s2.next) i
      ((s2.withSt reserved).push (.i1 true)) >>= _) = _
    rw [hvalid]
    rfl
  · have hread : Runtime.memRead32 m.host s.st.commit ea = (word, read.commit) := by
      rw [Runtime.memRead32,memRead_commit]
      rfl
    show _ = { (Runtime.memRead32 m.host s.st.commit ea).2.setGpr i.rD
      (Runtime.memRead32 m.host s.st.commit ea).1 with reserveAddr := ea, reserveValid := true }
    rw [hread]
    show _ = { read.commit.setGpr i.rD word with reserveAddr := ea, reserveValid := true }
    rw [commit_setGpr]
    rfl

def memoryFamily : List PPCOpcode := rowOps ++ [.lmw,.stmw,.dcbz,.lwarx]

theorem lowerMemory_agrees (cfg : EmitConfig) (hh : cfg.host = m.host) (ho : i.op ∈ memoryFamily) :
    ∃ s', run m (lowerMemory i) i s = .next (true, s') ∧
      emitMemory cfg i s.st.commit = .next s'.st.commit := by
  rcases List.mem_append.1 ho with ho | ho
  · obtain ⟨form,hf,he⟩ := emitMemory_row m i cfg hh ho s.st.commit
    obtain ⟨s',hrun,hst⟩ := lowerMemory_row m i s hf
    exact ⟨s',hrun,by rw [he,hst]⟩
  · simp only [List.mem_cons,List.not_mem_nil,or_false] at ho
    rcases ho with ho | ho | ho | ho
    · obtain ⟨s',hrun,hst⟩ := lowerMemory_lmw m i s ho
      exact ⟨s',hrun,by simp only [emitMemory,ho,hh,hst]⟩
    · obtain ⟨s',hrun,hst⟩ := lowerMemory_stmw m i s ho
      exact ⟨s',hrun,by simp only [emitMemory,ho,hst]⟩
    · obtain ⟨s',hrun,hst⟩ := lowerMemory_dcbz m i s ho
      exact ⟨s',hrun,by simp only [emitMemory,ho,hst]⟩
    · obtain ⟨s',hrun,hst⟩ := lowerMemory_lwarx m i s ho
      exact ⟨s',hrun,by simp only [emitMemory,ho,hh,hst]⟩

/-- Opcodes that only `lowerMemory` and `emitMemory` know. -/
def PlainMemory (chunk : ChunkRange) : Prop :=
  ppcOpUsesFpu i.op = false ∧ lowerControl chunk i = pure none ∧ lowerInteger i = pure false ∧
    ∀ cfg cpu, emitStatements cfg i cpu = emitMemory cfg i cpu

theorem memoryFamily_plain (ho : i.op ∈ memoryFamily) (chunk : ChunkRange) :
    PlainMemory i chunk := by
  simp only [memoryFamily,rowOps,List.cons_append,List.nil_append,List.mem_cons,List.not_mem_nil,
    or_false] at ho
  rcases ho with ho | ho | ho | ho | ho | ho | ho | ho | ho | ho | ho | ho | ho | ho | ho | ho |
    ho | ho | ho | ho | ho | ho | ho | ho | ho | ho | ho | ho | ho | ho | ho | ho | ho | ho
  all_goals exact ⟨by rw [ho]; rfl,by simp only [lowerControl,ho],by simp only [lowerInteger,ho],
    fun _ _ => by simp only [emitStatements,ho]⟩

theorem runBlock_memory (cfg : EmitConfig) (hh : cfg.host = m.host) (ho : i.op ∈ memoryFamily)
    (hd : i.embeddedData = false) (chunk : ChunkRange) (index : ℕ) :
    runBlock m i chunk index s =
      .next ((emitInstruction cfg i s.st.commit).nextState i.address) := by
  obtain ⟨hf,hc,hi,he⟩ := memoryFamily_plain i ho chunk
  obtain ⟨s',hrun,hst⟩ := lowerMemory_agrees m i s cfg hh ho
  have hl : effect m (lowerInstruction i) i s = .next (true, s'.st) := by
    rw [lowerInstruction,effect_bind,hi,run_pure,Exec.next_bind,if_neg Bool.false_ne_true,
      effect_bind,hrun,Exec.next_bind,if_pos rfl,effect_pure]
  rw [emitInstruction_plain i cfg _ hd hf,he,hst]
  exact runBlock_agrees m i s chunk index hd hf hc hl rfl

end Builder

variable (m : Machine)

/-- Every plain, reversed word, multiple, cleared and reserving access leaves the same registers,
reservation, memory and order of accesses in both backends. -/
theorem memory_agreement (cfg : EmitConfig) (hh : cfg.host = m.host) (insts : List PPCInst)
    (guestStart : BitVec 32) (k : ℕ) (raw address : BitVec 32)
    (hk : insts[k]? = some (ppcDecode raw address))
    (ho : (ppcDecode raw address).op ∈ memoryFamily) (cpu : CPUState) :
    ∃ block, (buildFunction insts guestStart).blocks[k]? = some block ∧
      m.execBlock block cpu =
        .next ((emitInstruction cfg (ppcDecode raw address) cpu).nextState address) := by
  obtain ⟨block,next,h,hb,hrun⟩ := execBlock_built m (ppcDecode raw address) insts guestStart k hk
  refine ⟨block,hb,?_⟩
  rw [hrun,runBlock_memory m _ _ cfg hh ho (ppcDecode_embeddedData raw address),
    ppcDecode_address]
  exact congrArg (fun cpu => Exec.next ((emitInstruction cfg _ cpu).nextState address))
    (commit_load cpu)

def storing : CPUState :=
  { cpuInit with gpr := fun r => if r = 3 then 0x80001000 else 0x11*r.toNat }

/-- `stmw r29,8(r3)` alone in its chunk. -/
theorem memory_agreement_stmw :
    ∃ block, (buildFunction [ppcDecode 0xBFA30008 0x80003100] 0x80003100).blocks[0]? = some block ∧
      Machine.execBlock { host := {} } block storing =
        .next ((emitInstruction (.single {}) (ppcDecode 0xBFA30008 0x80003100) storing).nextState
          0x80003100) :=
  memory_agreement { host := {} } (.single {}) rfl _ _ 0 _ _ rfl (by decide) storing

end DolRecomp
