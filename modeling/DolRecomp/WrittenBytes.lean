import DolRecomp.SmcAnalysis
import DolRecomp.Words

/-!
# Written bytes and the checked range

The bytes that a store writes are a union of spans, one for each guest access. The
analysis finds every store into a section exactly when they lie in the one range
that it checks.
-/

namespace DolRecomp.Smc

/-- The bytes of one access. -/
def span (ea : BitVec 32) (width : ℕ) : Set (BitVec 32) :=
  {b | ea.toNat ≤ b.toNat ∧ b.toNat < ea.toNat + width}

def CodeSection.bytes (s : CodeSection) : Set (BitVec 32) := span s.address s.size.toNat

/-- The accesses from one state to the next write exactly these bytes. -/
def Writes (cpu cpu' : CPUState) (bytes : Set (BitVec 32)) : Prop :=
  ∃ new, cpu'.history = new ++ cpu.history ∧
    ∀ b, b ∈ bytes ↔ ∃ a ∈ new, a.write = true ∧ b ∈ span a.ea a.width

section

variable {cpu cpu' cpu'' : CPUState} {s t : Set (BitVec 32)}

theorem writes_none (h : cpu'.history = cpu.history) : Writes cpu cpu' ∅ :=
  ⟨[],h,by simp⟩

theorem Writes.of_history (h : Writes cpu cpu' s) (he : cpu''.history = cpu'.history) :
    Writes cpu cpu'' s := by
  obtain ⟨new,hnew,hs⟩ := h
  exact ⟨new,he.trans hnew,hs⟩

theorem Writes.trans (h : Writes cpu cpu' s) (h' : Writes cpu' cpu'' t) :
    Writes cpu cpu'' (s ∪ t) := by
  obtain ⟨new,hnew,hs⟩ := h
  obtain ⟨new',hnew',ht⟩ := h'
  refine ⟨new' ++ new,by rw [hnew',hnew,List.append_assoc],fun b => ?_⟩
  rw [Set.mem_union,hs,ht]
  simp only [List.mem_append,or_and_right,exists_or]
  exact Or.comm

theorem clearMatchingReservation_history (addr : BitVec 32) :
    (Runtime.clearMatchingReservation cpu addr).history = cpu.history := by
  unfold Runtime.clearMatchingReservation
  dsimp only
  split <;> rfl

theorem setBytes_history (region : Runtime.Region) (bytes : ℕ → BitVec 8) :
    (Runtime.setBytes cpu region bytes).history = cpu.history := by
  cases region <;> rfl

theorem memWrite_history (ea : BitVec 32) (value : BitVec 64) (width : ℕ) :
    (Runtime.memWrite cpu ea value width).history = ⟨true,ea,width,value⟩ :: cpu.history := by
  unfold Runtime.memWrite
  dsimp only
  split
  · split
    · rfl
    · rw [setBytes_history,clearMatchingReservation_history]
  · rfl

theorem writes_memWrite (ea : BitVec 32) (value : BitVec 64) (width : ℕ) :
    Writes cpu (Runtime.memWrite cpu ea value width) (span ea width) :=
  ⟨[⟨true,ea,width,value⟩],memWrite_history ea value width,by simp⟩

theorem writes_foldl {step : CPUState → ℕ → CPUState} {f : ℕ → Set (BitVec 32)}
    (h : ∀ cpu n, Writes cpu (step cpu n) (f n)) (count : ℕ) (cpu : CPUState) :
    Writes cpu ((List.range count).foldl step cpu) {b | ∃ n < count, b ∈ f n} := by
  induction count with
  | zero => simpa using (writes_none rfl : Writes cpu cpu ∅)
  | succ count ih =>
    rw [List.range_succ,List.foldl_append]
    have hu := ih.trans (h _ count)
    have he : {b | ∃ n < count + 1, b ∈ f n} = {b | ∃ n < count, b ∈ f n} ∪ f count := by
      ext b
      simp only [Set.mem_ofPred_eq,Set.mem_union,Nat.lt_succ_iff_lt_or_eq,or_and_right,exists_or,
        exists_eq_left]
    rw [he]
    exact hu

end

section

variable {ea : BitVec 32}

theorem toNat_add_ofNat {n : ℕ} (h : ea.toNat + n < 2^32) :
    (ea + BitVec.ofNat 32 n).toNat = ea.toNat + n := by
  rw [BitVec.toNat_add,BitVec.toNat_ofNat,Nat.mod_eq_of_lt (by omega : n < 2^32),Nat.mod_eq_of_lt h]

theorem mem_span_self {width : ℕ} (h : 0 < width) : ea ∈ span ea width := ⟨le_refl _,by omega⟩

theorem span_mono {m n : ℕ} (h : m ≤ n) : span ea m ⊆ span ea n :=
  fun _ hb => ⟨hb.1,lt_of_lt_of_le hb.2 (by omega)⟩

theorem span_zero : span ea 0 = ∅ :=
  Set.eq_empty_of_forall_notMem fun _ hb => absurd hb.2 (by have := hb.1; omega)

/-- Adjacent accesses are covered unless they pass the end of the address space. -/
theorem run_subset_iff {k count : ℕ} (hk : 0 < k) (hc : 0 < count) (hs : k*count < 2^31) :
    {b | ∃ n < count, b ∈ span (ea + BitVec.ofNat 32 (k*n)) k} ⊆ span ea (k*count) ↔
      ea.toNat + k*(count - 1) < 2^32 := by
  have hlast : k*(count - 1) + k = k*count := by
    obtain ⟨m,rfl⟩ : ∃ m, count = m + 1 := ⟨count - 1,by omega⟩
    rw [Nat.add_sub_cancel,Nat.mul_succ]
  constructor
  · intro h
    by_contra hge
    -- the last access wraps to the bottom of the address space, below the checked range
    have hlt := ea.isLt
    have hwrap : (ea + BitVec.ofNat 32 (k*(count - 1))).toNat =
        ea.toNat + k*(count - 1) - 2^32 := by
      rw [BitVec.toNat_add,BitVec.toNat_ofNat,Nat.mod_eq_of_lt (by omega : k*(count - 1) < 2^32),
        Nat.mod_eq_sub_mod (by omega),Nat.mod_eq_of_lt (by omega)]
    have hm := h ⟨count - 1,by omega,mem_span_self hk⟩
    have := hm.1
    omega
  · rintro h b ⟨n,hn,hb⟩
    have hle : k*n + k ≤ k*count := by
      rw [← Nat.mul_succ]
      exact Nat.mul_le_mul_left k hn
    have hlt : ea.toNat + k*n < 2^32 := by omega
    obtain ⟨h1,h2⟩ := hb
    rw [toNat_add_ofNat hlt] at h1 h2
    exact ⟨by omega,by omega⟩

/-- A string store is checked for its first byte. -/
theorem string_subset_iff {count : ℕ} :
    {b | ∃ n < count, b ∈ span (ea + BitVec.ofNat 32 n) 1} ⊆ span ea 1 ↔ count ≤ 1 := by
  constructor
  · intro h
    by_contra hge
    have hm := h ⟨1,by omega,mem_span_self one_pos⟩
    have hlt := ea.isLt
    obtain ⟨h1,h2⟩ := hm
    have heq : ea + 1#32 = ea := BitVec.eq_of_toNat_eq (by
      rw [show BitVec.ofNat 32 1 = 1#32 from rfl] at h1 h2
      omega)
    exact absurd heq (by bv_omega)
  · rintro h b ⟨n,hn,hb⟩
    obtain rfl : n = 0 := by omega
    simpa using hb

theorem toNat_block : (ea &&& ~~~31#32).toNat = 32*(ea.toNat / 32) := by
  have h : (ea &&& ~~~31#32) + (ea &&& 31#32) = ea := by
    rw [BitVec.add_eq_or_of_and_eq_zero]
    · rw [← BitVec.and_or_distrib_left]
      show ea &&& BitVec.allOnes 32 = ea
      exact BitVec.and_allOnes
    · rw [show (ea &&& ~~~31#32) &&& (ea &&& 31#32) = ea &&& ea &&& (~~~31#32 &&& 31#32) by ac_rfl]
      simp
  have hle : (ea &&& ~~~31#32).toNat ≤ ea.toNat := by
    rw [BitVec.toNat_and]
    exact Nat.and_le_left
  have hsum := congrArg BitVec.toNat h
  rw [BitVec.toNat_add,Words.toNat_and_31] at hsum
  omega

theorem block_aligned_iff : ea &&& 31#32 = 0 ↔ ea.toNat % 32 = 0 := by
  rw [← BitVec.toNat_inj,Words.toNat_and_31]
  rfl

/-- A block that starts before the address is not covered. -/
theorem block_subset_iff :
    {b | ∃ n < 8, b ∈ span ((ea &&& ~~~31#32) + BitVec.ofNat 32 (4*n)) 4} ⊆ span ea 32 ↔
      ea &&& 31#32 = 0 := by
  have hblock := @toNat_block ea
  have hlt := ea.isLt
  rw [block_aligned_iff]
  constructor
  · intro h
    have hm := h ⟨0,by omega,mem_span_self (by omega)⟩
    have h1 := hm.1
    rw [toNat_add_ofNat (by omega)] at h1
    omega
  · rintro h b ⟨n,hn,h1,h2⟩
    rw [toNat_add_ofNat (by omega)] at h1 h2
    exact ⟨by omega,by omega⟩

/-- The second lane starts where the first ends. -/
theorem pair_subset_iff {size : ℕ} (h0 : 0 < size) (h4 : size ≤ 4) (h3 : size ≠ 3) :
    span ea size ∪ span (ea + BitVec.ofNat 32 size) size ⊆ span ea 4 ↔
      size ≠ 4 ∧ ea.toNat + size < 2^32 := by
  have hlt := ea.isLt
  constructor
  · intro h
    have hm := h (Or.inr (mem_span_self h0))
    obtain ⟨h1,h2⟩ := hm
    by_cases hfit : ea.toNat + size < 2^32
    · rw [toNat_add_ofNat hfit] at h2
      exact ⟨by omega,hfit⟩
    · rw [BitVec.toNat_add,BitVec.toNat_ofNat,Nat.mod_eq_of_lt (by omega : size < 2^32)] at h1
      omega
  · rintro ⟨hne,hfit⟩ b (hb|hb)
    · exact span_mono h4 hb
    · obtain ⟨h1,h2⟩ := hb
      rw [toNat_add_ofNat hfit] at h1 h2
      exact ⟨by omega,by omega⟩

end

section

variable {i : PPCInst} {cpu : CPUState} {ea : BitVec 32}

theorem writes_emitStoreAt {write : CPUState → BitVec 32 → BitVec 32 → CPUState} {width : ℕ}
    (hw : ∀ v, Writes cpu (write cpu ea v) (span ea width)) (update : Bool) :
    Writes cpu (Emitter.emitStoreAt i ea write update cpu) (span ea width) := by
  refine (hw (cpu.gpr i.rS)).of_history ?_
  unfold Emitter.emitStoreAt
  cases update <;> rfl

theorem updateBase_history (update : Bool) :
    (Emitter.updateBase i update ea cpu).history = cpu.history := by
  cases update <;> rfl

theorem unlessException_history {rest : CPUState → CPUState}
    (h : ∀ cpu, (rest cpu).history = cpu.history) :
    (Emitter.unlessException rest cpu).cpu.history = cpu.history := by
  unfold Emitter.unlessException
  split
  · rfl
  · exact h cpu

theorem writes_emitFstoreAt (single update : Bool) :
    Writes cpu (Emitter.emitFstoreAt i ea single update cpu)
      (span ea (if single then 4 else 8)) := by
  unfold Emitter.emitFstoreAt
  cases single with
  | true => exact (writes_memWrite ea _ 4).of_history (updateBase_history update)
  | false => exact (writes_memWrite ea _ 8).of_history (updateBase_history update)

theorem writes_words (value : CPUState → ℕ → BitVec 32) (ea : BitVec 32) (count : ℕ)
    (cpu : CPUState) :
    Writes cpu ((List.range count).foldl (fun cpu n =>
        Runtime.memWrite32 cpu (ea + BitVec.ofNat 32 (4*n)) (value cpu n)) cpu)
      {b | ∃ n < count, b ∈ span (ea + BitVec.ofNat 32 (4*n)) 4} :=
  writes_foldl (fun _ n => writes_memWrite (ea + BitVec.ofNat 32 (4*n)) _ 4) count cpu

theorem writes_zeroBlock (block : BitVec 32) (cpu : CPUState) :
    Writes cpu (Runtime.zeroBlock block cpu)
      {b | ∃ n < 8, b ∈ span (block + BitVec.ofNat 32 (4*n)) 4} :=
  writes_words (fun _ _ => 0) block 8 cpu

theorem writes_stswBytes (rS : BitVec 5) (ea : BitVec 32) (count : ℕ) (cpu : CPUState) :
    Writes cpu (Emitter.stswBytes rS ea count cpu)
      {b | ∃ n < count, b ∈ span (ea + BitVec.ofNat 32 n) 1} :=
  writes_foldl (fun _ n => writes_memWrite (ea + BitVec.ofNat 32 n) _ 1) count cpu

theorem takeException_history (exception vector srr0 srr1Info : BitVec 32) :
    (Runtime.ppcTakeException cpu exception vector srr0 srr1Info).history = cpu.history := rfl

theorem dcbzHit_history (cia : BitVec 32) : (Runtime.dcbzHit cpu cia).history = cpu.history := by
  unfold Runtime.dcbzHit
  dsimp only
  split
  · rw [takeException_history]
  · rfl

theorem programException_history (cause cia : BitVec 32) :
    (Runtime.ppcProgramException cpu cause cia).history = cpu.history := by
  rw [Runtime.ppcProgramException,takeException_history]

theorem alignmentException_history (cia : BitVec 32) :
    (Runtime.ppcAlignmentException cpu ea cia).history = cpu.history := by
  rw [Runtime.ppcAlignmentException,takeException_history]

variable (dev : Devices)

/-- `dcbz_l` writes in supervisor mode, with the locked cache enabled. -/
def LocksCache (cpu : CPUState) : Prop :=
  cpu.msr &&& Runtime.ppcMsrPr = 0 ∧ cpu.hid2 &&& Runtime.ppcHid2Lce ≠ 0

theorem writes_dcbzL_of (h : LocksCache cpu) (cia : BitVec 32) :
    Writes cpu (Runtime.ppcDcbzL dev cpu ea cia)
      {b | ∃ n < 8, b ∈ span ((ea &&& ~~~31#32) + BitVec.ofNat 32 (4*n)) 4} := by
  rw [Runtime.ppcDcbzL,if_neg (not_not_intro h.1),if_neg h.2]
  set start := if dev.lockedCacheHit cpu (ea &&& ~~~31#32) then Runtime.dcbzHit cpu cia else cpu
    with hstart
  have hsame : start.history = cpu.history := by
    rw [hstart]
    split
    · exact dcbzHit_history cia
    · rfl
  have hw := (writes_none hsame).trans (writes_zeroBlock (ea &&& ~~~31#32) start)
  rwa [Set.empty_union] at hw

theorem writes_dcbzL_not (h : ¬LocksCache cpu) (cia : BitVec 32) :
    Writes cpu (Runtime.ppcDcbzL dev cpu ea cia) ∅ := by
  refine writes_none ?_
  unfold Runtime.ppcDcbzL
  split
  · exact programException_history _ _
  · next hp =>
    rw [if_pos (not_not.mp fun hl => h ⟨not_not.mp hp,hl⟩)]
    exact programException_history _ _

theorem writes_psqStoreValue (type : BitVec 3) (scale : BitVec 32) (value : BitVec 64) :
    Writes cpu (Runtime.psqStoreValue dev cpu ea type scale value)
      (span ea (Runtime.psqTypeSize type)) := by
  have hlt := type.isLt
  unfold Runtime.psqStoreValue Runtime.psqTypeSize
  generalize type.toNat = n at hlt
  interval_cases n
  · exact writes_memWrite ea _ 4
  · exact span_zero ▸ writes_none rfl
  · exact span_zero ▸ writes_none rfl
  · exact span_zero ▸ writes_none rfl
  · exact writes_memWrite ea _ 1
  · exact writes_memWrite ea _ 2
  · exact writes_memWrite ea _ 1
  · exact writes_memWrite ea _ 2

/-- The type that the store's GQR names. -/
def psqType (i : PPCInst) (cpu : CPUState) : BitVec 3 := (cpu.gqr i.i).truncate 3

/-- Neither the enable bits nor the type and address make an exception. -/
def PsqStores (i : PPCInst) (indexed : Bool) (ea : BitVec 32) (cpu : CPUState) : Prop :=
  (Runtime.psqCheckEnabled cpu indexed i.address).1 = true ∧
    (Runtime.psqAccessIsValid cpu (psqType i cpu) ea i.address).1 = true

theorem psqCheckEnabled_state {indexed : Bool} {cia : BitVec 32}
    (h : (Runtime.psqCheckEnabled cpu indexed cia).1 = true) :
    Runtime.psqCheckEnabled cpu indexed cia = (true,cpu) := by
  unfold Runtime.psqCheckEnabled at h ⊢
  split at h
  · exact absurd h Bool.false_ne_true
  · next hn => exact if_neg hn

theorem psqCheckEnabled_history (indexed : Bool) (cia : BitVec 32) :
    (Runtime.psqCheckEnabled cpu indexed cia).2.history = cpu.history := by
  unfold Runtime.psqCheckEnabled
  split
  · exact programException_history _ _
  · rfl

theorem psqAccessIsValid_iff {type : BitVec 3} {cia : BitVec 32} :
    (Runtime.psqAccessIsValid cpu type ea cia).1 = true ↔
      Runtime.psqTypeSize type ≠ 0 ∧ (type = 0 → ea &&& 3#32 = 0) := by
  unfold Runtime.psqAccessIsValid
  split
  · next h => simp [h]
  · next h =>
    split
    · next h' => exact iff_of_false Bool.false_ne_true fun hn => h'.2 (hn.2 h'.1)
    · next h' =>
      refine iff_of_true rfl ⟨h,fun ht => ?_⟩
      by_contra hea
      exact h' ⟨ht,hea⟩

theorem psqAccessIsValid_state {type : BitVec 3} {cia : BitVec 32}
    (h : (Runtime.psqAccessIsValid cpu type ea cia).1 = true) :
    Runtime.psqAccessIsValid cpu type ea cia = (true,cpu) := by
  unfold Runtime.psqAccessIsValid at h ⊢
  split at h
  · exact absurd h Bool.false_ne_true
  · next hn =>
    split at h
    · exact absurd h Bool.false_ne_true
    · next hn' => rw [if_neg hn,if_neg hn']

theorem psqAccessIsValid_history (type : BitVec 3) (cia : BitVec 32) :
    (Runtime.psqAccessIsValid cpu type ea cia).2.history = cpu.history := by
  unfold Runtime.psqAccessIsValid
  split
  · exact programException_history _ _
  · split
    · exact alignmentException_history _
    · rfl

/-- The second lane of a float is aligned when the first is. -/
theorem psqAccessIsValid_next {type : BitVec 3} {cia : BitVec 32} {cpu' : CPUState}
    (h : (Runtime.psqAccessIsValid cpu type ea cia).1 = true) :
    (Runtime.psqAccessIsValid cpu' type
      (ea + BitVec.ofNat 32 (Runtime.psqTypeSize type)) cia).1 = true := by
  obtain ⟨hs,ha⟩ := psqAccessIsValid_iff.mp h
  refine psqAccessIsValid_iff.mpr ⟨hs,?_⟩
  rintro rfl
  have hea := (Alignment.and_three_eq_zero ea).mp (ha rfl)
  rw [Alignment.and_three_eq_zero,BitVec.toNat_add]
  show (ea.toNat + 4) % 2^32 % 4 = 0
  omega

def psqBytes (i : PPCInst) (ea : BitVec 32) (cpu : CPUState) : Set (BitVec 32) :=
  let size := Runtime.psqTypeSize (psqType i cpu)
  if i.w then span ea size else span ea size ∪ span (ea + BitVec.ofNat 32 size) size

variable {dev}

theorem writes_psqStore_of {indexed : Bool} (h : PsqStores i indexed ea cpu) :
    Writes cpu (Runtime.ppcPsqStore dev cpu i.rS ea i.w i.i indexed i.address)
      (psqBytes i ea cpu) := by
  have hvalid := h.2
  unfold psqType at hvalid
  unfold Runtime.ppcPsqStore psqBytes psqType
  rw [psqCheckEnabled_state h.1]
  dsimp only
  rw [psqAccessIsValid_state hvalid]
  dsimp only
  by_cases hw : i.w = true
  · rw [if_pos hw,if_pos hw]
    exact writes_psqStoreValue dev _ _ _
  · rw [if_neg hw,if_neg hw,psqAccessIsValid_state (psqAccessIsValid_next hvalid)]
    exact (writes_psqStoreValue dev _ _ _).trans (writes_psqStoreValue dev _ _ _)

theorem writes_psqStore_not {indexed : Bool} (h : ¬PsqStores i indexed ea cpu) :
    Writes cpu (Runtime.ppcPsqStore dev cpu i.rS ea i.w i.i indexed i.address) ∅ := by
  refine writes_none ?_
  unfold Runtime.ppcPsqStore
  cases he : (Runtime.psqCheckEnabled cpu indexed i.address).1 with
  | false => simpa [he] using psqCheckEnabled_history indexed i.address
  | true =>
    have hv : (Runtime.psqAccessIsValid cpu (psqType i cpu) ea i.address).1 = false :=
      Bool.eq_false_iff.mpr fun hv => h ⟨he,hv⟩
    unfold psqType at hv
    rw [psqCheckEnabled_state he]
    simpa [hv] using psqAccessIsValid_history _ i.address

end

end DolRecomp.Smc
