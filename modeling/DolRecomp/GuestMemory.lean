import DolRecomp.BigEndian

/-!
# Guest RAM

What an address names, and what reads return behind any sequence of accesses:
the bytes written last, through whichever alias and width.
-/

namespace DolRecomp

namespace Runtime

/-- The sizes that `cpu_init` and `cpu_alloc_mem2` are used with. -/
structure Sized (cpu : CPUState) : Prop where
  ram : cpu.ramSize ≤ gcMainRamSize
  mem2 : cpu.mem2Size ≤ wiiMem2Size

instance (cpu : CPUState) : Decidable (Sized cpu) :=
  decidable_of_iff (cpu.ramSize ≤ gcMainRamSize ∧ cpu.mem2Size ≤ wiiMem2Size)
    ⟨fun h => ⟨h.1,h.2⟩,fun h => ⟨h.1,h.2⟩⟩

def sizeOf (cpu : CPUState) : Region → ℕ
  | .ram => cpu.ramSize.toNat
  | .mem2 => cpu.mem2Size.toNat

/-- The cached and the uncached base of a region. -/
def aliases : Region → List ℕ
  | .ram => [0x80000000,0xC0000000]
  | .mem2 => [0x90000000,0xD0000000]

/-- The address is that of byte `offset` of the region, through one of the aliases. -/
def Names (cpu : CPUState) (addr : BitVec 32) (region : Region) (offset : ℕ) : Prop :=
  offset < sizeOf cpu region ∧ ∃ base ∈ aliases region, addr.toNat = base + offset

def Fits (cpu : CPUState) (addr : BitVec 32) (width : ℕ) (region : Region) (offset : ℕ) : Prop :=
  Names cpu addr region offset ∧ offset + width ≤ sizeOf cpu region

section

variable {cpu : CPUState}

theorem names_cases {addr : BitVec 32} {region : Region} {offset : ℕ} :
    Names cpu addr region offset ↔ offset < sizeOf cpu region ∧
      ((region = .ram ∧ (addr.toNat = 0x80000000 + offset ∨ addr.toNat = 0xC0000000 + offset)) ∨
        (region = .mem2 ∧ (addr.toNat = 0x90000000 + offset ∨ addr.toNat = 0xD0000000 + offset))) := by
  cases region <;> simp [Names,aliases]

theorem Sized.ram_le (h : Sized cpu) : cpu.ramSize.toNat ≤ 0x01800000 := h.ram

theorem Sized.mem2_le (h : Sized cpu) : cpu.mem2Size.toNat ≤ 0x04000000 := h.mem2

theorem Names.unique (h : Sized cpu) {addr : BitVec 32} {region region' : Region}
    {offset offset' : ℕ} (hn : Names cpu addr region offset)
    (hn' : Names cpu addr region' offset') : region = region' ∧ offset = offset' := by
  have hr := h.ram_le
  have hm := h.mem2_le
  rw [names_cases] at hn hn'
  cases region <;> cases region' <;> simp [sizeOf] at hn hn' ⊢ <;> omega

/-- One window of `resolve_addr`. -/
def within (region : Region) (addr base size : BitVec 32) :
    Option (Region × BitVec 32 × BitVec 32) :=
  if base ≤ addr ∧ addr < base + size then some (region,addr - base,size - (addr - base)) else none

theorem within_some {region region' : Region} {addr base size offset avail : BitVec 32}
    (hfit : base.toNat + size.toNat < 2^32)
    (h : within region addr base size = some (region',offset,avail)) : region' = region ∧
      offset.toNat < size.toNat ∧ addr.toNat = base.toNat + offset.toNat ∧
      avail.toNat = size.toNat - offset.toNat := by
  unfold within at h
  split at h
  next hw =>
    cases h
    have hb := BitVec.le_def.mp hw.1
    have hl := BitVec.lt_def.mp hw.2
    have ho := BitVec.toNat_sub_of_le hw.1
    rw [BitVec.toNat_add,Nat.mod_eq_of_lt hfit] at hl
    have ha : addr - base ≤ size := BitVec.le_def.mpr (by omega)
    have hs := BitVec.toNat_sub_of_le ha
    exact ⟨rfl,by omega,by omega,by omega⟩
  next => cases h

theorem within_none {region : Region} {addr base size : BitVec 32}
    (hfit : base.toNat + size.toNat < 2^32) (h : within region addr base size = none) :
    addr.toNat < base.toNat ∨ base.toNat + size.toNat ≤ addr.toNat := by
  unfold within at h
  split at h
  next => cases h
  next hw =>
    rw [BitVec.le_def,BitVec.lt_def,BitVec.toNat_add,Nat.mod_eq_of_lt hfit] at hw
    omega

theorem resolveAddr_within (addr : BitVec 32) : resolveAddr cpu addr =
    (within .ram addr gcRamBase cpu.ramSize <|> within .ram addr gcRamUncached cpu.ramSize <|>
      if cpu.mem2Size ≠ 0 then
        within .mem2 addr wiiMem2Base cpu.mem2Size <|> within .mem2 addr wiiMem2Uncached cpu.mem2Size
      else none) := rfl

/-- What `resolve_addr` finds is what the address names. -/
theorem resolveAddr_some (h : Sized cpu) {addr offset avail : BitVec 32} {region : Region}
    (hr : resolveAddr cpu addr = some (region,offset,avail)) :
    Names cpu addr region offset.toNat ∧ avail.toNat = sizeOf cpu region - offset.toNat := by
  have hram := h.ram_le
  have hmem2 := h.mem2_le
  have hb1 : gcRamBase.toNat = 0x80000000 := rfl
  have hb2 : gcRamUncached.toNat = 0xC0000000 := rfl
  have hb3 : wiiMem2Base.toNat = 0x90000000 := rfl
  have hb4 : wiiMem2Uncached.toNat = 0xD0000000 := rfl
  have hnames : ∀ {region' base size}, size = sizeOf cpu region' →
      base ∈ aliases region' → region = region' ∧ offset.toNat < size ∧
        addr.toNat = base + offset.toNat ∧ avail.toNat = size - offset.toNat →
      Names cpu addr region offset.toNat ∧ avail.toNat = sizeOf cpu region - offset.toNat := by
    rintro region' base size rfl hm ⟨rfl,ho,ha,hv⟩
    exact ⟨⟨ho,base,hm,ha⟩,hv⟩
  rw [resolveAddr_within] at hr
  simp only [Option.orElse_eq_orElse,Option.orElse_eq_or,Option.or_eq_some_iff] at hr
  rcases hr with hr | ⟨-,hr | ⟨-,hr⟩⟩
  · exact hnames rfl (by simp [aliases,hb1]) (within_some (by omega) hr)
  · exact hnames rfl (by simp [aliases,hb2]) (within_some (by omega) hr)
  · split at hr
    next =>
      simp only [Option.or_eq_some_iff] at hr
      rcases hr with hr | ⟨-,hr⟩
      · exact hnames rfl (by simp [aliases,hb3]) (within_some (by omega) hr)
      · exact hnames rfl (by simp [aliases,hb4]) (within_some (by omega) hr)
    next => cases hr

theorem resolveAddr_none (h : Sized cpu) {addr : BitVec 32} (hr : resolveAddr cpu addr = none)
    (region : Region) (offset : ℕ) : ¬ Names cpu addr region offset := by
  have hram := h.ram_le
  have hmem2 := h.mem2_le
  have hb1 : gcRamBase.toNat = 0x80000000 := rfl
  have hb2 : gcRamUncached.toNat = 0xC0000000 := rfl
  have hb3 : wiiMem2Base.toNat = 0x90000000 := rfl
  have hb4 : wiiMem2Uncached.toNat = 0xD0000000 := rfl
  rw [resolveAddr_within] at hr
  simp only [Option.orElse_eq_orElse,Option.orElse_eq_or,Option.or_eq_none_iff] at hr
  obtain ⟨h1,h2,hr⟩ := hr
  have h1 := within_none (by omega) h1
  have h2 := within_none (by omega) h2
  rw [names_cases]
  rintro ⟨ho,⟨rfl,ha⟩ | ⟨rfl,ha⟩⟩
  · simp only [sizeOf] at ho
    omega
  · simp only [sizeOf] at ho
    split at hr
    next =>
      simp only [Option.or_eq_none_iff] at hr
      have h3 := within_none (by omega) hr.1
      have h4 := within_none (by omega) hr.2
      omega
    next hz =>
      rw [not_not.mp hz] at ho
      exact absurd ho (Nat.not_lt_zero _)

theorem resolveAddr_fits (h : Sized cpu) {addr : BitVec 32} {width offset : ℕ} {region : Region}
    (hf : Fits cpu addr width region offset) : ∃ o avail, resolveAddr cpu addr =
      some (region,o,avail) ∧ o.toNat = offset ∧ ¬ avail.toNat < width := by
  cases hr : resolveAddr cpu addr with
  | none => exact absurd hf.1 (resolveAddr_none h hr region offset)
  | some r =>
    obtain ⟨region',o,avail⟩ := r
    obtain ⟨hn,ha⟩ := resolveAddr_some h hr
    obtain ⟨rfl,rfl⟩ := hn.unique h hf.1
    exact ⟨o,avail,rfl,rfl,by have := hf.2; omega⟩

theorem resolveAddr_not_fits (h : Sized cpu) {addr : BitVec 32} {width : ℕ}
    (hf : ∀ region offset, ¬ Fits cpu addr width region offset) {region : Region}
    {o avail : BitVec 32} (hr : resolveAddr cpu addr = some (region,o,avail)) :
    avail.toNat < width := by
  obtain ⟨hn,ha⟩ := resolveAddr_some h hr
  have := hf region o.toNat
  have ho := hn.1
  by_contra hlt
  exact this ⟨hn,by omega⟩

theorem bytesOf_setBytes (region region' : Region) (bytes : ℕ → BitVec 8) :
    bytesOf (setBytes cpu region bytes) region' =
      if region' = region then bytes else bytesOf cpu region' := by
  cases region <;> cases region' <;> rfl

@[simp] theorem bytesOf_clearMatchingReservation (addr : BitVec 32) (region : Region) :
    bytesOf (clearMatchingReservation cpu addr) region = bytesOf cpu region := by
  simp only [clearMatchingReservation]
  split <;> cases region <;> rfl

theorem bytesOf_memWrite (h : Sized cpu) {addr : BitVec 32} {width offset : ℕ} {region : Region}
    (hf : Fits cpu addr width region offset) (value : BitVec 64) (region' : Region) (n : ℕ) :
    bytesOf (memWrite cpu addr value width) region' n =
      if region' = region ∧ offset ≤ n ∧ n < offset + width then
        (value >>> (8*(offset + width - 1 - n))).truncate 8
      else bytesOf cpu region' n := by
  obtain ⟨o,avail,hr,rfl,ha⟩ := resolveAddr_fits h hf
  have hmem : memWrite cpu addr value width =
      setBytes (clearMatchingReservation { cpu with history := ⟨true,addr,width,value⟩ :: cpu.history }
        addr) region (writeBe (bytesOf (clearMatchingReservation
          { cpu with history := ⟨true,addr,width,value⟩ :: cpu.history } addr) region)
            o.toNat width value) := by
    simp only [memWrite]
    rw [show resolveAddr { cpu with history := ⟨true,addr,width,value⟩ :: cpu.history } addr =
      some (region,o,avail) from hr]
    simp only [if_neg ha]
  rw [hmem,bytesOf_setBytes,bytesOf_clearMatchingReservation,bytesOf_clearMatchingReservation]
  by_cases hreg : region' = region
  · subst hreg
    rw [if_pos rfl,writeBe]
    simp only [true_and]
    cases region' <;> rfl
  · rw [if_neg hreg,if_neg (fun hn => hreg hn.1)]
    cases region' <;> rfl

theorem memWrite_not_fits (h : Sized cpu) {addr : BitVec 32} {width : ℕ}
    (hf : ∀ region offset, ¬ Fits cpu addr width region offset) (value : BitVec 64) :
    memWrite cpu addr value width =
      { cpu with history := ⟨true,addr,width,value⟩ :: cpu.history } := by
  simp only [memWrite]
  cases hr : resolveAddr cpu addr with
  | none =>
    rw [show resolveAddr { cpu with history := ⟨true,addr,width,value⟩ :: cpu.history } addr =
      none from hr]
  | some r =>
    obtain ⟨region,o,avail⟩ := r
    rw [show resolveAddr { cpu with history := ⟨true,addr,width,value⟩ :: cpu.history } addr =
      some (region,o,avail) from hr]
    simp only [if_pos (resolveAddr_not_fits h hf hr)]

theorem memValue_fits (host : Host) (h : Sized cpu) {addr : BitVec 32} {width offset : ℕ}
    {region : Region} (hf : Fits cpu addr width region offset) :
    memValue host cpu addr width = readBe (bytesOf cpu region) offset width := by
  obtain ⟨o,avail,hr,rfl,ha⟩ := resolveAddr_fits h hf
  simp only [memValue,hr,if_neg ha]

theorem setBytes_sizes (region : Region) (bytes : ℕ → BitVec 8) :
    (setBytes cpu region bytes).ramSize = cpu.ramSize ∧
      (setBytes cpu region bytes).mem2Size = cpu.mem2Size := by
  cases region <;> exact ⟨rfl,rfl⟩

theorem clearMatchingReservation_sizes (addr : BitVec 32) :
    (clearMatchingReservation cpu addr).ramSize = cpu.ramSize ∧
      (clearMatchingReservation cpu addr).mem2Size = cpu.mem2Size := by
  simp only [clearMatchingReservation]
  split <;> exact ⟨rfl,rfl⟩

theorem memWrite_sizes (cpu : CPUState) (addr : BitVec 32) (value : BitVec 64) (width : ℕ) :
    (memWrite cpu addr value width).ramSize = cpu.ramSize ∧
      (memWrite cpu addr value width).mem2Size = cpu.mem2Size := by
  simp only [memWrite]
  split
  · split
    · exact ⟨rfl,rfl⟩
    · rw [(setBytes_sizes _ _).1,(setBytes_sizes _ _).2,(clearMatchingReservation_sizes _).1,
        (clearMatchingReservation_sizes _).2]
      exact ⟨rfl,rfl⟩
  · exact ⟨rfl,rfl⟩

end

inductive Width
  | w8 | w16 | w32 | w64
  deriving DecidableEq, Repr

def Width.bytes : Width → ℕ
  | .w8 => 1
  | .w16 => 2
  | .w32 => 4
  | .w64 => 8

inductive Access
  | read (addr : BitVec 32) (width : Width)
  | write (addr : BitVec 32) (width : Width) (value : BitVec 64)
  deriving DecidableEq, Repr

variable (host : Host)

def Access.step (cpu : CPUState) : Access → CPUState
  | .read addr width => (memRead host cpu addr width.bytes).2
  | .write addr width value => memWrite cpu addr value width.bytes

def runAccesses (cpu : CPUState) (accesses : List Access) : CPUState :=
  accesses.foldl (Access.step host) cpu

/-- A fitting write that covers byte `n` of the region, with what it puts there. -/
def Access.Writes (cpu : CPUState) (a : Access) (region : Region) (n : ℕ) (byte : BitVec 8) : Prop :=
  ∃ addr width value offset, a = .write addr width value ∧
    Fits cpu addr width.bytes region offset ∧ offset ≤ n ∧ n < offset + width.bytes ∧
    byte = (value >>> (8*(offset + width.bytes - 1 - n))).truncate 8

/-- The byte that the last write to the location left, or the one it had at first. -/
def LastWritten (cpu : CPUState) (accesses : List Access) (region : Region) (n : ℕ)
    (byte : BitVec 8) : Prop :=
  (∃ before a after, accesses = before ++ a :: after ∧ a.Writes cpu region n byte ∧
    ∀ a' ∈ after, ∀ byte', ¬ a'.Writes cpu region n byte') ∨
  ((∀ a ∈ accesses, ∀ byte', ¬ a.Writes cpu region n byte') ∧ byte = bytesOf cpu region n)

section

variable {cpu : CPUState}

theorem step_sizes (cpu : CPUState) (a : Access) : (a.step host cpu).ramSize = cpu.ramSize ∧
    (a.step host cpu).mem2Size = cpu.mem2Size := by
  cases a with
  | read => exact ⟨rfl,rfl⟩
  | write => exact memWrite_sizes _ _ _ _

theorem runAccesses_sizes (cpu : CPUState) (accesses : List Access) :
    (runAccesses host cpu accesses).ramSize = cpu.ramSize ∧
      (runAccesses host cpu accesses).mem2Size = cpu.mem2Size := by
  induction accesses generalizing cpu with
  | nil => exact ⟨rfl,rfl⟩
  | cons a as ih =>
    have hs := step_sizes host cpu a
    have hr := ih (a.step host cpu)
    exact ⟨hr.1.trans hs.1,hr.2.trans hs.2⟩

theorem sizeOf_congr {cpu cpu' : CPUState} (h : cpu'.ramSize = cpu.ramSize ∧
    cpu'.mem2Size = cpu.mem2Size) (region : Region) : sizeOf cpu' region = sizeOf cpu region := by
  cases region <;> simp [sizeOf,h.1,h.2]

theorem fits_congr {cpu cpu' : CPUState} (h : cpu'.ramSize = cpu.ramSize ∧
    cpu'.mem2Size = cpu.mem2Size) {addr : BitVec 32} {width offset : ℕ} {region : Region} :
    Fits cpu' addr width region offset ↔ Fits cpu addr width region offset := by
  simp only [Fits,Names,sizeOf_congr h]

theorem Sized.congr {cpu cpu' : CPUState} (hs : Sized cpu) (h : cpu'.ramSize = cpu.ramSize ∧
    cpu'.mem2Size = cpu.mem2Size) : Sized cpu' :=
  ⟨h.1 ▸ hs.ram,h.2 ▸ hs.mem2⟩

theorem step_byte (h : Sized cpu) (a : Access) (region : Region) (n : ℕ) :
    a.Writes cpu region n (bytesOf (a.step host cpu) region n) ∨
      (∀ byte, ¬ a.Writes cpu region n byte) ∧
        bytesOf (a.step host cpu) region n = bytesOf cpu region n := by
  cases a with
  | read addr width =>
    refine .inr ⟨?_,by cases region <;> rfl⟩
    rintro byte ⟨addr',width',value',offset,he,-⟩
    cases he
  | write addr width value =>
    by_cases hf : ∃ region' offset, Fits cpu addr width.bytes region' offset
    · obtain ⟨region',offset,hf⟩ := hf
      have hb := bytesOf_memWrite h hf value region n
      by_cases hc : region = region' ∧ offset ≤ n ∧ n < offset + width.bytes
      · obtain ⟨rfl,hl,hu⟩ := hc
        rw [if_pos ⟨rfl,hl,hu⟩] at hb
        exact .inl ⟨addr,width,value,offset,rfl,hf,hl,hu,hb⟩
      · rw [if_neg hc] at hb
        refine .inr ⟨?_,hb⟩
        rintro byte ⟨addr',width',value',offset',he,hf',hl,hu,-⟩
        cases he
        obtain ⟨rfl,rfl⟩ := hf.1.unique h hf'.1
        exact hc ⟨rfl,hl,hu⟩
    · push Not at hf
      refine .inr ⟨?_,?_⟩
      · rintro byte ⟨addr',width',value',offset',he,hf',-⟩
        cases he
        exact hf _ _ hf'
      · rw [Access.step,memWrite_not_fits h hf]
        cases region <;> rfl

/-- Every location holds what was written to it last. -/
theorem lastWritten_run (h : Sized cpu) (accesses : List Access) (region : Region) (n : ℕ) :
    LastWritten cpu accesses region n (bytesOf (runAccesses host cpu accesses) region n) := by
  induction accesses using List.reverseRecOn with
  | nil => exact .inr ⟨fun _ hm => (List.not_mem_nil hm).elim,rfl⟩
  | append_singleton as a ih =>
    have hrun : runAccesses host cpu (as ++ [a]) = a.step host (runAccesses host cpu as) :=
      List.foldl_concat _ _ _ _
    have hsizes := runAccesses_sizes host cpu as
    have hwrites : ∀ byte, a.Writes (runAccesses host cpu as) region n byte ↔
        a.Writes cpu region n byte := fun byte => by
      simp only [Access.Writes,fits_congr hsizes]
    rw [hrun]
    rcases step_byte host (h.congr hsizes) a region n with hw | ⟨hno,heq⟩
    · exact .inl ⟨as,a,[],rfl,(hwrites _).mp hw,fun _ hm => (List.not_mem_nil hm).elim⟩
    · simp only [hwrites] at hno
      rw [heq]
      rcases ih with ⟨before,b,after,rfl,hb,hlast⟩ | ⟨hnone,hbyte⟩
      · refine .inl ⟨before,b,after ++ [a],by simp,hb,?_⟩
        intro a' ha' byte'
        rcases List.mem_append.mp ha' with hm | hm
        · exact hlast a' hm byte'
        · rw [List.mem_singleton.mp hm]
          exact hno byte'
      · refine .inr ⟨?_,hbyte⟩
        intro a' ha' byte'
        rcases List.mem_append.mp ha' with hm | hm
        · exact hnone a' hm byte'
        · rw [List.mem_singleton.mp hm]
          exact hno byte'

theorem Access.Writes.unique (h : Sized cpu) {a : Access} {region : Region} {n : ℕ}
    {byte byte' : BitVec 8} (hw : a.Writes cpu region n byte) (hw' : a.Writes cpu region n byte') :
    byte = byte' := by
  obtain ⟨addr,width,value,offset,rfl,hf,-,-,rfl⟩ := hw
  obtain ⟨addr',width',value',offset',he,hf',-,-,rfl⟩ := hw'
  cases he
  obtain ⟨-,rfl⟩ := hf.1.unique h hf'.1
  rfl

theorem LastWritten.cons {a : Access} {as : List Access} {region : Region} {n : ℕ}
    {byte : BitVec 8} (h : LastWritten cpu (a :: as) region n byte) :
    LastWritten cpu as region n byte ∧ (∃ b ∈ as, ∃ byte', b.Writes cpu region n byte') ∨
      (∀ b ∈ as, ∀ byte', ¬ b.Writes cpu region n byte') ∧
        (a.Writes cpu region n byte ∨
          (∀ byte', ¬ a.Writes cpu region n byte') ∧ byte = bytesOf cpu region n) := by
  rcases h with ⟨before,b,after,he,hb,hlast⟩ | ⟨hnone,hbyte⟩
  · cases before with
    | nil =>
      cases he
      exact .inr ⟨hlast,.inl hb⟩
    | cons c before =>
      cases he
      exact .inl ⟨.inl ⟨before,b,after,rfl,hb,hlast⟩,b,by simp,byte,hb⟩
  · exact .inr ⟨fun b hb => hnone b (List.mem_cons_of_mem _ hb),
      .inr ⟨hnone a List.mem_cons_self,hbyte⟩⟩

theorem LastWritten.unique (h : Sized cpu) {accesses : List Access} {region : Region} {n : ℕ}
    {byte byte' : BitVec 8} (hb : LastWritten cpu accesses region n byte)
    (hb' : LastWritten cpu accesses region n byte') : byte = byte' := by
  induction accesses with
  | nil =>
    rcases hb with ⟨before,b,after,he,-⟩ | ⟨-,rfl⟩
    · cases before <;> cases he
    · rcases hb' with ⟨before,b,after,he,-⟩ | ⟨-,rfl⟩
      · cases before <;> cases he
      · rfl
  | cons a as ih =>
    rcases hb.cons with ⟨hb,b,hm,w,hw⟩ | ⟨hnone,hb⟩
    · rcases hb'.cons with ⟨hb',-⟩ | ⟨hnone,-⟩
      · exact ih hb hb'
      · exact absurd hw (hnone b hm w)
    · rcases hb'.cons with ⟨-,b,hm,w,hw⟩ | ⟨-,hb'⟩
      · exact absurd hw (hnone b hm w)
      · rcases hb with hb | ⟨hno,rfl⟩
        · rcases hb' with hb' | ⟨hno',-⟩
          · exact hb.unique h hb'
          · exact absurd hb (hno' _)
        · rcases hb' with hb' | ⟨-,rfl⟩
          · exact absurd hb' (hno _)
          · rfl

/-- Reads return the bytes written last, writes change the bytes they cover, and accesses that
do not fit change no byte. -/
theorem ram_coherence (h : Sized cpu) (accesses : List Access) :
    (∀ addr (width : Width) region offset, Fits cpu addr width.bytes region offset →
      (∀ n, ∃ byte, LastWritten cpu accesses region n byte) ∧
      ∀ bytes, (∀ n, offset ≤ n → n < offset + width.bytes →
        LastWritten cpu accesses region n (bytes n)) →
        (memRead host (runAccesses host cpu accesses) addr width.bytes).1 =
          readBe bytes offset width.bytes) ∧
    (∀ addr (width : Width) value region offset, Fits cpu addr width.bytes region offset →
      ∀ region' n,
        bytesOf (memWrite (runAccesses host cpu accesses) addr value width.bytes) region' n =
          if region' = region ∧ offset ≤ n ∧ n < offset + width.bytes then
            (value >>> (8*(offset + width.bytes - 1 - n))).truncate 8
          else bytesOf (runAccesses host cpu accesses) region' n) ∧
    (∀ addr (width : Width), (∀ region offset, ¬ Fits cpu addr width.bytes region offset) →
      ∀ value region n,
        bytesOf ((Access.write addr width value).step host (runAccesses host cpu accesses))
          region n = bytesOf (runAccesses host cpu accesses) region n ∧
        bytesOf ((Access.read addr width).step host (runAccesses host cpu accesses)) region n =
          bytesOf (runAccesses host cpu accesses) region n) := by
  have hsizes := runAccesses_sizes host cpu accesses
  have hs := h.congr hsizes
  refine ⟨fun addr width region offset hf => ⟨fun n => ⟨_,lastWritten_run host h accesses region n⟩,
    fun bytes hbytes => ?_⟩,fun addr width value region offset hf region' n => ?_,
    fun addr width hf value region n => ⟨?_,?_⟩⟩
  · rw [memRead,memValue_fits host hs ((fits_congr hsizes).mpr hf)]
    refine readBe_congr fun n hl hu => ?_
    exact (lastWritten_run host h accesses region n).unique h (hbytes n hl hu)
  · exact bytesOf_memWrite hs ((fits_congr hsizes).mpr hf) value region' n
  · have hno : ∀ region offset, ¬ Fits (runAccesses host cpu accesses) addr width.bytes region
        offset := fun region offset hf' => hf region offset ((fits_congr hsizes).mp hf')
    rw [Access.step,memWrite_not_fits hs hno]
    cases region <;> rfl
  · cases region <;> rfl

end

/-- A word written through the cached alias is read a byte at a time through the uncached one. -/
theorem ram_coherence_alias :
    (memRead {} (runAccesses {} cpuInit [.write 0x80000010 .w32 0xDEADBEEF])
      0xC0000012 1).1 = 0xBE := by
  have hfits : Fits cpuInit 0xC0000012 1 .ram 0x12 :=
    ⟨⟨by decide,0xC0000000,by decide,by decide⟩,by decide⟩
  have hw : Fits cpuInit 0x80000010 4 .ram 0x10 :=
    ⟨⟨by decide,0x80000000,by decide,by decide⟩,by decide⟩
  refine ((ram_coherence {} (show Sized cpuInit by decide)
    [.write 0x80000010 .w32 0xDEADBEEF]).1 0xC0000012 .w8 .ram 0x12 hfits).2 (fun _ => 0xBE) ?_
  intro n hl hu
  have hn : n = 0x12 := by
    rw [Width.bytes] at hu
    omega
  subst hn
  exact .inl ⟨[],_,[],rfl,⟨_,.w32,_,0x10,rfl,hw,by decide,by decide,by decide⟩,
    fun _ hm => (List.not_mem_nil hm).elim⟩

end Runtime

end DolRecomp
