import DolRecomp.AddressSoundness

/-!
# Entries of native code and leaders of the analysis

The LLVM backend lets native code be entered at the leaders of its regions. The
address analysis forgets what it knew of the registers at leaders of its own.
-/

namespace DolRecomp

namespace RegionLeaders

open AddressAnalysis

/-- How a function is emitted, with the addresses that are to be entry points. -/
structure Settings where
  modernRuntime : Bool
  nativeAbi : Bool
  entryPoints : List (BitVec 32)

def interprets (i : DolIRInstruction) : Bool :=
  match i.op with
  | .helperCall .exactFloat => true
  | .helperCall .exactPaired =>
    DolIRExactPaired.psMuls1.ctorIdx < (i.immediate &&& 0xFF#64).toNat
  | _ => false

def needsInterpreter (b : DolIRBlock) : Bool := b.instructions.any interprets

def definesMsr (b : DolIRBlock) : Bool := b.instructions.any fun i => .msr ∈ i.stateDefs

/-- A block that ModernGekko has the host interpret in a native body. -/
def serviced (s : Settings) (b : DolIRBlock) : Bool :=
  s.modernRuntime && s.nativeAbi && needsInterpreter b

/-- The block of a requested entry point. -/
def entryBlock (f : DolIRFunction) (address : BitVec 32) : Option ℕ :=
  if address < f.guestStart ∨ f.guestEnd ≤ address ∨
      (address - f.guestStart) &&& 3#32 ≠ 0 then none
  else some ((address - f.guestStart).toNat / 4)

def isFallback (f : DolIRFunction) (index : ℕ) : Bool :=
  f.blocks[index]?.any fun b => b.terminator.kind == .fallback

/-- What makes the next block a leader. -/
def endsRegion (s : Settings) (b : DolIRBlock) : Bool :=
  serviced s b || b.terminator.kind != .fallthrough || definesMsr b

def collectRegionLeaders (s : Settings) (f : DolIRFunction) (index : ℕ) : Bool :=
  index == 0 || isFallback f index || f.blocks[index]?.any (serviced s) ||
    (f.blocks[index - 1]?.any fun b => index != 0 && endsRegion s b) ||
    (f.blocks.any fun b => b.terminator.targets.contains index) ||
    s.entryPoints.any fun address => entryBlock f address == some index

/-- The blocks that `emitEntry` gives a case. -/
def dispatched (s : Settings) (f : DolIRFunction) (index : ℕ) : Bool :=
  index < f.blocks.length && collectRegionLeaders s f index && !isFallback f index

def EntersAtLeaders (s : Settings) (f : DolIRFunction) : Prop :=
  ∀ index, dispatched s f index = true → regionLeader f.blocks index = true

/-- An execution of the emitted code comes to instruction `k` of a block. It enters at a block
with a case, in any state, and falls through to the next ones; a jump comes to a block with a
case again. -/
inductive NativeReaches (m : Machine) (s : Settings) (f : DolIRFunction) :
    ℕ → ℕ → Machine.Frame → Prop
  | enter {b : ℕ} (hd : dispatched s f b = true) (st : IRState) :
      NativeReaches m s f b 0 ⟨st,fun _ => none⟩
  | step {b k : ℕ} {frame frame' : Machine.Frame} {block : DolIRBlock} {i : DolIRInstruction}
      (h : NativeReaches m s f b k frame) (hb : f.blocks[b]? = some block)
      (hi : block.instructions[k]? = some i) (he : m.execInstruction i frame = .next frame') :
      NativeReaches m s f b (k + 1) frame'
  | fall {b : ℕ} {frame : Machine.Frame} {block : DolIRBlock} (hb : f.blocks[b]? = some block)
      (hk : block.terminator.kind = .fallthrough)
      (h : NativeReaches m s f b block.instructions.length frame) :
      NativeReaches m s f (b + 1) 0 ⟨frame.st,fun _ => none⟩

/-- No execution of an analysed function uses a range that only the blocks in front of its entry
account for: wherever it comes, the range that is recorded holds. -/
def KeepsRanges (s : Settings) (f : DolIRFunction) : Prop :=
  ∀ (m : Machine) (source : DolIRFunction), dolirAnalyzeAddresses source = f →
    (∀ block ∈ source.blocks, ∀ i ∈ block.instructions, Covers m i) →
    ∀ b k frame, NativeReaches m s f b k frame → ∀ block, f.blocks[b]? = some block →
      ∀ i, block.instructions[k]? = some i → ∀ address,
        frame.env (i.operands.getD 0 0) = some (.i32 address) → AddressSound i address

/-- The block in front falls through into the block. -/
def FallenInto (f : DolIRFunction) (index : ℕ) : Prop :=
  ∃ i b, index = i + 1 ∧ f.blocks[i]? = some b ∧ b.terminator.kind = .fallthrough

/-- The block falls back, or a terminator has it as a target. -/
def Targeted (f : DolIRFunction) (index : ℕ) : Prop :=
  (∃ b, f.blocks[index]? = some b ∧ b.terminator.kind = .fallback) ∨
    ∃ b ∈ f.blocks, index ∈ b.terminator.targets

/-- What the analysis does not look for (entry points, writes of the MSR and interpreted blocks)
meets only blocks that nothing falls into or that a terminator has as a target. -/
structure Covered (s : Settings) (f : DolIRFunction) : Prop where
  entry : ∀ address ∈ s.entryPoints, ∀ index ∈ entryBlock f address, index < f.blocks.length →
    FallenInto f index → Targeted f index
  msr : ∀ (i : ℕ) b, f.blocks[i]? = some b → definesMsr b = true → i + 1 < f.blocks.length →
    b.terminator.kind = .fallthrough → Targeted f (i + 1)
  service : ∀ (i : ℕ) b, f.blocks[i]? = some b → serviced s b = true →
    (FallenInto f i → Targeted f i) ∧
      (i + 1 < f.blocks.length → b.terminator.kind = .fallthrough → Targeted f (i + 1))

variable {s : Settings} {f : DolIRFunction}

theorem regionLeader_iff {index : ℕ} (hlt : index < f.blocks.length) :
    regionLeader f.blocks index = true ↔ (FallenInto f index → Targeted f index) := by
  have htarget : (f.blocks.any fun b => b.terminator.targets.contains index) = true ↔
      ∃ b ∈ f.blocks, index ∈ b.terminator.targets := by simp
  have hfallback : (f.blocks[index]?.any fun b => b.terminator.kind == .fallback) = true ↔
      ∃ b, f.blocks[index]? = some b ∧ b.terminator.kind = .fallback := by
    simp [Option.any_eq_true]
  unfold regionLeader Targeted
  rw [Bool.or_eq_true,Bool.or_eq_true,Bool.or_eq_true,hfallback,htarget]
  cases index with
  | zero =>
    refine iff_of_true (.inl (.inl (.inl rfl))) ?_
    rintro ⟨i,b,h,-⟩
    cases h
  | succ i =>
    obtain ⟨b,hb⟩ : ∃ b, f.blocks[i]? = some b :=
      ⟨_,List.getElem?_eq_getElem (Nat.lt_of_succ_lt hlt)⟩
    have hfall : FallenInto f (i + 1) ↔ b.terminator.kind = .fallthrough := by
      constructor
      · rintro ⟨j,b',hj,hb',hk⟩
        obtain rfl := Nat.succ.inj hj
        rw [hb] at hb'
        rwa [Option.some.inj hb']
      · exact fun hk => ⟨i,b,rfl,hb,hk⟩
    rw [hfall,Nat.add_sub_cancel,hb]
    by_cases hk : b.terminator.kind = .fallthrough <;> simp [hk]

theorem regionLeader_behind {i : ℕ} {b : DolIRBlock} (hb : f.blocks[i]? = some b)
    (hlt : i + 1 < f.blocks.length) : regionLeader f.blocks (i + 1) = true ↔
      (b.terminator.kind = .fallthrough → Targeted f (i + 1)) := by
  rw [regionLeader_iff hlt]
  refine ⟨fun h hk => h ⟨i,b,rfl,hb,hk⟩,fun h => ?_⟩
  rintro ⟨j,b',hj,hb',hk⟩
  obtain rfl := Nat.succ.inj hj
  rw [hb] at hb'
  exact h (Option.some.inj hb' ▸ hk)

theorem regionLeader_of_fallback {index : ℕ} (h : isFallback f index = true) :
    regionLeader f.blocks index = true := by
  have : (f.blocks[index]?.any fun block => block.terminator.kind == .fallback) = true := h
  simp [regionLeader,this]

theorem dispatched_of_leader {index : ℕ} (hlt : index < f.blocks.length)
    (hl : collectRegionLeaders s f index = true) (he : EntersAtLeaders s f) :
    regionLeader f.blocks index = true := by
  cases hf : isFallback f index with
  | true => exact regionLeader_of_fallback hf
  | false => exact he index (by simp [dispatched,hlt,hl,hf])

/-- Where native code enters at leaders, the ranges hold wherever it comes. -/
theorem EntersAtLeaders.keepsRanges (he : EntersAtLeaders s f) : KeepsRanges s f := by
  rintro m source rfl hc b k frame h block hb i hi address ha
  refine analyze_addresses_sound m source hc b k frame ?_ block hb i hi address ha
  clear hb hi ha
  induction h with
  | enter hd st => exact .enter (he _ hd) st
  | step _ hb hi hx ih => exact .step ih hb hi hx
  | @fall b frame block' hb hk _ ih =>
    cases hl : regionLeader (dolirAnalyzeAddresses source).blocks (b + 1) with
    | true => exact .enter hl _
    | false => exact .fall hb ih hl

theorem entersAtLeaders_iff : EntersAtLeaders s f ↔ Covered s f := by
  constructor
  · intro he
    refine ⟨fun address ha index hi hlt => ?_,fun i b hb hm hlt => ?_,fun i b hb hv => ⟨?_,?_⟩⟩
    · refine (regionLeader_iff hlt).mp (dispatched_of_leader hlt ?_ he)
      have : s.entryPoints.any (fun address => entryBlock f address == some index) = true :=
        List.any_eq_true.mpr ⟨address,ha,by simpa using hi⟩
      simp [collectRegionLeaders,this]
    · refine (regionLeader_behind hb hlt).mp (dispatched_of_leader hlt ?_ he)
      simp [collectRegionLeaders,hb,endsRegion,hm]
    · have hlt := (List.getElem?_eq_some_iff.mp hb).1
      refine (regionLeader_iff hlt).mp (dispatched_of_leader hlt ?_ he)
      simp [collectRegionLeaders,hb,hv]
    · intro hlt
      refine (regionLeader_behind hb hlt).mp (dispatched_of_leader hlt ?_ he)
      simp [collectRegionLeaders,hb,endsRegion,hv]
  · intro hc index hd
    simp only [dispatched,Bool.and_eq_true,decide_eq_true_eq] at hd
    obtain ⟨⟨hlt,hl⟩,-⟩ := hd
    simp only [collectRegionLeaders,Bool.or_eq_true] at hl
    rcases hl with ((((hz | hf) | hv) | hp) | ht) | he
    · simp [regionLeader,hz]
    · exact regionLeader_of_fallback hf
    · cases hb : f.blocks[index]? with
      | none => rw [hb] at hv; cases hv
      | some b =>
        rw [hb] at hv
        exact (regionLeader_iff hlt).mpr (hc.service index b hb hv).1
    · cases index with
      | zero => rfl
      | succ i =>
        cases hb : f.blocks[i]? with
        | none => simp [hb] at hp
        | some b =>
          simp only [Nat.add_sub_cancel,hb,Option.any_some,endsRegion,Bool.and_eq_true,
            Bool.or_eq_true] at hp
          rcases hp.2 with (hv | hk) | hm
          · exact (regionLeader_behind hb hlt).mpr ((hc.service i b hb hv).2 hlt)
          · simp [regionLeader,hb,hk]
          · exact (regionLeader_behind hb hlt).mpr (hc.msr i b hb hm hlt)
    · rw [regionLeader,ht,Bool.or_true]
    · obtain ⟨address,ha,hi⟩ := List.any_eq_true.mp he
      exact (regionLeader_iff hlt).mpr (hc.entry address ha index (by simpa using hi) hlt)

/-- Native code enters at leaders of the analysis, and so nowhere behind the blocks that account
for a range, exactly when the blocks that only the backend looks for are targets of terminators
wherever another block falls into them. -/
theorem enters_at_leaders_iff (s : Settings) (f : DolIRFunction) :
    EntersAtLeaders s f ∧ KeepsRanges s f ↔ Covered s f :=
  ⟨fun h => entersAtLeaders_iff.mp h.1,fun h => ⟨entersAtLeaders_iff.mpr h,
    (entersAtLeaders_iff.mpr h).keepsRanges⟩⟩

/-- `lis r3,0x8000` and `lwz r4,0(r3)`. -/
def straightLine : DolIRFunction := dolirAnalyzeAddresses (buildFunction
  [ppcDecode 0x3C608000#32 0x80003000#32,ppcDecode 0x80830000#32 0x80003004#32] 0x80003000#32)

/-- The load may be entered by itself, and its address has been classified as it is only behind
the `lis`. -/
theorem straightLine_entered : (¬ ∀ s f, EntersAtLeaders s f ∧ KeepsRanges s f) ∧
    (straightLine.blocks[1]?.any fun b =>
      b.instructions.any fun i => isAccess i.op && i.addressDomain == .mem1) = true := by
  constructor
  · intro h
    have := (h ⟨false,false,[0x80003004#32]⟩ straightLine).1 1
    revert this
    decide
  · decide

/-- Without requested entry points nothing else is entered there. -/
theorem straightLine_covered :
    EntersAtLeaders ⟨true,true,[]⟩ straightLine ∧ KeepsRanges ⟨true,true,[]⟩ straightLine := by
  have hall : straightLine.blocks.all fun b =>
      !definesMsr b && !serviced ⟨true,true,[]⟩ b := by decide
  have hno : ∀ (i : ℕ) b, straightLine.blocks[i]? = some b → definesMsr b = false ∧
      serviced ⟨true,true,[]⟩ b = false := fun i b hb => by
    have := List.all_eq_true.mp hall b (List.mem_of_getElem? hb)
    simpa only [Bool.and_eq_true,Bool.not_eq_true'] using this
  refine (enters_at_leaders_iff _ _).mpr ⟨by simp,fun i b hb hm => ?_,fun i b hb hv => ?_⟩
  · rw [(hno i b hb).1] at hm
    cases hm
  · rw [(hno i b hb).2] at hv
    cases hv

end RegionLeaders

end DolRecomp
