import DolRecomp.Decoder
import DolRecomp.LevelClosure
import DolRecomp.RangeLookup
import DolRecomp.Relocation
import Mathlib.Data.List.Sort

/-!
# Selecting ranges by a profile

`select_profiled_llvm_ranges` keeps the hot ranges of a profile and what is near to them: their
neighbours, the entries that are asked for, the ranges that their calls reach and the successors of
these.
-/

namespace DolRecomp

namespace Llvm

open CheckedBytes (Bytes)
open LevelClosure

/-- A section with its bytes, if it has any. -/
structure SectionCode extends LoadedCodeSection where
  data : Option Bytes

/-- A line of a profile that `sscanf` and `strtoul` can read. -/
structure ProfileLine where
  kind : String
  pc : BitVec 64
  samples : BitVec 64

/-- What `range_profile_path` names. -/
inductive RangeProfile
  | absent | unreadable | lines (lines : List ProfileLine)

/-- The options of the selection. `belowCoverage` compares the covered samples and all eligible
ones with `range_profile_coverage` in `long double`. -/
structure ProfileOptions where
  minSamples : BitVec 32
  missMinSamples : BitVec 32
  neighbors : BitVec 32
  callClosureDepth : BitVec 32
  successorClosureDepth : BitVec 32
  belowCoverage : BitVec 64 → BitVec 64 → Bool

/-- Why there is no selection: it is refused, a read leaves a section, or a loop does not end. -/
inductive SelectStop
  | refused | fault | endless
  deriving DecidableEq

structure LLVMHotRange where
  rangeIndex : ℕ
  samples : BitVec 64

structure ProfileWeights where
  weights : ℕ → BitVec 64 := fun _ => 0
  entryWeights : ℕ → BitVec 64 := fun _ => 0

def llvmRangeIndexFor (ranges : List DolLLVMFunctionRange) (address : BitVec 32) : Option ℕ :=
  (Bisection.find (·.1.start.toNat) (·.1.limit.toNat) ranges.zipIdx address.toNat 0
    ranges.length).map Prod.snd

/-- A sum that stays at `UINT64_MAX`. -/
def addSamples (total samples : BitVec 64) : BitVec 64 :=
  if BitVec.allOnes 64 - total < samples then BitVec.allOnes 64 else total + samples

section

variable (sections : List SectionCode) (ranges : List DolLLVMFunctionRange)
  (options : ProfileOptions) (patches : List DolLLVMPatch)

def readProfileLine (w : ProfileWeights) (line : ProfileLine) : ProfileWeights :=
  if line.samples = 0 ∨ 0xFFFFFFFF < line.pc then w else
  match llvmRangeIndexFor ranges (line.pc.truncate 32) with
  | none => w
  | some index =>
    if line.kind = "module_miss" then
      if line.samples < options.missMinSamples.zeroExtend 64 then w
      else { w with entryWeights :=
        Function.update w.entryWeights index (addSamples (w.entryWeights index) line.samples) }
    else if line.kind ≠ "native_cycles" then w
    else { w with weights :=
      Function.update w.weights index (addSamples (w.weights index) line.samples) }

def profileWeights (lines : List ProfileLine) : ProfileWeights :=
  lines.foldl (readProfileLine ranges options) {}

def eligible (minimum : BitVec 32) (weights : ℕ → BitVec 64) : List ℕ :=
  (List.range ranges.length).filter fun i =>
    ¬(weights i < minimum.zeroExtend 64 ∨ weights i = 0)

/-- `compare_hot_range` -/
def hotBefore (a b : LLVMHotRange) : Prop :=
  b.samples < a.samples ∨ (a.samples = b.samples ∧ a.rangeIndex ≤ b.rangeIndex)

instance : DecidableRel hotBefore := fun _ _ => inferInstanceAs (Decidable (_ ∨ _))

/-- The loop that covers the samples, with `first` set as long as there is no seed. -/
def coverSamples (below : BitVec 64 → Bool) :
    BitVec 64 → Bool → List LLVMHotRange → List ℕ
  | _, _, [] => []
  | covered, first, hot :: rest =>
    if below covered ∨ first then
      hot.rangeIndex :: coverSamples below (covered + hot.samples) false rest
    else []

/-- The hot seeds; nothing if the profile has no eligible samples. -/
def hotSeeds (lines : List ProfileLine) : Option (List ℕ) :=
  let weights := (profileWeights ranges options lines).weights
  let hot := (eligible ranges options.minSamples weights).map fun i => LLVMHotRange.mk i (weights i)
  let eligibleSamples := (hot.map (·.samples)).sum
  if hot = [] ∨ eligibleSamples = 0 then none
  else some (coverSamples (options.belowCoverage · eligibleSamples) 0 true
    (hot.insertionSort hotBefore))

def llvmProfileSelectAddress (m : Marks ℕ) (address : BitVec 32) : Marks ℕ :=
  match llvmRangeIndexFor ranges address with
  | none => m
  | some target => m.add target

/-- One range ends where the other starts. -/
def Touching (a b : ℕ) : Prop :=
  match ranges[a]?, ranges[b]? with
  | some r, some r' => r.limit = r'.start
  | _, _ => False

instance (a b : ℕ) : Decidable (Touching ranges a b) := by
  unfold Touching
  split <;> infer_instance

def leftNeighbor (left : ℕ) : Option ℕ :=
  if left ≠ 0 ∧ Touching ranges (left - 1) left then some (left - 1) else none

def rightNeighbor (right : ℕ) : Option ℕ :=
  if Touching ranges right (right + 1) then some (right + 1) else none

def addNeighbors : ℕ → ℕ → ℕ → Marks ℕ → Marks ℕ
  | 0, _, _, m => m
  | steps+1, left, right, m =>
    let left' := leftNeighbor ranges left
    let right' := rightNeighbor ranges right
    addNeighbors steps (left'.getD left) (right'.getD right)
      ((m.addAll left'.toList).addAll right'.toList)

def queueSeed (neighbors : BitVec 32) (m : Marks ℕ) (index : ℕ) : Marks ℕ :=
  addNeighbors ranges neighbors.toNat index index { m with queue := m.queue ++ [index] }

def queueSeeds (neighbors : BitVec 32) (seeds : List ℕ) : Marks ℕ :=
  seeds.foldl (queueSeed ranges neighbors) ⟨fun i => decide (i ∈ seeds),[]⟩

def llvmSectionForRange (r : DolLLVMFunctionRange) : Option SectionCode :=
  sections.find? fun s => s.data.isSome ∧ s.address ≤ r.start ∧ r.limit ≤ s.address + s.size

/-- `read_be32` at an address of a section. -/
def SectionCode.word (s : SectionCode) (address : BitVec 32) : Option (BitVec 32) :=
  s.data.bind fun data =>
    if (address - s.address).toNat + 4 ≤ data.size then
      some (Rel.readBe32 data.get (address - s.address).toNat)
    else none

/-- The instructions that a loop over a range decodes. -/
def rangeInsts (s : SectionCode) (limit : BitVec 32) :
    ℕ → BitVec 32 → Except SelectStop (List PPCInst)
  | 0, _ => .error .endless
  | fuel+1, address =>
    if address < limit then
      match s.word address with
      | none => .error .fault
      | some raw => (rangeInsts s limit fuel (address + 4)).map (ppcDecode raw address :: ·)
    else .ok []

/-- The rounds after which the address of the loop comes back. -/
def addressRounds : ℕ := 2^30

def llvmDecodeAt (address : BitVec 32) : Except SelectStop (Option PPCInst) :=
  match sections.find? fun s => s.data.isSome ∧ s.address ≤ address ∧
    address < s.address + s.size ∧ (address - s.address) &&& 3 = 0 with
  | none => .ok none
  | some s =>
    match s.word address with
    | none => .error .fault
    | some raw => .ok (some (ppcDecode raw address))

end

def llvmProfileInstructionHasFallthrough (inst : PPCInst) : Bool :=
  match inst.op with
  | .b => false
  | .bc | .bclr | .bcctr => inst.bo &&& 0x14 ≠ 0x14
  | .sc | .rfi => false
  | _ => true

/-- Where a branch with a link goes. -/
def linkedTargets (inst : PPCInst) : List (BitVec 32) :=
  if (inst.op ≠ .b ∧ inst.op ≠ .bc) ∨ ¬inst.lk then [] else [inst.branchTarget]

/-- Where control goes on after a branch without a link, and behind a branch. -/
def successorTargets (inst : PPCInst) : List (BitVec 32) :=
  (if (inst.op = .b ∨ inst.op = .bc) ∧ ¬inst.lk then [inst.branchTarget] else []) ++
    if (inst.op = .bc ∨ inst.op = .bclr ∨ inst.op = .bcctr) ∧
      llvmProfileInstructionHasFallthrough inst then [inst.address + 4] else []

section

variable (sections : List SectionCode) (ranges : List DolLLVMFunctionRange)
  (options : ProfileOptions) (patches : List DolLLVMPatch)

/-- What stands behind a range, if its last instruction goes on there. -/
def behindRange (s : SectionCode) (r : DolLLVMFunctionRange) :
    Except SelectStop (List (BitVec 32)) :=
  if r.start < r.limit ∧ r.limit < codeEnd s.toLoadedCodeSection then
    (llvmDecodeAt sections (r.limit - 4)).map fun
      | none => []
      | some last => if llvmProfileInstructionHasFallthrough last then [r.limit] else []
  else .ok []

/-- The ranges that are selected when a loop gets to a range: `targets` says what an instruction
selects, and `behind` what the end of the range does. -/
def expandRange (targets : PPCInst → List (BitVec 32))
    (behind : SectionCode → DolLLVMFunctionRange → Except SelectStop (List (BitVec 32)))
    (index : ℕ) : Except SelectStop (List ℕ) :=
  match ranges[index]? with
  | none => .error .fault
  | some r =>
    if (llvmPatchForStart patches r.start).isSome then .ok [] else
    match llvmSectionForRange sections r with
    | none => .ok []
    | some s => do
      let insts ← rangeInsts s r.limit (addressRounds + 1) r.start
      let last ← behind s r
      return (insts.flatMap targets ++ last).filterMap (llvmRangeIndexFor ranges)

def callTargets : ℕ → Except SelectStop (List ℕ) :=
  expandRange sections ranges patches linkedTargets fun _ _ => .ok []

def successors : ℕ → Except SelectStop (List ℕ) :=
  expandRange sections ranges patches successorTargets (behindRange sections)

/-- Everything that the closures start from. -/
def startMarks (lines : List ProfileLine) (seeds : List ℕ) (points : List (BitVec 32)) :
    Marks ℕ :=
  let weights := profileWeights ranges options lines
  let m := queueSeeds ranges options.neighbors seeds
  let m := m.addAll (eligible ranges options.missMinSamples weights.entryWeights)
  let m := points.foldl (llvmProfileSelectAddress ranges) m
  (patches.map (·.start)).foldl (llvmProfileSelectAddress ranges) m

/-- The marks that a run ends with. `forced` is what `load_forced_llvm_points` loads. -/
def markRanges (lines : List ProfileLine) (forced : Option (List (BitVec 32))) :
    Outcome SelectStop ℕ :=
  match hotSeeds ranges options lines with
  | none => .error (.refused,⟨fun _ => false,[]⟩)
  | some seeds =>
    match forced with
    | none => .error (.refused,startMarks ranges options [] lines seeds [])
    | some points =>
      match levels (callTargets sections ranges patches) options.callClosureDepth.toNat 0
        (startMarks ranges options patches lines seeds points) with
      | .ok m => levels (successors sections ranges patches) options.successorClosureDepth.toNat 0 m
      | .error stopped => .error stopped

/-- The last loop: the ranges that are marked. -/
def compact (m : Marks ℕ) : List DolLLVMFunctionRange :=
  (ranges.zipIdx.filter fun p => m.selected p.2).map Prod.fst

def selectProfiledLlvmRanges (profile : RangeProfile) (forced : Option (List (BitVec 32))) :
    Except SelectStop (List DolLLVMFunctionRange) :=
  match profile with
  | .absent => .ok ranges
  | .unreadable => .error .refused
  | .lines lines =>
    match markRanges sections ranges options patches lines forced with
    | .ok m => .ok (compact ranges m)
    | .error (e,_) => .error e

end

section

variable (sections : List SectionCode) (ranges : List DolLLVMFunctionRange)
  (options : ProfileOptions) (patches : List DolLLVMPatch)

structure InOrder : Prop where
  forward : ∀ r ∈ ranges, r.start ≤ r.limit
  sorted : ranges.Pairwise fun a b => a.limit ≤ b.start

def HasAddress (i : ℕ) (address : BitVec 32) : Prop :=
  ∃ r, ranges[i]? = some r ∧ r.start ≤ address ∧ address < r.limit

/-- From `a` on, `k` ranges end where the next starts. -/
def Chain (a k : ℕ) : Prop := ∀ t < k, Touching ranges (a + t) (a + t + 1)

/-- At most `n` ranges away, with no gap between. -/
def Neighbor (n i j : ℕ) : Prop :=
  ∃ k ≤ n, (j + k = i ∧ Chain ranges j k) ∨ (i + k = j ∧ Chain ranges i k)

/-- What the closures start from. -/
def Wanted (lines : List ProfileLine) (seeds : List ℕ) (points : List (BitVec 32)) (j : ℕ) : Prop :=
  (∃ i ∈ seeds, Neighbor ranges options.neighbors.toNat i j) ∨
    j ∈ eligible ranges options.missMinSamples (profileWeights ranges options lines).entryWeights ∨
    (∃ point ∈ points, HasAddress ranges j point) ∨
    ∃ patch ∈ patches, HasAddress ranges j patch.start

/-- An instruction of a range. -/
def InstOf (s : SectionCode) (r : DolLLVMFunctionRange) (inst : PPCInst) : Prop :=
  ∃ k raw, r.start.toNat + 4*k < r.limit.toNat ∧
    s.word (r.start + BitVec.ofNat 32 (4*k)) = some raw ∧
    inst = ppcDecode raw (r.start + BitVec.ofNat 32 (4*k))

/-- A range that is not a patch, and its section. -/
def Expands (i : ℕ) (r : DolLLVMFunctionRange) (s : SectionCode) : Prop :=
  ranges[i]? = some r ∧ llvmPatchForStart patches r.start = none ∧
    llvmSectionForRange sections r = some s

/-- A branch with a link goes from one range to another. -/
def CallEdge (i j : ℕ) : Prop :=
  ∃ r s, Expands sections ranges patches i r s ∧ ∃ inst, InstOf s r inst ∧
    (inst.op = .b ∨ inst.op = .bc) ∧ inst.lk = true ∧ HasAddress ranges j inst.branchTarget

/-- Control goes from one range to another by a branch without a link, behind a branch, or over the
end of the range. -/
def SuccessorEdge (i j : ℕ) : Prop :=
  ∃ r s, Expands sections ranges patches i r s ∧
    ((∃ inst, InstOf s r inst ∧
      (((inst.op = .b ∨ inst.op = .bc) ∧ ¬inst.lk = true ∧
        HasAddress ranges j inst.branchTarget) ∨
      ((inst.op = .bc ∨ inst.op = .bclr ∨ inst.op = .bcctr) ∧
        llvmProfileInstructionHasFallthrough inst = true ∧
        HasAddress ranges j (inst.address + 4)))) ∨
    (r.start < r.limit ∧ r.limit < codeEnd s.toLoadedCodeSection ∧
      ∃ last, llvmDecodeAt sections (r.limit - 4) = .ok (some last) ∧
        llvmProfileInstructionHasFallthrough last = true ∧ HasAddress ranges j r.limit))

/-- The closure over the calls, and over it the closure over the successors. -/
def Selected (lines : List ProfileLine) (seeds : List ℕ) (points : List (BitVec 32)) : ℕ → Prop :=
  Within (SuccessorEdge sections ranges patches) options.successorClosureDepth.toNat
    (Within (CallEdge sections ranges patches) options.callClosureDepth.toNat
      (Wanted ranges options patches lines seeds points))

end

section

variable {sections : List SectionCode} {ranges : List DolLLVMFunctionRange}
  {options : ProfileOptions} {patches : List DolLLVMPatch}

theorem HasAddress.lt {i : ℕ} {address : BitVec 32} (h : HasAddress ranges i address) :
    i < ranges.length := by
  obtain ⟨r,hr,-⟩ := h
  exact (List.getElem?_eq_some_iff.mp hr).1

theorem llvmRangeIndexFor_some {address : BitVec 32} {i : ℕ}
    (h : llvmRangeIndexFor ranges address = some i) : HasAddress ranges i address := by
  obtain ⟨⟨r,k⟩,hfind,rfl⟩ := Option.map_eq_some_iff.mp h
  obtain ⟨⟨n,-,-,hget⟩,hstart,hlimit⟩ := Bisection.find_some hfind
  rw [List.getElem?_zipIdx,Option.map_eq_some_iff] at hget
  obtain ⟨r',hr,heq⟩ := hget
  obtain ⟨rfl,rfl⟩ := Prod.mk.inj heq
  rw [← Nat.zero_add n] at hr
  exact ⟨r',hr,BitVec.le_def.mpr hstart,BitVec.lt_def.mpr hlimit⟩

theorem llvmRangeIndexFor_iff (h : InOrder ranges) {address : BitVec 32} {i : ℕ} :
    llvmRangeIndexFor ranges address = some i ↔ HasAddress ranges i address := by
  refine ⟨llvmRangeIndexFor_some,?_⟩
  rintro ⟨r,hr,hstart,hlimit⟩
  have hlen := (List.getElem?_eq_some_iff.mp hr).1
  have hget : ranges.zipIdx[i]? = some (r,i) := by
    rw [List.getElem?_zipIdx,hr,Option.map_some,Nat.zero_add]
  have hsorted : ranges.zipIdx.Pairwise fun a b => a.1.limit.toNat ≤ b.1.start.toNat := by
    have hfirst := h.sorted
    rw [← List.zipIdx_map_fst 0 ranges,List.pairwise_map] at hfirst
    exact hfirst.imp BitVec.le_def.mp
  rw [llvmRangeIndexFor,Bisection.find_of_sorted (fun p hp => ?_) hsorted
    (by rw [List.length_zipIdx]) (Nat.zero_le _) hlen hget (BitVec.le_def.mp hstart)
    (BitVec.lt_def.mp hlimit),Option.map_some]
  exact BitVec.le_def.mp (h.forward _ (List.fst_mem_of_mem_zipIdx hp))

theorem Touching.lt {a b : ℕ} (h : Touching ranges a b) :
    a < ranges.length ∧ b < ranges.length := by
  unfold Touching at h
  split at h
  next ha hb => exact ⟨(List.getElem?_eq_some_iff.mp ha).1,(List.getElem?_eq_some_iff.mp hb).1⟩
  next => exact h.elim

/-- The ranges that a walk to the left comes to. -/
def LeftOf (ranges : List DolLLVMFunctionRange) (steps left j : ℕ) : Prop :=
  ∃ k, 0 < k ∧ k ≤ steps ∧ j + k = left ∧ Chain ranges j k

/-- The ranges that a walk to the right comes to. -/
def RightOf (ranges : List DolLLVMFunctionRange) (steps right j : ℕ) : Prop :=
  ∃ k, 0 < k ∧ k ≤ steps ∧ right + k = j ∧ Chain ranges right k

theorem leftNeighbor_some {left l : ℕ} :
    leftNeighbor ranges left = some l ↔ left = l + 1 ∧ Touching ranges l (l + 1) := by
  unfold leftNeighbor
  constructor
  · intro h
    split at h
    next hl =>
      cases h
      have heq : left = left - 1 + 1 := by omega
      exact ⟨heq,heq ▸ hl.2⟩
    next => cases h
  · rintro ⟨rfl,h⟩
    exact if_pos ⟨Nat.succ_ne_zero _,h⟩

theorem rightNeighbor_some {right r : ℕ} :
    rightNeighbor ranges right = some r ↔ r = right + 1 ∧ Touching ranges right (right + 1) := by
  unfold rightNeighbor
  constructor
  · intro h
    split at h
    next hr =>
      cases h
      exact ⟨rfl,hr⟩
    next => cases h
  · rintro ⟨rfl,h⟩
    exact if_pos h

theorem leftOf_succ {steps left j : ℕ} : LeftOf ranges (steps + 1) left j ↔
    j ∈ (leftNeighbor ranges left).toList ∨
      LeftOf ranges steps ((leftNeighbor ranges left).getD left) j := by
  rw [Option.mem_toList]
  constructor
  · rintro ⟨k,hpos,hk,rfl,hchain⟩
    obtain ⟨k,rfl⟩ := Nat.exists_eq_succ_of_ne_zero hpos.ne'
    have hl : leftNeighbor ranges (j + k.succ) = some (j + k) :=
      leftNeighbor_some.mpr ⟨rfl,hchain k (Nat.lt_succ_self k)⟩
    rw [hl]
    cases k with
    | zero => exact .inl rfl
    | succ k =>
      exact .inr ⟨k+1,Nat.succ_pos k,Nat.le_of_succ_le_succ hk,rfl,fun t ht => hchain t (by omega)⟩
  · cases hl : leftNeighbor ranges left with
    | none =>
      rintro (h | ⟨k,hpos,hk,heq,hchain⟩)
      · cases h
      · exact ⟨k,hpos,Nat.le_succ_of_le hk,heq,hchain⟩
    | some l =>
      obtain ⟨rfl,htouch⟩ := leftNeighbor_some.mp hl
      rintro (h | ⟨k,-,hk,rfl,hchain⟩)
      · cases h
        refine ⟨1,Nat.one_pos,by omega,rfl,fun t ht => ?_⟩
        obtain rfl : t = 0 := by omega
        exact htouch
      · refine ⟨k+1,Nat.succ_pos k,by omega,rfl,fun t ht => ?_⟩
        rcases Nat.lt_succ_iff_lt_or_eq.mp ht with ht | rfl
        · exact hchain t ht
        · exact htouch

theorem rightOf_succ {steps right j : ℕ} : RightOf ranges (steps + 1) right j ↔
    j ∈ (rightNeighbor ranges right).toList ∨
      RightOf ranges steps ((rightNeighbor ranges right).getD right) j := by
  rw [Option.mem_toList]
  constructor
  · rintro ⟨k,hpos,hk,rfl,hchain⟩
    obtain ⟨k,rfl⟩ := Nat.exists_eq_succ_of_ne_zero hpos.ne'
    have hr : rightNeighbor ranges right = some (right + 1) :=
      rightNeighbor_some.mpr ⟨rfl,hchain 0 hpos⟩
    rw [hr]
    cases k with
    | zero => exact .inl rfl
    | succ k =>
      refine .inr ⟨k+1,Nat.succ_pos k,Nat.le_of_succ_le_succ hk,
        show right + 1 + (k + 1) = _ by omega,fun t ht => ?_⟩
      have := hchain (t + 1) (by omega)
      rwa [show right + (t + 1) = right + 1 + t by omega] at this
  · cases hr : rightNeighbor ranges right with
    | none =>
      rintro (h | ⟨k,hpos,hk,heq,hchain⟩)
      · cases h
      · exact ⟨k,hpos,Nat.le_succ_of_le hk,heq,hchain⟩
    | some r =>
      obtain ⟨rfl,htouch⟩ := rightNeighbor_some.mp hr
      rintro (h | ⟨k,-,hk,rfl,hchain⟩)
      · cases h
        refine ⟨1,Nat.one_pos,by omega,rfl,fun t ht => ?_⟩
        obtain rfl : t = 0 := by omega
        exact htouch
      · refine ⟨k+1,Nat.succ_pos k,by omega,show _ = right + 1 + k by omega,fun t ht => ?_⟩
        cases t with
        | zero => exact htouch
        | succ t =>
          rw [show right + (t + 1) = right + 1 + t by omega]
          exact hchain t (by omega)

theorem addNeighbors_selected (steps left right : ℕ) (m : Marks ℕ) (j : ℕ) :
    (addNeighbors ranges steps left right m).selected j = true ↔
      m.selected j = true ∨ LeftOf ranges steps left j ∨ RightOf ranges steps right j := by
  induction steps generalizing left right m with
  | zero =>
    refine ⟨.inl,?_⟩
    rintro (h | ⟨k,hpos,hk,-⟩ | ⟨k,hpos,hk,-⟩)
    · exact h
    · omega
    · omega
  | succ steps ih =>
    rw [addNeighbors,ih,addAll_selected,addAll_selected,leftOf_succ,rightOf_succ]
    tauto

theorem addNeighbors_good {pending : List ℕ} (steps left right : ℕ) {m : Marks ℕ}
    (h : Good (· < ranges.length) pending m) :
    Good (· < ranges.length) pending (addNeighbors ranges steps left right m) := by
  induction steps generalizing left right m with
  | zero => exact h
  | succ steps ih =>
    refine ih _ _ ((h.addAll fun l hl => ?_).addAll fun r hr => ?_)
    · exact (leftNeighbor_some.mp (Option.mem_toList.mp hl)).2.lt.1
    · obtain ⟨rfl,htouch⟩ := rightNeighbor_some.mp (Option.mem_toList.mp hr)
      exact htouch.lt.2

theorem neighbor_iff {n i j : ℕ} :
    Neighbor ranges n i j ↔ j = i ∨ LeftOf ranges n i j ∨ RightOf ranges n i j := by
  constructor
  · rintro ⟨k,hk,h⟩
    rcases Nat.eq_zero_or_pos k with rfl | hpos
    · exact .inl (h.elim And.left fun h => h.1.symm)
    · exact .inr (h.imp (fun h => ⟨k,hpos,hk,h⟩) fun h => ⟨k,hpos,hk,h⟩)
  · rintro (rfl | ⟨k,-,hk,h⟩ | ⟨k,-,hk,h⟩)
    · exact ⟨0,Nat.zero_le n,.inl ⟨rfl,fun t ht => absurd ht (Nat.not_lt_zero t)⟩⟩
    · exact ⟨k,hk,.inl h⟩
    · exact ⟨k,hk,.inr h⟩

theorem queueSeeds_fold {neighbors : BitVec 32} {seeds : List ℕ} {m : Marks ℕ}
    (h : Good (· < ranges.length) seeds m) :
    Good (· < ranges.length) [] (seeds.foldl (queueSeed ranges neighbors) m) ∧
      ∀ j, (seeds.foldl (queueSeed ranges neighbors) m).selected j = true ↔ m.selected j = true ∨
        ∃ i ∈ seeds, LeftOf ranges neighbors.toNat i j ∨ RightOf ranges neighbors.toNat i j := by
  induction seeds generalizing m with
  | nil => exact ⟨h,fun j => by simp⟩
  | cons i seeds ih =>
    have hi : Good (· < ranges.length) seeds (queueSeed ranges neighbors m i) :=
      addNeighbors_good _ _ _ h.push
    refine ⟨(ih hi).1,fun j => ?_⟩
    rw [List.foldl_cons,(ih hi).2,queueSeed,addNeighbors_selected,List.exists_mem_cons_iff,or_assoc]

theorem queueSeeds_spec {neighbors : BitVec 32} {seeds : List ℕ} (hnodup : seeds.Nodup)
    (hlt : ∀ i ∈ seeds, i < ranges.length) :
    Good (· < ranges.length) [] (queueSeeds ranges neighbors seeds) ∧
      ∀ j, (queueSeeds ranges neighbors seeds).selected j = true ↔
        ∃ i ∈ seeds, Neighbor ranges neighbors.toNat i j := by
  obtain ⟨hgood,hselected⟩ := @queueSeeds_fold ranges neighbors seeds
    ⟨fun i => decide (i ∈ seeds),[]⟩ ⟨hnodup,fun i => by simp,hlt⟩
  refine ⟨hgood,fun j => ?_⟩
  rw [queueSeeds,hselected]
  simp only [neighbor_iff,decide_eq_true_eq,and_or_left,exists_or,exists_eq_right']

theorem coverSamples_prefix (below : BitVec 64 → Bool) (covered : BitVec 64) (first : Bool)
    (hot : List LLVMHotRange) :
    coverSamples below covered first hot <+: hot.map (·.rangeIndex) := by
  induction hot generalizing covered first with
  | nil => exact List.prefix_rfl
  | cons h hot ih =>
    rw [coverSamples]
    split
    · exact List.prefix_cons_inj _ |>.mpr (ih _ _)
    · exact List.nil_prefix

theorem eligible_nodup (minimum : BitVec 32) (weights : ℕ → BitVec 64) :
    (eligible ranges minimum weights).Nodup := List.nodup_range.filter _

theorem eligible_lt {minimum : BitVec 32} {weights : ℕ → BitVec 64} {i : ℕ}
    (h : i ∈ eligible ranges minimum weights) : i < ranges.length :=
  List.mem_range.mp (List.mem_filter.mp h).1

/-- The seeds are some of the ranges whose samples are enough, each once. -/
theorem hotSeeds_spec {lines : List ProfileLine} {seeds : List ℕ}
    (h : hotSeeds ranges options lines = some seeds) :
    seeds.Nodup ∧ ∀ i ∈ seeds, i ∈ eligible ranges options.minSamples
      (profileWeights ranges options lines).weights := by
  unfold hotSeeds at h
  dsimp only at h
  split at h
  next => cases h
  next =>
    obtain rfl := Option.some.inj h
    generalize hweights : (profileWeights ranges options lines).weights = weights
    have hperm := ((List.perm_insertionSort hotBefore
      ((eligible ranges options.minSamples weights).map fun i => LLVMHotRange.mk i (weights i))).map
      (·.rangeIndex))
    rw [List.map_map,show (fun h : LLVMHotRange => h.rangeIndex) ∘
      (fun i => LLVMHotRange.mk i (weights i)) = id from rfl,List.map_id] at hperm
    have hinit := fun below => coverSamples_prefix below 0 true
      (List.insertionSort hotBefore
        ((eligible ranges options.minSamples weights).map fun i => LLVMHotRange.mk i (weights i)))
    exact ⟨(hperm.nodup_iff.mpr (eligible_nodup _ _)).sublist (hinit _).sublist,
      fun i hi => hperm.mem_iff.mp ((hinit _).subset hi)⟩

theorem rangeInsts_endless {s : SectionCode} {limit : BitVec 32} {fuel : ℕ} {address : BitVec 32}
    (h : ∀ j : ℕ, (address.toNat + 4*j) % 2^32 < limit.toNat) (insts : List PPCInst) :
    rangeInsts s limit fuel address ≠ .ok insts := by
  induction fuel generalizing address insts with
  | zero => exact fun h => by cases h
  | succ fuel ih =>
    have hlt : address < limit := BitVec.lt_def.mpr (by have := h 0; omega)
    intro hok
    rw [rangeInsts,if_pos hlt] at hok
    cases hword : s.word address with
    | none =>
      rw [hword] at hok
      cases hok
    | some raw =>
      rw [hword] at hok
      cases hrest : rangeInsts s limit fuel (address + 4) with
      | error e =>
        rw [hrest] at hok
        cases hok
      | ok rest =>
        refine ih (fun j => ?_) rest hrest
        have := h (j + 1)
        rw [BitVec.toNat_add,show (4 : BitVec 32).toNat = 4 from rfl]
        omega

theorem rangeInsts_mem {s : SectionCode} {limit : BitVec 32} {fuel : ℕ} {address : BitVec 32}
    {insts : List PPCInst} (h : rangeInsts s limit fuel address = .ok insts) (inst : PPCInst) :
    inst ∈ insts ↔ ∃ k raw, address.toNat + 4*k < limit.toNat ∧
      s.word (address + BitVec.ofNat 32 (4*k)) = some raw ∧
      inst = ppcDecode raw (address + BitVec.ofNat 32 (4*k)) := by
  induction fuel generalizing address insts with
  | zero => cases h
  | succ fuel ih =>
    rw [rangeInsts] at h
    split at h
    next hlt =>
      have hlt := BitVec.lt_def.mp hlt
      have hzero : address + BitVec.ofNat 32 (4*0) = address := BitVec.add_zero address
      cases hword : s.word address with
      | none =>
        rw [hword] at h
        cases h
      | some raw =>
        rw [hword] at h
        cases hrest : rangeInsts s limit fuel (address + 4) with
        | error e =>
          rw [hrest] at h
          cases h
        | ok rest =>
          rw [hrest] at h
          obtain rfl : ppcDecode raw address :: rest = insts := Except.ok.inj h
          have hnext : (address + 4).toNat = (address.toNat + 4) % 2^32 := BitVec.toNat_add _ _
          have hnowrap : address.toNat + 4 < 2^32 := by
            by_contra hwrap
            refine rangeInsts_endless (fun j => ?_) rest hrest
            have := address.isLt
            omega
          have hshift : ∀ k, address + 4 + BitVec.ofNat 32 (4*k) =
              address + BitVec.ofNat 32 (4*(k+1)) := by
            intro k
            rw [BitVec.add_assoc,show (4 : BitVec 32) = BitVec.ofNat 32 4 from rfl,
              ← BitVec.ofNat_add,Nat.mul_succ,Nat.add_comm]
          rw [List.mem_cons,ih hrest]
          constructor
          · rintro (rfl | ⟨k,raw',hk,hraw,rfl⟩)
            · exact ⟨0,raw,hlt,hzero.symm ▸ hword,by rw [hzero]⟩
            · rw [hshift] at hraw ⊢
              exact ⟨k+1,raw',by omega,hraw,rfl⟩
          · rintro ⟨k,raw',hk,hraw,rfl⟩
            cases k with
            | zero =>
              rw [hzero] at hraw ⊢
              rw [hword] at hraw
              cases hraw
              exact .inl rfl
            | succ k =>
              refine .inr ⟨k,raw',by omega,?_,?_⟩
              · rw [hshift]
                exact hraw
              · rw [hshift]
    next hge =>
      cases h
      refine iff_of_false List.not_mem_nil ?_
      rintro ⟨k,raw,hk,-⟩
      exact hge (BitVec.lt_def.mpr (by omega))

section

variable {targets : PPCInst → List (BitVec 32)}
  {behind : SectionCode → DolLLVMFunctionRange → Except SelectStop (List (BitVec 32))}
  {i : ℕ} {items : List ℕ}

theorem expandRange_ok (h : expandRange sections ranges patches targets behind i = .ok items) :
    items = [] ∧ (∀ r s, ¬Expands sections ranges patches i r s) ∨
      ∃ (r : _) (s : _) (insts : List PPCInst) (last : List (BitVec 32)),
        Expands sections ranges patches i r s ∧
        (∀ inst, inst ∈ insts ↔ InstOf s r inst) ∧ behind s r = .ok last ∧
        items = (insts.flatMap targets ++ last).filterMap (llvmRangeIndexFor ranges) := by
  unfold expandRange at h
  cases hr : ranges[i]? with
  | none =>
    rw [hr] at h
    cases h
  | some r =>
    rw [hr] at h
    dsimp only at h
    cases hpatch : llvmPatchForStart patches r.start with
    | some patch =>
      rw [hpatch,Option.isSome_some,if_pos rfl] at h
      cases h
      refine .inl ⟨rfl,fun r' s hexp => ?_⟩
      obtain rfl := Option.some.inj (hr.symm.trans hexp.1)
      exact absurd (hpatch.symm.trans hexp.2.1) (by simp)
    | none =>
      rw [hpatch,Option.isSome_none,if_neg Bool.false_ne_true] at h
      cases hs : llvmSectionForRange sections r with
      | none =>
        rw [hs] at h
        cases h
        refine .inl ⟨rfl,fun r' s hexp => ?_⟩
        obtain rfl := Option.some.inj (hr.symm.trans hexp.1)
        exact absurd (hs.symm.trans hexp.2.2) (by simp)
      | some s =>
        rw [hs] at h
        dsimp only at h
        cases hinsts : rangeInsts s r.limit (addressRounds + 1) r.start with
        | error e =>
          rw [hinsts] at h
          cases h
        | ok insts =>
          rw [hinsts] at h
          cases hlast : behind s r with
          | error e =>
            rw [hlast] at h
            cases h
          | ok last =>
            rw [hlast] at h
            cases h
            exact .inr ⟨r,s,insts,last,⟨hr,hpatch,hs⟩,rangeInsts_mem hinsts,hlast,rfl⟩

theorem expandRange_lt (h : expandRange sections ranges patches targets behind i = .ok items) :
    ∀ j ∈ items, j < ranges.length := by
  intro j hj
  rcases expandRange_ok h with ⟨rfl,-⟩ | ⟨r,s,insts,last,-,-,-,rfl⟩
  · cases hj
  · obtain ⟨address,-,hj⟩ := List.mem_filterMap.mp hj
    exact (llvmRangeIndexFor_some hj).lt

theorem expandRange_mem (hsorted : InOrder ranges)
    (h : expandRange sections ranges patches targets behind i = .ok items) (j : ℕ) :
    j ∈ items ↔ ∃ r s, Expands sections ranges patches i r s ∧
      ((∃ inst, InstOf s r inst ∧ ∃ address ∈ targets inst, HasAddress ranges j address) ∨
        ∃ last, behind s r = .ok last ∧ ∃ address ∈ last, HasAddress ranges j address) := by
  rcases expandRange_ok h with ⟨rfl,hnone⟩ | ⟨r,s,insts,last,hexp,hinsts,hlast,rfl⟩
  · exact iff_of_false List.not_mem_nil fun ⟨r,s,hexp,_⟩ => hnone r s hexp
  · rw [List.mem_filterMap]
    simp only [llvmRangeIndexFor_iff hsorted]
    constructor
    · rintro ⟨address,hm,hj⟩
      rcases List.mem_append.mp hm with hm | hm
      · obtain ⟨inst,hinst,hm⟩ := List.mem_flatMap.mp hm
        exact ⟨r,s,hexp,.inl ⟨inst,(hinsts inst).mp hinst,address,hm,hj⟩⟩
      · exact ⟨r,s,hexp,.inr ⟨last,hlast,address,hm,hj⟩⟩
    · rintro ⟨r',s',hexp',h⟩
      obtain rfl := Option.some.inj (hexp.1.symm.trans hexp'.1)
      obtain rfl := Option.some.inj (hexp.2.2.symm.trans hexp'.2.2)
      rcases h with ⟨inst,hinst,address,hm,hj⟩ | ⟨last',hlast',address,hm,hj⟩
      · exact ⟨address,List.mem_append_left _
          (List.mem_flatMap.mpr ⟨inst,(hinsts inst).mpr hinst,hm⟩),hj⟩
      · obtain rfl := Except.ok.inj (hlast.symm.trans hlast')
        exact ⟨address,List.mem_append_right _ hm,hj⟩

end

theorem mem_linkedTargets {inst : PPCInst} {address : BitVec 32} :
    address ∈ linkedTargets inst ↔
      (inst.op = .b ∨ inst.op = .bc) ∧ inst.lk = true ∧ address = inst.branchTarget := by
  unfold linkedTargets
  split
  next h =>
    refine iff_of_false List.not_mem_nil ?_
    rintro ⟨hop,hlk,-⟩
    exact h.elim (fun h => hop.elim h.1 h.2) fun h => h hlk
  next h =>
    rw [not_or,not_not,not_and_or,not_not,not_not] at h
    rw [List.mem_singleton]
    exact ⟨fun ha => ⟨h.1,h.2,ha⟩,fun ha => ha.2.2⟩

theorem mem_if {p : Prop} [Decidable p] {a b : BitVec 32} :
    a ∈ (if p then [b] else []) ↔ p ∧ a = b := by
  split
  next h => simp [h]
  next h => simp [h]

theorem mem_behindRange {s : SectionCode} {r : DolLLVMFunctionRange} {address : BitVec 32} :
    (∃ last, behindRange sections s r = .ok last ∧ address ∈ last) ↔
      r.start < r.limit ∧ r.limit < codeEnd s.toLoadedCodeSection ∧
        ∃ last, llvmDecodeAt sections (r.limit - 4) = .ok (some last) ∧
          llvmProfileInstructionHasFallthrough last = true ∧ address = r.limit := by
  unfold behindRange
  split
  next h =>
    cases hdecode : llvmDecodeAt sections (r.limit - 4) with
    | error e =>
      refine iff_of_false ?_ ?_
      · rintro ⟨last,hlast,-⟩
        cases hlast
      · rintro ⟨-,-,last,hlast,-⟩
        cases hlast
    | ok found =>
      cases found with
      | none =>
        refine iff_of_false ?_ ?_
        · rintro ⟨last,hlast,hm⟩
          cases hlast
          cases hm
        · rintro ⟨-,-,last,hlast,-⟩
          cases hlast
      | some inst =>
        constructor
        · rintro ⟨last,hlast,hm⟩
          cases hlast
          exact ⟨h.1,h.2,inst,rfl,mem_if.mp hm⟩
        · rintro ⟨-,-,last,hlast,hm⟩
          cases hlast
          exact ⟨_,rfl,mem_if.mpr hm⟩
  next h =>
    refine iff_of_false ?_ fun hr => h ⟨hr.1,hr.2.1⟩
    rintro ⟨last,hlast,hm⟩
    cases hlast
    cases hm

section

variable (hsorted : InOrder ranges)

include hsorted in
theorem callTargets_mem {i : ℕ} {items : List ℕ}
    (h : callTargets sections ranges patches i = .ok items) (j : ℕ) :
    j ∈ items ↔ CallEdge sections ranges patches i j := by
  rw [expandRange_mem hsorted h]
  refine exists_congr fun r => exists_congr fun s => and_congr_right fun _ => ?_
  constructor
  · rintro (⟨inst,hinst,address,hm,hj⟩ | ⟨last,hlast,address,hm,-⟩)
    · obtain ⟨hop,hlk,rfl⟩ := mem_linkedTargets.mp hm
      exact ⟨inst,hinst,hop,hlk,hj⟩
    · cases hlast
      cases hm
  · rintro ⟨inst,hinst,hop,hlk,hj⟩
    exact .inl ⟨inst,hinst,_,mem_linkedTargets.mpr ⟨hop,hlk,rfl⟩,hj⟩

include hsorted in
theorem successors_mem {i : ℕ} {items : List ℕ}
    (h : successors sections ranges patches i = .ok items) (j : ℕ) :
    j ∈ items ↔ SuccessorEdge sections ranges patches i j := by
  rw [expandRange_mem hsorted h]
  refine exists_congr fun r => exists_congr fun s => and_congr_right fun _ => or_congr ?_ ?_
  · refine exists_congr fun inst => and_congr_right fun _ => ?_
    simp only [successorTargets,List.mem_append,mem_if,or_and_right,exists_or,and_assoc]
    simp only [exists_and_left,exists_eq_left]
  · constructor
    · rintro ⟨last,hlast,address,hm,hj⟩
      obtain ⟨h1,h2,inst,hinst,hfall,rfl⟩ := mem_behindRange.mp ⟨last,hlast,hm⟩
      exact ⟨h1,h2,inst,hinst,hfall,hj⟩
    · rintro ⟨h1,h2,inst,hinst,hfall,hj⟩
      obtain ⟨last,hlast,hm⟩ := mem_behindRange.mpr ⟨h1,h2,inst,hinst,hfall,rfl⟩
      exact ⟨last,hlast,_,hm,hj⟩

theorem foldl_selectAddress (points : List (BitVec 32)) (m : Marks ℕ) :
    points.foldl (llvmProfileSelectAddress ranges) m =
      m.addAll (points.filterMap (llvmRangeIndexFor ranges)) := by
  induction points generalizing m with
  | nil => rfl
  | cons point points ih =>
    rw [List.foldl_cons,ih,List.filterMap_cons,llvmProfileSelectAddress]
    cases llvmRangeIndexFor ranges point <;> rfl

theorem startMarks_good {lines : List ProfileLine} {seeds : List ℕ} (points : List (BitVec 32))
    (h : hotSeeds ranges options lines = some seeds) :
    Good (· < ranges.length) [] (startMarks ranges options patches lines seeds points) := by
  have hseeds := hotSeeds_spec h
  have hlt : ∀ points : List (BitVec 32), ∀ i ∈ points.filterMap (llvmRangeIndexFor ranges),
      i < ranges.length := by
    intro points i hi
    obtain ⟨point,-,hi⟩ := List.mem_filterMap.mp hi
    exact (llvmRangeIndexFor_some hi).lt
  rw [startMarks,foldl_selectAddress,foldl_selectAddress]
  exact (((queueSeeds_spec hseeds.1 fun i hi => eligible_lt (hseeds.2 i hi)).1.addAll
    fun i hi => eligible_lt hi).addAll (hlt _)).addAll (hlt _)

include hsorted in
theorem startMarks_selected {lines : List ProfileLine} {seeds : List ℕ}
    (points : List (BitVec 32)) (h : hotSeeds ranges options lines = some seeds) (j : ℕ) :
    (startMarks ranges options patches lines seeds points).selected j = true ↔
      Wanted ranges options patches lines seeds points j := by
  have hseeds := hotSeeds_spec h
  rw [startMarks,foldl_selectAddress,foldl_selectAddress,addAll_selected,addAll_selected,
    addAll_selected,(queueSeeds_spec hseeds.1 fun i hi => eligible_lt (hseeds.2 i hi)).2,Wanted,
    or_assoc,or_assoc]
  simp only [List.mem_filterMap,llvmRangeIndexFor_iff hsorted,List.mem_map,exists_exists_and_eq_and]

/-- Whenever a run ends, no range is in the queue twice. The queue only grows, so that this held
all the time. -/
theorem markRanges_good (lines : List ProfileLine) (forced : Option (List (BitVec 32))) :
    Good (· < ranges.length) []
      (markRanges sections ranges options patches lines forced).last := by
  unfold markRanges
  cases hseeds : hotSeeds ranges options lines with
  | none =>
    exact ⟨.nil,fun i => by simp [Outcome.last],fun i hi => by simp [Outcome.last] at hi⟩
  | some seeds =>
    cases forced with
    | none => exact startMarks_good [] hseeds
    | some points =>
      have hstart : Good _ [] (startMarks ranges options patches lines seeds points) :=
        startMarks_good points hseeds
      have hcalls : Good _ [] (levels (callTargets sections ranges patches)
          options.callClosureDepth.toNat 0 _).last :=
        levels_good (fun i items h => expandRange_lt h) _ _ hstart
      dsimp only
      cases hrun : levels (callTargets sections ranges patches) options.callClosureDepth.toNat 0
          (startMarks ranges options patches lines seeds points) with
      | error stopped =>
        rw [hrun] at hcalls
        exact hcalls
      | ok m =>
        rw [hrun] at hcalls
        exact levels_good (fun i items h => expandRange_lt h) _ 0 hcalls

include hsorted in
theorem markRanges_selected {lines : List ProfileLine} {forced : Option (List (BitVec 32))}
    {m : Marks ℕ} (h : markRanges sections ranges options patches lines forced = .ok m) :
    ∃ seeds points, hotSeeds ranges options lines = some seeds ∧ forced = some points ∧
      ∀ j, m.selected j = true ↔
        Selected sections ranges options patches lines seeds points j := by
  unfold markRanges at h
  cases hseeds : hotSeeds ranges options lines with
  | none =>
    rw [hseeds] at h
    cases h
  | some seeds =>
    rw [hseeds] at h
    cases forced with
    | none => cases h
    | some points =>
      refine ⟨seeds,points,rfl,rfl,fun j => ?_⟩
      have hstart : Good _ [] (startMarks ranges options patches lines seeds points) :=
        startMarks_good points hseeds
      have hcalls : Good _ [] (levels (callTargets sections ranges patches)
          options.callClosureDepth.toNat 0 _).last :=
        levels_good (fun i items h => expandRange_lt h) _ _ hstart
      dsimp only at h
      cases hrun : levels (callTargets sections ranges patches) options.callClosureDepth.toNat 0
          (startMarks ranges options patches lines seeds points) with
      | error stopped =>
        rw [hrun] at h
        cases h
      | ok m₁ =>
        rw [hrun] at h hcalls
        change Good _ [] m₁ at hcalls
        have hnone : ∀ (edge : ℕ → ℕ → Prop) (m : Marks ℕ), ∀ a ∈ m.queue.take 0, ∀ b,
            edge a b → m.selected b = true := by
          intro edge m a ha
          cases ha
        rw [levels_selected (fun _ _ h => successors_mem hsorted h)
          (fun i items h => expandRange_lt h) hcalls (hnone _ m₁) h,Selected]
        refine within_congr fun i => ?_
        rw [levels_selected (fun _ _ h => callTargets_mem hsorted h)
          (fun i items h => expandRange_lt h) hstart (hnone _ _) hrun]
        exact within_congr fun i => startMarks_selected hsorted points hseeds i

end

end

/-- The selection keeps, in their order, the ranges that are wanted or in reach of these, and its
queue has every range at most once. -/
theorem select_profiled_llvm_ranges (sections : List SectionCode)
    (ranges : List DolLLVMFunctionRange) (options : ProfileOptions) (patches : List DolLLVMPatch)
    (lines : List ProfileLine) (forced : Option (List (BitVec 32))) (hsorted : InOrder ranges) :
    ((markRanges sections ranges options patches lines forced).last.queue.Nodup ∧
      (markRanges sections ranges options patches lines forced).last.queue.length ≤
        ranges.length) ∧
    ∀ result, selectProfiledLlvmRanges sections ranges options patches (.lines lines) forced =
      .ok result → ∃ seeds points, hotSeeds ranges options lines = some seeds ∧
        forced = some points ∧ result.Sublist ranges ∧ ∃ chosen : ℕ → Bool,
          (∀ j, chosen j = true ↔
            Selected sections ranges options patches lines seeds points j) ∧
          result = (ranges.zipIdx.filter fun p => chosen p.2).map Prod.fst := by
  have hgood := @markRanges_good sections ranges options patches lines forced
  refine ⟨⟨by simpa using hgood.nodup,hgood.length_le⟩,fun result h => ?_⟩
  unfold selectProfiledLlvmRanges at h
  dsimp only at h
  cases hmarks : markRanges sections ranges options patches lines forced with
  | error stopped =>
    rw [hmarks] at h
    cases h
  | ok m =>
    rw [hmarks] at h
    obtain rfl := Except.ok.inj h
    obtain ⟨seeds,points,hseeds,hforced,hselected⟩ := markRanges_selected hsorted hmarks
    refine ⟨seeds,points,hseeds,hforced,?_,m.selected,hselected,rfl⟩
    have hsub := (List.filter_sublist (p := fun p => m.selected p.2) (l := ranges.zipIdx)).map
      Prod.fst
    rwa [List.zipIdx_map_fst] at hsub

/-- A hot call over a range to a return. -/
def callOver : SectionCode :=
  { address := 0x80003100, size := 12,
    data := some (.ofList [0x48,0,0,9,0x60,0,0,0,0x4E,0x80,0,0x20]) }

def callOverRanges : List DolLLVMFunctionRange :=
  [⟨0x80003100,0x80003104⟩,⟨0x80003104,0x80003108⟩,⟨0x80003108,0x8000310C⟩]

def callOverOptions : ProfileOptions where
  minSamples := 1
  missMinSamples := 1
  neighbors := 0
  callClosureDepth := 1
  successorClosureDepth := 0
  belowCoverage covered eligible := covered.toNat*100 < eligible.toNat*99

def callOverLines : List ProfileLine := [⟨"native_cycles",0x80003100,5⟩]

theorem select_profiled_llvm_ranges_call :
    ((markRanges [callOver] callOverRanges callOverOptions [] callOverLines
        (some [])).last.queue.Nodup ∧
      (markRanges [callOver] callOverRanges callOverOptions [] callOverLines
        (some [])).last.queue.length ≤ callOverRanges.length) ∧
    ∃ seeds points, hotSeeds callOverRanges callOverOptions callOverLines = some seeds ∧
      some [] = some points ∧
      [⟨0x80003100,0x80003104⟩,⟨0x80003108,0x8000310C⟩].Sublist callOverRanges ∧
      ∃ chosen : ℕ → Bool,
        (∀ j, chosen j = true ↔
          Selected [callOver] callOverRanges callOverOptions [] callOverLines seeds points j) ∧
        [⟨0x80003100,0x80003104⟩,⟨0x80003108,0x8000310C⟩] =
          (callOverRanges.zipIdx.filter fun p => chosen p.2).map Prod.fst := by
  have hsorted : InOrder callOverRanges := ⟨by decide,by decide⟩
  obtain ⟨hqueue,hresult⟩ := select_profiled_llvm_ranges [callOver] callOverRanges callOverOptions
    [] callOverLines (some []) hsorted
  exact ⟨hqueue,hresult [⟨0x80003100,0x80003104⟩,⟨0x80003108,0x8000310C⟩] (by decide +kernel)⟩

end Llvm

end DolRecomp
