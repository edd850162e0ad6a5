import DolRecomp.PatchLoading
import DolRecomp.SymbolHeader
import Mathlib.Data.List.DropRight

/-!
# Partition points

The points where the code of the LLVM backend is cut: entries, symbols, call targets and the words
behind returns, what a profile and a file ask for, and the ends of the patches. Each source is
sorted in with the ones before it.
-/

namespace DolRecomp

namespace Llvm

open Disc Symbols

/-- The loop that keeps the first of equal neighbours, behind `last`. -/
def uniqueBehind (last : BitVec 32) : List (BitVec 32) → List (BitVec 32)
  | [] => []
  | p :: points => if p ≠ last then p :: uniqueBehind p points else uniqueBehind last points

def uniquePoints : List (BitVec 32) → List (BitVec 32)
  | [] => []
  | p :: points => p :: uniqueBehind p points

/-- The sort by `compare_u32` and the loop behind it. -/
def sortPoints (points : List (BitVec 32)) : List (BitVec 32) :=
  uniquePoints (points.insertionSort (· ≤ ·))

def appendPatchPoints (patches : List DolLLVMPatch) (includeEnd : Bool)
    (points : List (BitVec 32)) : List (BitVec 32) :=
  if BitVec.ofNat 32 patches.length*(if includeEnd then 2 else 1) = 0 then points
  else sortPoints (points ++ patches.flatMap fun patch =>
    if includeEnd then [patch.start,patch.limit] else [patch.start])

def llvmCodeAddress (sections : List SectionCode) (address : BitVec 32) : Bool :=
  (withData sections).any fun s =>
    s.address ≤ address && address < s.address + s.size && (address - s.address) &&& 3#32 = 0

def sectionInsts (s : SectionCode) : List PPCInst :=
  match s.data with
  | none => []
  | some data => (List.range (s.size.toNat/4)).map fun k =>
    ppcDecode (Rel.readBe32 data.get (4*k)) (s.address + BitVec.ofNat 32 (4*k))

def partitionTargets (inst : PPCInst) : List (BitVec 32) :=
  if (inst.op = .b ∨ inst.op = .bc) ∧ inst.lk then [inst.branchTarget]
  else if inst.op = .bclr ∧ !inst.lk ∧ inst.bo = 20 then [inst.address + 4]
  else []

section
variable (sections : List SectionCode)

/-- The points in the buffer of `collect_llvm_partition_points` before they are sorted. -/
def collected (programEntry : BitVec 32) (symbols : List DolRecompSymbol) : List (BitVec 32) :=
  (programEntry :: (symbols.map (·.address) ++
    sections.flatMap fun s => (sectionInsts s).flatMap partitionTargets)).filter
      (llvmCodeAddress sections)

def collectLlvmPartitionPoints (programEntry : BitVec 32) (symbols : List DolRecompSymbol) :
    List (BitVec 32) :=
  sortPoints (collected sections programEntry symbols)

/-- The points of a profile that are missed often enough. -/
def profiledPoints (missMinSamples : BitVec 32) (lines : List ProfileLine) : List (BitVec 32) :=
  ((lines.filter fun line => line.kind = "module_miss" ∧
    missMinSamples.zeroExtend 64 ≤ line.samples ∧ line.pc ≤ 0xFFFFFFFF).map
      (·.pc.truncate 32)).filter (llvmCodeAddress sections)

def appendProfiledLlvmPoints (missMinSamples : BitVec 32) (profile : RangeProfile)
    (points : List (BitVec 32)) : Option (List (BitVec 32)) :=
  match profile with
  | .absent => some points
  | .unreadable => none
  | .lines lines => some (sortPoints (points ++ profiledPoints sections missMinSamples lines))

def isBlank (c : BitVec 8) : Bool := c = 0x20 || c = 0x09

/-- A line without blanks around it and without its comment. -/
def forcedText (line : CString) : CString :=
  ((line.dropWhile isBlank).takeWhile (· ≠ 0x23)).rdropWhile
    fun c => isBlank c || c = 0x0D || c = 0x0A

/-- The point on a line that is not empty. -/
def forcedPoint (line : CString) : Option (BitVec 32) :=
  match HexText.strtoull (forcedText line) with
  | none => none
  | some value =>
    if value ≤ 0xFFFFFFFF ∧ llvmCodeAddress sections (value.truncate 32) then
      some (value.truncate 32)
    else none

/-- The lines that `fgets` reads of the file, which may be missing or unreadable. -/
inductive ForcedFile
  | absent | unreadable | lines (lines : List CString)

/-- The loop of `load_forced_llvm_points`; a line that is no point of the code is an error. -/
def forcedPoints : List CString → Option (List (BitVec 32))
  | [] => some []
  | line :: lines =>
    if forcedText line = [] then forcedPoints lines
    else (forcedPoint sections line).bind fun point => (forcedPoints lines).map (point :: ·)

def loadForcedLlvmPoints (file : ForcedFile) : Option (List (BitVec 32)) :=
  match file with
  | .absent => some []
  | .unreadable => none
  | .lines lines => (forcedPoints sections lines).map sortPoints

def appendForcedLlvmPoints (file : ForcedFile) (points : List (BitVec 32)) :
    Option (List (BitVec 32)) :=
  (loadForcedLlvmPoints sections file).map fun forced =>
    if forced = [] then points else sortPoints (points ++ forced)

/-- The partition points that `emit_code_sections_llvm` hands to `build_llvm_ranges`. -/
def llvmPartitionPoints (programEntry : BitVec 32) (symbols : List DolRecompSymbol)
    (missMinSamples : BitVec 32) (profile : RangeProfile) (forced : ForcedFile)
    (patches : List DolLLVMPatch) : Option (List (BitVec 32)) :=
  ((appendProfiledLlvmPoints sections missMinSamples profile
      (collectLlvmPartitionPoints sections programEntry symbols)).bind
    (appendForcedLlvmPoints sections forced)).map (appendPatchPoints patches true)

end

theorem mem_uniqueBehind {p last : BitVec 32} {points : List (BitVec 32)} :
    p ∈ uniqueBehind last points ∨ p = last ↔ p ∈ points ∨ p = last := by
  induction points generalizing last with
  | nil => rfl
  | cons x points ih =>
    rw [uniqueBehind]
    by_cases hx : x ≠ last
    · rw [if_pos hx,List.mem_cons,List.mem_cons,or_comm (a := p = x),ih,or_comm (a := p = x)]
    · rw [if_neg hx,ih,List.mem_cons,not_not.mp hx]
      tauto

theorem mem_uniquePoints {p : BitVec 32} {points : List (BitVec 32)} :
    p ∈ uniquePoints points ↔ p ∈ points := by
  cases points with
  | nil => rfl
  | cons x points =>
    rw [uniquePoints,List.mem_cons,List.mem_cons,or_comm,mem_uniqueBehind,or_comm]

theorem uniqueBehind_increase {last : BitVec 32} {points : List (BitVec 32)}
    (h : (last :: points).Pairwise (· ≤ ·)) :
    (last :: uniqueBehind last points).Pairwise (· < ·) := by
  induction points generalizing last with
  | nil => exact List.pairwise_singleton _ _
  | cons x points ih =>
    obtain ⟨hlast,hrest⟩ := List.pairwise_cons.mp h
    rw [uniqueBehind]
    by_cases hx : x ≠ last
    · rw [if_pos hx]
      have htail := ih hrest
      have hlt : last < x :=
        BitVec.lt_of_le_ne (hlast x List.mem_cons_self) (Ne.symm hx)
      refine List.pairwise_cons.mpr ⟨fun p hp => ?_,htail⟩
      obtain rfl | hp := List.mem_cons.mp hp
      · exact hlt
      · exact BitVec.lt_trans hlt (List.rel_of_pairwise_cons htail hp)
    · rw [if_neg hx]
      exact ih (List.pairwise_cons.mpr
        ⟨fun p hp => hlast p (List.mem_cons_of_mem x hp),(List.pairwise_cons.mp hrest).2⟩)

theorem uniquePoints_increase {points : List (BitVec 32)} (h : points.Pairwise (· ≤ ·)) :
    (uniquePoints points).Pairwise (· < ·) := by
  cases points with
  | nil => exact .nil
  | cons x points => exact uniqueBehind_increase h

theorem sortPoints_increase (points : List (BitVec 32)) : (sortPoints points).Pairwise (· < ·) :=
  uniquePoints_increase (List.pairwise_insertionSort _ points)

theorem mem_sortPoints {p : BitVec 32} {points : List (BitVec 32)} :
    p ∈ sortPoints points ↔ p ∈ points := by
  rw [sortPoints,mem_uniquePoints,List.mem_insertionSort]

section
variable {sections : List SectionCode}

/-- What asks for a point, patches apart. -/
inductive Asked (programEntry : BitVec 32) (symbols : List DolRecompSymbol)
    (missMinSamples : BitVec 32) (profile : RangeProfile) (forced : ForcedFile) :
    BitVec 32 → Prop
  | entry : Asked programEntry symbols missMinSamples profile forced programEntry
  | symbol (s) (h : s ∈ symbols) :
    Asked programEntry symbols missMinSamples profile forced s.address
  | inst (s inst p) (hs : s ∈ sections) (hi : inst ∈ sectionInsts s)
    (hp : p ∈ partitionTargets inst) :
    Asked programEntry symbols missMinSamples profile forced p
  | profiled (lines line) (h : profile = .lines lines) (hl : line ∈ lines)
    (hk : line.kind = "module_miss") (hm : missMinSamples.zeroExtend 64 ≤ line.samples)
    (hw : line.pc ≤ 0xFFFFFFFF) :
    Asked programEntry symbols missMinSamples profile forced (line.pc.truncate 32)
  | forced (lines line p) (h : forced = .lines lines) (hl : line ∈ lines)
    (hn : forcedText line ≠ []) (hp : forcedPoint sections line = some p) :
    Asked programEntry symbols missMinSamples profile forced p

variable {programEntry : BitVec 32} {symbols : List DolRecompSymbol} {missMinSamples : BitVec 32}
  {profile : RangeProfile} {forced : ForcedFile} {p : BitVec 32}

theorem mem_collected : p ∈ collected sections programEntry symbols ↔
      (p = programEntry ∨ (∃ s ∈ symbols, s.address = p) ∨
        ∃ s ∈ sections, ∃ inst ∈ sectionInsts s, p ∈ partitionTargets inst) ∧
      llvmCodeAddress sections p := by
  rw [collected,List.mem_filter,List.mem_cons,List.mem_append,List.mem_map,List.mem_flatMap]
  simp only [List.mem_flatMap]

theorem mem_profiledPoints {lines : List ProfileLine} :
    p ∈ profiledPoints sections missMinSamples lines ↔
      (∃ line ∈ lines, line.kind = "module_miss" ∧ missMinSamples.zeroExtend 64 ≤ line.samples ∧
        line.pc ≤ 0xFFFFFFFF ∧ line.pc.truncate 32 = p) ∧ llvmCodeAddress sections p := by
  rw [profiledPoints,List.mem_filter,List.mem_map]
  refine and_congr_left fun _ => exists_congr fun line => ?_
  rw [List.mem_filter,decide_eq_true_eq]
  tauto

theorem mem_forcedPoints {lines : List CString} {points : List (BitVec 32)}
    (h : forcedPoints sections lines = some points) :
    p ∈ points ↔ ∃ line ∈ lines, forcedText line ≠ [] ∧ forcedPoint sections line = some p := by
  induction lines generalizing points with
  | nil =>
    obtain rfl := Option.some.inj h
    exact iff_of_false List.not_mem_nil fun ⟨_,hl,_⟩ => List.not_mem_nil hl
  | cons line lines ih =>
    rw [forcedPoints] at h
    by_cases htext : forcedText line = []
    · rw [if_pos htext] at h
      rw [ih h]
      refine ⟨fun ⟨l,hl,hp⟩ => ⟨l,List.mem_cons_of_mem line hl,hp⟩,fun ⟨l,hl,hn,hp⟩ => ?_⟩
      obtain rfl | hl := List.mem_cons.mp hl
      · exact absurd htext hn
      · exact ⟨l,hl,hn,hp⟩
    · rw [if_neg htext] at h
      obtain ⟨point,hpoint,h⟩ := Option.bind_eq_some_iff.mp h
      obtain ⟨rest,hrest,rfl⟩ := Option.map_eq_some_iff.mp h
      rw [List.mem_cons,ih hrest]
      refine ⟨fun hp => ?_,fun ⟨l,hl,hn,hp⟩ => ?_⟩
      · obtain rfl | ⟨l,hl,hp⟩ := hp
        · exact ⟨line,List.mem_cons_self,htext,hpoint⟩
        · exact ⟨l,List.mem_cons_of_mem line hl,hp⟩
      · obtain rfl | hl := List.mem_cons.mp hl
        · exact .inl (Option.some.inj (hp.symm.trans hpoint))
        · exact .inr ⟨l,hl,hn,hp⟩

theorem forcedPoint_code {line : CString} (h : forcedPoint sections line = some p) :
    llvmCodeAddress sections p := by
  unfold forcedPoint at h
  split at h
  · cases h
  · split at h
    next hc =>
      obtain rfl := Option.some.inj h
      exact hc.2
    next => cases h

theorem appendProfiled_spec {points points' : List (BitVec 32)} (hsorted : points.Pairwise (· < ·))
    (h : appendProfiledLlvmPoints sections missMinSamples profile points = some points') :
    points'.Pairwise (· < ·) ∧ ∀ p, p ∈ points' ↔ p ∈ points ∨
      ∃ lines, profile = .lines lines ∧ p ∈ profiledPoints sections missMinSamples lines := by
  cases profile with
  | absent =>
    obtain rfl := Option.some.inj h
    exact ⟨hsorted,fun p => ⟨.inl,fun hp => hp.resolve_right fun ⟨_,hl,_⟩ => nomatch hl⟩⟩
  | unreadable => cases h
  | lines lines =>
    obtain rfl := Option.some.inj h
    refine ⟨sortPoints_increase _,fun p => ?_⟩
    rw [mem_sortPoints,List.mem_append]
    exact or_congr_right ⟨fun hp => ⟨lines,rfl,hp⟩,fun ⟨_,hl,hp⟩ => by cases hl; exact hp⟩

theorem appendForced_spec {points points' : List (BitVec 32)} (hsorted : points.Pairwise (· < ·))
    (h : appendForcedLlvmPoints sections forced points = some points') :
    points'.Pairwise (· < ·) ∧ ∀ p, p ∈ points' ↔ p ∈ points ∨
      ∃ lines, forced = .lines lines ∧
        ∃ line ∈ lines, forcedText line ≠ [] ∧ forcedPoint sections line = some p := by
  obtain ⟨loaded,hload,rfl⟩ := Option.map_eq_some_iff.mp h
  have hloaded : ∀ p, p ∈ loaded ↔ ∃ lines, forced = .lines lines ∧
      ∃ line ∈ lines, forcedText line ≠ [] ∧ forcedPoint sections line = some p := by
    intro p
    cases forced with
    | absent =>
      obtain rfl := Option.some.inj hload
      exact iff_of_false List.not_mem_nil fun ⟨_,hl,_⟩ => nomatch hl
    | unreadable => cases hload
    | lines lines =>
      obtain ⟨found,hfound,rfl⟩ := Option.map_eq_some_iff.mp hload
      rw [mem_sortPoints,mem_forcedPoints hfound]
      exact ⟨fun hp => ⟨lines,rfl,hp⟩,fun ⟨_,hl,hp⟩ => by cases hl; exact hp⟩
  by_cases hnil : loaded = []
  · rw [if_pos hnil]
    refine ⟨hsorted,fun p => ⟨.inl,fun hp => hp.resolve_right fun hp => ?_⟩⟩
    have := (hloaded p).mpr hp
    rw [hnil] at this
    exact List.not_mem_nil this
  · rw [if_neg hnil]
    refine ⟨sortPoints_increase _,fun p => ?_⟩
    rw [mem_sortPoints,List.mem_append,hloaded]

theorem appendPatch_spec {patches : List DolLLVMPatch} {points : List (BitVec 32)}
    (hsorted : points.Pairwise (· < ·)) (hfit : patches.length < 2^31) :
    (appendPatchPoints patches true points).Pairwise (· < ·) ∧
      ∀ p, p ∈ appendPatchPoints patches true points ↔
        p ∈ points ∨ ∃ patch ∈ patches, p = patch.start ∨ p = patch.limit := by
  rw [appendPatchPoints,if_pos rfl]
  by_cases hnil : patches = []
  · subst hnil
    rw [if_pos (by rfl)]
    exact ⟨hsorted,fun p => ⟨.inl,fun hp => hp.resolve_right
      fun ⟨_,hl,_⟩ => List.not_mem_nil hl⟩⟩
  · have hlen := List.length_pos_iff.mpr hnil
    have hword : BitVec.ofNat 32 patches.length*2 ≠ 0 := fun h => by
      have := congrArg BitVec.toNat h
      rw [BitVec.toNat_mul,BitVec.toNat_ofNat] at this
      change patches.length % 2^32*2 % 2^32 = 0 at this
      omega
    rw [if_neg hword]
    refine ⟨sortPoints_increase _,fun p => ?_⟩
    rw [mem_sortPoints,List.mem_append,List.mem_flatMap]
    simp only [if_true,List.mem_cons,List.not_mem_nil,or_false]

/-- The points that the code is cut at are sorted, are those that are asked for and in the code,
with the ends of the patches, and meet what the partition relies on. -/
theorem partition_points_spec (lib : TomlLibrary) (q : PatchSort) (sections : List SectionCode)
    (config : Option (Except String lib.Datum)) (patches : List NamedPatch)
    (programEntry : BitVec 32) (symbols : List DolRecompSymbol) (missMinSamples : BitVec 32)
    (profile : RangeProfile) (forced : ForcedFile) (points : List (BitVec 32))
    (hload : loadPatches lib q sections config = .ok patches) (hfit : patches.length < 2^31)
    (hpoints : llvmPartitionPoints sections programEntry symbols missMinSamples profile forced
      (patches.map (·.toDolLLVMPatch)) = some points) :
    points.Pairwise (· < ·) ∧
      (∀ p, p ∈ points ↔
        @Asked sections programEntry symbols missMinSamples profile forced p ∧
          llvmCodeAddress sections p ∨
        ∃ patch ∈ patches, p = patch.start ∨ p = patch.limit) ∧
      PatchesLoaded points (patches.map (·.toDolLLVMPatch)) := by
  obtain ⟨points₂,h,rfl⟩ := Option.map_eq_some_iff.mp hpoints
  obtain ⟨points₁,hprofiled,hforced⟩ := Option.bind_eq_some_iff.mp h
  obtain ⟨hsorted₁,hmem₁⟩ := appendProfiled_spec (sortPoints_increase _) hprofiled
  obtain ⟨hsorted₂,hmem₂⟩ := appendForced_spec hsorted₁ hforced
  obtain ⟨hsorted,hmem⟩ := @appendPatch_spec (patches.map (·.toDolLLVMPatch)) points₂ hsorted₂
    (by rwa [List.length_map])
  have hends (p : BitVec 32) :
      (∃ patch ∈ patches.map (·.toDolLLVMPatch), p = patch.start ∨ p = patch.limit) ↔
        ∃ patch ∈ patches, p = patch.start ∨ p = patch.limit := by
    simp only [List.mem_map,exists_exists_and_eq_and]
  have hall : ∀ p, p ∈ points₂ ↔
      @Asked sections programEntry symbols missMinSamples profile forced p ∧
        llvmCodeAddress sections p := by
    intro p
    rw [hmem₂,hmem₁,mem_sortPoints,mem_collected]
    constructor
    · rintro ((⟨rfl | ⟨s,hs,rfl⟩ | ⟨s,hs,inst,hi,hp⟩,hcode⟩ | ⟨lines,hl,hp⟩) |
        ⟨lines,hl,line,hm,hn,hp⟩)
      · exact ⟨.entry,hcode⟩
      · exact ⟨.symbol s hs,hcode⟩
      · exact ⟨.inst s inst p hs hi hp,hcode⟩
      · obtain ⟨⟨line,hm,hk,hs,hw,rfl⟩,hcode⟩ := mem_profiledPoints.mp hp
        exact ⟨.profiled lines line hl hm hk hs hw,hcode⟩
      · exact ⟨.forced lines line p hl hm hn hp,forcedPoint_code hp⟩
    · rintro ⟨hasked,hcode⟩
      cases hasked with
      | entry => exact .inl (.inl ⟨.inl rfl,hcode⟩)
      | symbol s hs => exact .inl (.inl ⟨.inr (.inl ⟨s,hs,rfl⟩),hcode⟩)
      | inst s inst _ hs hi hp => exact .inl (.inl ⟨.inr (.inr ⟨s,hs,inst,hi,hp⟩),hcode⟩)
      | profiled lines line hl hm hk hs hw =>
        exact .inl (.inr ⟨lines,hl,mem_profiledPoints.mpr ⟨⟨line,hm,hk,hs,hw,rfl⟩,hcode⟩⟩)
      | forced lines line _ hl hm hn hp => exact .inr ⟨lines,hl,line,hm,hn,hp⟩
  have hloads := loads_of_loadPatches hload
  refine ⟨hsorted,fun p => by rw [hmem,hall,hends],⟨fun patch hp => ?_,?_,fun patch hp => ?_⟩⟩
  · obtain ⟨named,hn,rfl⟩ := List.mem_map.mp hp
    exact hloads.nonempty named hn
  · obtain ⟨_,-,-,-,hapart⟩ := hloads
    exact List.pairwise_map.mpr hapart
  · exact ⟨(hmem _).mpr (.inr ⟨patch,hp,.inl rfl⟩),(hmem _).mpr (.inr ⟨patch,hp,.inr rfl⟩)⟩

end

/-- `bl 0x80003108`, `blr` and `nop`. -/
def callCode : SectionCode :=
  { address := 0x80003100, size := 12,
    data := some (.ofList [0x48,0,0,9,0x4E,0x80,0,0x20,0x60,0,0,0]) }

/-- A document as a tree, in which a key that is missing is nothing. -/
inductive TomlTree
  | nothing
  | string (s : CString)
  | int64 (n : BitVec 64)
  | array (elems : List TomlTree)
  | table (entries : List (CString × TomlTree))

def treeLibrary : TomlLibrary where
  Datum := TomlTree
  value
    | .nothing => .unknown
    | .string s => .string s
    | .int64 n => .int64 n
    | .array elems => .array elems
    | .table _ => .table
  tomlGet datum key :=
    match datum with
    | .table entries => (entries.lookup (text key)).getD .nothing
    | _ => .nothing

/-- A patch of the last word. -/
def nopPatch : TomlTree :=
  .table [(text "patches",.table [(text "func",.array [.table [(text "start",.int64 0x80003108),
    (text "end",.int64 0x8000310C),(text "symbol",.string (text "skip"))]])])]

def insertionPatchSort : PatchSort where
  sort patches := patches.insertionSort fun a b => a.start ≤ b.start
  perm patches := List.perm_insertionSort _ patches
  sorted patches := by
    have : Std.Total fun a b : NamedPatch => a.start ≤ b.start := ⟨fun a b => BitVec.le_total _ _⟩
    have : IsTrans NamedPatch fun a b => a.start ≤ b.start := ⟨fun a b c => BitVec.le_trans⟩
    exact List.pairwise_insertionSort _ patches

def nopPatches : List NamedPatch := [⟨⟨0x80003108,0x8000310C⟩,text "skip"⟩]

def callPoints : List (BitVec 32) := [0x80003100,0x80003104,0x80003108,0x8000310C]

theorem partition_points_call :
    callPoints.Pairwise (· < ·) ∧
      (∀ p, p ∈ callPoints ↔
        @Asked [callCode] 0x80003100 [⟨0x80003104,0,[]⟩] 0 .absent
            (.lines [text "80003104 # the return"]) p ∧
          llvmCodeAddress [callCode] p ∨
        ∃ patch ∈ nopPatches, p = patch.start ∨ p = patch.limit) ∧
      PatchesLoaded callPoints (nopPatches.map (·.toDolLLVMPatch)) :=
  partition_points_spec treeLibrary insertionPatchSort [callCode] (some (.ok nopPatch)) nopPatches
    0x80003100 [⟨0x80003104,0,[]⟩] 0 .absent (.lines [text "80003104 # the return"]) callPoints rfl
    (by decide) (by decide)

end Llvm

end DolRecomp
