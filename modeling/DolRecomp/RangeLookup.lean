import DolRecomp.LlvmRanges
import Mathlib.Data.List.Forall2

/-!
# Looking ranges up

The pipeline and the LLVM backend bisect the ranges in the order in which the sections are listed.
They find every range exactly when that order is the order of the addresses.
-/

namespace DolRecomp

namespace Llvm

open CheckedBytes

def llvmRangeFor (ranges : List DolLLVMFunctionRange) (address : BitVec 32) :
    Option DolLLVMFunctionRange :=
  Bisection.find (·.start.toNat) (·.limit.toNat) ranges address.toNat 0 ranges.length

def rangeFor (ranges : List DolLLVMFunctionRange) (address : BitVec 32) :
    Option DolLLVMFunctionRange :=
  Bisection.find (·.start.toNat) (·.limit.toNat) ranges address.toNat 0 ranges.length

def llvmPatchRangeValid (sections : List LoadedCodeSection) (patch : DolLLVMPatch) : Prop :=
  patch.start < patch.limit ∧ (patch.start ||| patch.limit) &&& 3#32 = 0 ∧
    ∃ s ∈ sections, s.address ≤ patch.start ∧ patch.limit ≤ s.address + s.size

/-- A lookup that finds the range of an address, and nothing where there is none. -/
def Finds (lookup : List DolLLVMFunctionRange → BitVec 32 → Option DolLLVMFunctionRange)
    (ranges : List DolLLVMFunctionRange) : Prop :=
  ∀ address r, lookup ranges address = some r ↔
    r ∈ ranges ∧ r.start ≤ address ∧ address < r.limit

/-- The section has a word and does not wrap, so that it is cut into ranges. -/
def HasCode (s : LoadedCodeSection) : Prop :=
  0 < codeSize s ∧ s.address.toNat + codeSize s < 2^32

instance : DecidablePred HasCode := fun _ => inferInstanceAs (Decidable (_ ∧ _))

/-- The sections that are cut are listed in the order of their addresses. -/
def Ascending (sections : List LoadedCodeSection) : Prop :=
  (sections.filter HasCode).Pairwise fun s t => s.address < t.address

/-- The ranges of a section. -/
def Covered (s : LoadedCodeSection) (ranges : List DolLLVMFunctionRange) : Prop :=
  (HasCode s ∧ Tiles s.address.toNat (s.address.toNat + codeSize s) ranges) ∨
    (¬HasCode s ∧ ranges = [])

theorem Tiles.pairwise {lo hi : ℕ} {ranges : List DolLLVMFunctionRange}
    (h : Tiles lo hi ranges) : ranges.Pairwise fun a b => a.limit.toNat ≤ b.start.toNat := by
  induction ranges generalizing lo with
  | nil => exact .nil
  | cons r ranges ih =>
    obtain ⟨-,-,hrest⟩ := h
    exact .cons (fun r' hm => (hrest.bounds.2 r' hm).1) (ih hrest)

section

variable {s t : LoadedCodeSection} {ranges ranges' : List DolLLVMFunctionRange}

theorem Covered.pairwise (h : Covered s ranges) :
    ranges.Pairwise fun a b => a.limit.toNat ≤ b.start.toNat := by
  rcases h with ⟨-,h⟩ | ⟨-,rfl⟩
  · exact h.pairwise
  · exact .nil

theorem Covered.bounds (h : Covered s ranges) {r : DolLLVMFunctionRange} (hm : r ∈ ranges) :
    HasCode s ∧ s.address.toNat ≤ r.start.toNat ∧ r.start.toNat < r.limit.toNat ∧
      r.limit.toNat ≤ s.address.toNat + codeSize s := by
  rcases h with ⟨hcode,h⟩ | ⟨-,rfl⟩
  · exact ⟨hcode,h.bounds.2 r hm⟩
  · cases hm

theorem Covered.first (h : Covered s ranges) (hcode : HasCode s) :
    ∃ r ∈ ranges, r.start.toNat = s.address.toNat := by
  rcases h with ⟨-,h⟩ | ⟨hnot,-⟩
  · have hpos := hcode.1
    obtain ⟨r,hm,hle,-⟩ := h.covers (Nat.le_refl _) (by omega)
    exact ⟨r,hm,Nat.le_antisymm hle (h.bounds.2 r hm).1⟩
  · exact absurd hcode hnot

/-- The ranges of two sections that share no address do not meet. -/
theorem Covered.apart (h : Covered s ranges) (h' : Covered t ranges') (hapart : Apart s t)
    {a b : DolLLVMFunctionRange} (ha : a ∈ ranges) (hb : b ∈ ranges') :
    (s.address < t.address → a.limit.toNat ≤ b.start.toNat) ∧
      (t.address < s.address → b.limit.toNat ≤ a.start.toNat) ∧ s.address ≠ t.address := by
  obtain ⟨-,ha1,ha2,ha3⟩ := h.bounds ha
  obtain ⟨-,hb1,hb2,hb3⟩ := h'.bounds hb
  have hs := codeSize_le s
  have ht := codeSize_le t
  have h1 := hapart s.address.toNat
  have h2 := hapart t.address.toNat
  simp only [Has] at h1 h2
  refine ⟨fun hlt => ?_,fun hlt => ?_,fun heq => ?_⟩
  · have hlt := BitVec.lt_def.mp hlt
    omega
  · have hlt := BitVec.lt_def.mp hlt
    omega
  · rw [heq] at h1 ha1 ha3
    omega

end

section

variable {sections : List LoadedCodeSection} {parts : List (List DolLLVMFunctionRange)}
  (h : List.Forall₂ Covered sections parts) (hapart : sections.Pairwise Apart)

include h hapart in
theorem ranges_apart : parts.flatten.Pairwise fun a b =>
    a.limit.toNat ≤ b.start.toNat ∨ b.limit.toNat ≤ a.start.toNat := by
  induction h with
  | nil => exact .nil
  | @cons s ranges sections parts hcov hrest ih =>
    obtain ⟨hs,hapart⟩ := List.pairwise_cons.mp hapart
    rw [List.flatten_cons,List.pairwise_append]
    refine ⟨hcov.pairwise.imp .inl,ih hapart,fun a ha b hb => ?_⟩
    obtain ⟨part,hpart,hb⟩ := List.mem_flatten.mp hb
    obtain ⟨t,ht,hcov'⟩ := forall₂_mem_right hrest hpart
    obtain ⟨h1,h2,h3⟩ := hcov.apart hcov' (hs t ht) ha hb
    rcases Nat.lt_trichotomy s.address.toNat t.address.toNat with hlt | heq | hgt
    · exact .inl (h1 (BitVec.lt_def.mpr hlt))
    · exact absurd (BitVec.eq_of_toNat_eq heq) h3
    · exact .inr (h2 (BitVec.lt_def.mpr hgt))

include h hapart in
/-- The ranges are in order exactly when the sections are. -/
theorem ranges_sorted_iff : (parts.flatten.Pairwise fun a b => a.limit.toNat ≤ b.start.toNat) ↔
    Ascending sections := by
  unfold Ascending
  induction h with
  | nil => exact ⟨fun _ => .nil,fun _ => .nil⟩
  | @cons s ranges sections parts hcov hrest ih =>
    obtain ⟨hs,hapart⟩ := List.pairwise_cons.mp hapart
    rw [List.flatten_cons,List.pairwise_append,ih hapart]
    by_cases hcode : HasCode s
    · rw [List.filter_cons_of_pos (by simpa using hcode),List.pairwise_cons]
      constructor
      · rintro ⟨-,hsorted,hcross⟩
        refine ⟨fun t ht => ?_,hsorted⟩
        obtain ⟨ht,htcode⟩ := List.mem_filter.mp ht
        obtain ⟨part,hpart,hcov'⟩ := forall₂_mem_left hrest ht
        obtain ⟨a,ha,hafirst⟩ := hcov.first hcode
        obtain ⟨b,hb,hbfirst⟩ := hcov'.first (of_decide_eq_true htcode)
        have hle := hcross a ha b (List.mem_flatten.mpr ⟨part,hpart,hb⟩)
        have hlt := (hcov.bounds ha).2.2.1
        exact BitVec.lt_def.mpr (by omega)
      · rintro ⟨hcross,hsorted⟩
        refine ⟨hcov.pairwise,hsorted,fun a ha b hb => ?_⟩
        obtain ⟨part,hpart,hb⟩ := List.mem_flatten.mp hb
        obtain ⟨t,ht,hcov'⟩ := forall₂_mem_right hrest hpart
        exact (hcov.apart hcov' (hs t ht) ha hb).1
          (hcross t (List.mem_filter.mpr ⟨ht,decide_eq_true (hcov'.bounds hb).1⟩))
    · rw [List.filter_cons_of_neg (by simpa using hcode)]
      have hnil : ranges = [] := by
        rcases hcov with ⟨hcode',-⟩ | ⟨-,h⟩
        · exact absurd hcode' hcode
        · exact h
      subst hnil
      exact ⟨fun h => h.2.1,fun h => ⟨.nil,h,fun _ ha => by cases ha⟩⟩

end

section

variable {chunk : BitVec 32} {points : List (BitVec 32)} {patches : List DolLLVMPatch}
  {sections : List LoadedCodeSection}

/-- A patch that starts in a section ends there, as it fits one section and no other has its
start. -/
theorem inside_of_valid (hsize : ∀ s ∈ sections, s.size &&& 3#32 = 0)
    (hapart : sections.Pairwise Apart)
    (hvalid : ∀ patch ∈ patches, llvmPatchRangeValid sections patch) {s : LoadedCodeSection}
    (hs : s ∈ sections) (hend : s.address.toNat + codeSize s < 2^32) : Inside patches s := by
  intro patch hm hlo hlt
  obtain ⟨hne,-,t,ht,h1,h2⟩ := hvalid patch hm
  have hne := BitVec.lt_def.mp hne
  have h1 := BitVec.le_def.mp h1
  have h2 := BitVec.le_def.mp h2
  have hlimit := patch.limit.isLt
  have hcode := codeSize_le s
  have hsum : patch.limit.toNat ≤ t.address.toNat + t.size.toNat :=
    h2.trans (by rw [BitVec.toNat_add]; exact Nat.mod_le _ _)
  have hsame : s = t := by
    obtain ⟨i,hi,rfl⟩ := List.getElem_of_mem hs
    obtain ⟨j,hj,rfl⟩ := List.getElem_of_mem ht
    have hpair := List.pairwise_iff_getElem.mp hapart
    rcases Nat.lt_trichotomy i j with hij | heq | hij
    · exact absurd ⟨⟨hlo,by omega⟩,h1,by omega⟩ (hpair i j hi hj hij patch.start.toNat)
    · subst heq
      rfl
    · exact absurd ⟨⟨h1,by omega⟩,hlo,by omega⟩ (hpair j i hj hi hij patch.start.toNat)
  subst hsame
  have h4 := (Alignment.and_three_eq_zero _).mp (hsize s hs)
  unfold codeSize
  omega

/-- What `build_llvm_ranges` makes of sections that share no address. -/
theorem build_covered {fuel : ℕ} {parts : List (List DolLLVMFunctionRange)}
    (hsorted : points.Pairwise (· < ·)) (hp : PatchesLoaded points patches)
    (hsize : ∀ s ∈ sections, s.size &&& 3#32 = 0) (hapart : sections.Pairwise Apart)
    (hvalid : ∀ patch ∈ patches, llvmPatchRangeValid sections patch)
    (hbuild : buildLlvmRanges chunk points patches fuel sections = some (.ok parts)) :
    List.Forall₂ Covered sections parts := by
  obtain ⟨hsplits,-⟩ := splitSections_ok hbuild (Nat.zero_le _)
  have hmem : List.Forall₂ (fun s ranges => s ∈ sections ∧
      Split chunk points patches (codeEnd s) s.address ranges) sections parts :=
    (List.forall₂_and_left _ _).mpr ⟨fun _ hs => hs,hsplits⟩
  refine hmem.imp fun s ranges hs => ?_
  by_cases hcode : HasCode s
  · exact .inl ⟨hcode,(hs.2.tiles hcode.2 hsorted hp
      (inside_of_valid hsize hapart hvalid hs.1 hcode.2) At.first).1⟩
  · refine .inr ⟨hcode,?_⟩
    cases hs.2 with
    | done => rfl
    | step hlt _ =>
      -- the end of a section that wraps is below its address
      have hlt := BitVec.lt_def.mp hlt
      have h1 := s.address.isLt
      have h2 := s.size.isLt
      have h3 := codeSize_le s
      have hclear : (codeEnd s).toNat = (s.address.toNat + codeSize s) % 2^32 := by
        rw [codeEnd,BitVec.toNat_add,Alignment.toNat_clear]
        rfl
      unfold HasCode at hcode
      omega

theorem finds_iff {ranges : List DolLLVMFunctionRange}
    (hne : ∀ r ∈ ranges, r.start.toNat < r.limit.toNat)
    (hapart : ranges.Pairwise fun a b =>
      a.limit.toNat ≤ b.start.toNat ∨ b.limit.toNat ≤ a.start.toNat) :
    Finds llvmRangeFor ranges ↔
      ranges.Pairwise fun a b => a.limit.toNat ≤ b.start.toNat := by
  constructor
  · intro h
    refine List.pairwise_iff_getElem.mpr fun i j hi hj hij => ?_
    refine Bisection.sorted_of_find hne hapart (Nat.le_refl _) (fun k item x _ _ hk h1 h2 => ?_)
      i j hi hj (Nat.zero_le _) hij hj
    have hx : (BitVec.ofNat 32 x).toNat = x :=
      BitVec.toNat_ofNat x 32 ▸ Nat.mod_eq_of_lt (h2.trans item.limit.isLt)
    have := (h (BitVec.ofNat 32 x) item).mpr ⟨List.mem_of_getElem? hk,
      BitVec.le_def.mpr (by omega),BitVec.lt_def.mpr (by omega)⟩
    rwa [llvmRangeFor,hx] at this
  · intro hsorted address r
    constructor
    · intro h
      obtain ⟨⟨i,-,-,hget⟩,h1,h2⟩ := Bisection.find_some h
      exact ⟨List.mem_of_getElem? hget,BitVec.le_def.mpr h1,BitVec.lt_def.mpr h2⟩
    · rintro ⟨hm,h1,h2⟩
      obtain ⟨k,hk,rfl⟩ := List.getElem_of_mem hm
      exact Bisection.find_of_sorted (fun item h => (hne item h).le) hsorted (Nat.le_refl _)
        (Nat.zero_le _) hk
        (List.getElem?_eq_getElem hk) (BitVec.le_def.mp h1) (BitVec.lt_def.mp h2)

end

/-- The lookups find the ranges of sections that share no address exactly when the sections are
listed in the order of their addresses; what they find always has the address. -/
theorem range_lookup_iff (sections : List LoadedCodeSection) (chunk : BitVec 32)
    (points : List (BitVec 32)) (patches : List DolLLVMPatch) (fuel : ℕ)
    (parts : List (List DolLLVMFunctionRange)) (_hchunk : 0#32 < chunk)
    (hsize : ∀ s ∈ sections, s.size &&& 3#32 = 0) (hapart : sections.Pairwise Apart)
    (hsorted : points.Pairwise (· < ·)) (hp : PatchesLoaded points patches)
    (hvalid : ∀ patch ∈ patches, llvmPatchRangeValid sections patch)
    (hbuild : buildLlvmRanges chunk points patches fuel sections = some (.ok parts)) :
    (Finds llvmRangeFor parts.flatten ∧ Finds rangeFor parts.flatten) ↔ Ascending sections := by
  have hcovered := build_covered hsorted hp hsize hapart hvalid hbuild
  rw [← ranges_sorted_iff hcovered hapart,← finds_iff ?_ (ranges_apart hcovered hapart)]
  · exact and_self_iff
  · intro r hr
    obtain ⟨part,hpart,hr⟩ := List.mem_flatten.mp hr
    obtain ⟨s,-,hcov⟩ := forall₂_mem_right hcovered hpart
    exact (hcov.bounds hr).2.2.1

theorem textSections_apart :
    List.Pairwise Apart [⟨0x80003100,16⟩,⟨0x80003200,8⟩] := by
  refine List.pairwise_pair.mpr fun n hn => ?_
  obtain ⟨⟨-,h1⟩,h2,-⟩ := hn
  change n < 0x80003110 at h1
  change 0x80003200 ≤ n at h2
  omega

/-- Two sections, the first of which a point parts. -/
theorem range_lookup_iff_two_sections :
    Finds llvmRangeFor
        [⟨0x80003100,0x80003108⟩,⟨0x80003108,0x80003110⟩,⟨0x80003200,0x80003208⟩] ∧
      Finds rangeFor
        [⟨0x80003100,0x80003108⟩,⟨0x80003108,0x80003110⟩,⟨0x80003200,0x80003208⟩] :=
  (range_lookup_iff [⟨0x80003100,16⟩,⟨0x80003200,8⟩] 64 [0x80003108] [] 3
    [[⟨0x80003100,0x80003108⟩,⟨0x80003108,0x80003110⟩],[⟨0x80003200,0x80003208⟩]] (by decide)
    (by decide) textSections_apart (List.pairwise_singleton _ _) (patchesLoaded_nil _)
    (fun _ h => by cases h) (by decide +kernel)).mpr (by unfold Ascending; decide)

/-- A DOL file with its two text sections in descending order. -/
def descendingText : Bytes := .ofList
  ([0,0,1,0,0,0,1,0] ++ List.replicate 0x40 0 ++ [0x80,0,0x32,0,0x80,0,0x31,0] ++
    List.replicate 0x40 0 ++ [0,0,0,8,0,0,0,8] ++ List.replicate 0x48 0 ++ [0x80,0,0x32,0] ++
    List.replicate 0x1C 0 ++ [0x60,0,0,0,0x4E,0x80,0,0x20])

/-- The range of its entry point is not found. -/
theorem range_lookup_misses : ∃ image, (Container.dol descendingText).load = .ok image ∧
    image.code.Pairwise Apart ∧ ∃ parts, buildLlvmRanges 64 [] [] 3 image.code = some (.ok parts) ∧
      ⟨0x80003200,0x80003208⟩ ∈ parts.flatten ∧
      llvmRangeFor parts.flatten 0x80003200 = none ∧ rangeFor parts.flatten 0x80003200 = none := by
  obtain ⟨image,h,-,hcode⟩ := hasEntry_spec (show hasEntry 0x80003200
    (fun code => decide (code = [⟨0x80003200,8⟩,⟨0x80003100,8⟩]))
    (Container.dol descendingText).load = true by decide +kernel)
  refine ⟨image,h,?_⟩
  rw [of_decide_eq_true hcode]
  refine ⟨?_,[[⟨0x80003200,0x80003208⟩],[⟨0x80003100,0x80003108⟩]],by decide,
    by decide,by decide +kernel,by decide +kernel⟩
  refine List.pairwise_pair.mpr fun n hn => ?_
  obtain ⟨⟨h1,-⟩,-,h2⟩ := hn
  change 0x80003200 ≤ n at h1
  change n < 0x80003108 at h2
  omega

end Llvm

end DolRecomp
