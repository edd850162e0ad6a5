import DolRecomp.Bisection
import DolRecomp.EntryPoints
import Mathlib.Algebra.BigOperators.Group.Finset.Basic
import Mathlib.Data.Finset.Sort

/-!
# Ranges of the LLVM backend

`build_llvm_ranges` cuts the code sections into ranges and writes them into a buffer of a size
that it works out before.
-/

namespace DolRecomp

namespace Llvm

open CheckedBytes

structure DolLLVMPatch where
  start : BitVec 32
  limit : BitVec 32
  deriving DecidableEq

structure DolLLVMFunctionRange where
  start : BitVec 32
  limit : BitVec 32
  deriving DecidableEq

def llvmPatchForStart (patches : List DolLLVMPatch) (start : BitVec 32) : Option DolLLVMPatch :=
  patches.find? (·.start = start)

def nextLlvmPartitionPoint (points : List (BitVec 32)) (start limit : BitVec 32) : BitVec 32 :=
  match points[Bisection.firstAbove BitVec.toNat points start.toNat 0 points.length]? with
  | some point => if point < limit then point else limit
  | none => limit

def codeEnd (s : LoadedCodeSection) : BitVec 32 := s.address + (s.size &&& ~~~3#32)

section

variable (chunk : BitVec 32) (points : List (BitVec 32)) (patches : List DolLLVMPatch)

def rangeCapacity (sections : List LoadedCodeSection) : BitVec 32 :=
  sections.foldl (fun capacity s => capacity + (s.size/4 + chunk - 1)/chunk)
    (BitVec.ofNat 32 points.length)

/-- Where a range that starts at `start` ends. -/
def rangeEnd (sectionEnd start : BitVec 32) : BitVec 32 :=
  match llvmPatchForStart patches start with
  | some patch => patch.limit
  | none =>
    let remaining := sectionEnd - start
    let span := chunk*4
    let limit := if remaining < span then sectionEnd else start + span
    nextLlvmPartitionPoint points start limit

/-- The loop over one section, with `count` ranges in the buffer. -/
def splitSection (capacity : ℕ) (sectionEnd : BitVec 32) :
    ℕ → ℕ → BitVec 32 → Option (Checked (List DolLLVMFunctionRange))
  | 0, _, _ => none
  | fuel+1, count, start =>
    if start < sectionEnd then
      if count < capacity then
        let limit := rangeEnd chunk points patches sectionEnd start
        match splitSection capacity sectionEnd fuel (count + 1) limit with
        | some (.ok ranges) => some (.ok (⟨start,limit⟩ :: ranges))
        | stopped => stopped
      else some (.error .fault)
    else some (.ok [])

/-- The loop over the sections. The buffer holds the ranges of one section after the other. -/
def splitSections (capacity fuel : ℕ) :
    ℕ → List LoadedCodeSection → Option (Checked (List (List DolLLVMFunctionRange)))
  | _, [] => some (.ok [])
  | count, s :: sections =>
    match splitSection chunk points patches capacity (codeEnd s) fuel count s.address with
    | some (.ok ranges) =>
      match splitSections capacity fuel (count + ranges.length) sections with
      | some (.ok parts) => some (.ok (ranges :: parts))
      | stopped => stopped
    | some (.error e) => some (.error e)
    | none => none

def buildLlvmRanges (fuel : ℕ) (sections : List LoadedCodeSection) :
    Option (Checked (List (List DolLLVMFunctionRange))) :=
  splitSections chunk points patches (rangeCapacity chunk points sections).toNat fuel 0 sections

/-- The ranges follow one another, and none is empty. -/
def Tiles : ℕ → ℕ → List DolLLVMFunctionRange → Prop
  | lo, hi, [] => lo = hi
  | lo, hi, r :: ranges => r.start.toNat = lo ∧ lo < r.limit.toNat ∧ Tiles r.limit.toNat hi ranges

def FromPatch (r : DolLLVMFunctionRange) : Prop :=
  ∃ patch ∈ patches, patch.start = r.start ∧ patch.limit = r.limit

def codeSize (s : LoadedCodeSection) : ℕ := 4*(s.size.toNat/4)

/-- Ranges that cut one section as promised. -/
structure Cut (s : LoadedCodeSection) (ranges : List DolLLVMFunctionRange) : Prop where
  tiles : Tiles s.address.toNat (s.address.toNat + codeSize s) ranges
  short : ∀ r ∈ ranges, FromPatch patches r ∨
    r.limit.toNat ≤ r.start.toNat + 4*chunk.toNat ∧
      ∀ point ∈ points, ¬(r.start < point ∧ point < r.limit)

def Partitions (sections : List LoadedCodeSection) : Prop :=
  ∃ fuel parts, buildLlvmRanges chunk points patches fuel sections = some (.ok parts) ∧
    List.Forall₂ (Cut chunk points patches) sections parts

/-- What `load_patches` and `append_patch_points` see to. -/
structure PatchesLoaded : Prop where
  nonempty : ∀ patch ∈ patches, patch.start < patch.limit
  apart : patches.Pairwise fun a b => a.limit ≤ b.start
  points : ∀ patch ∈ patches, patch.start ∈ points ∧ patch.limit ∈ points

/-- A place where a range of a section has to start: the start of the section or a partition
point, and not inside of a patch. -/
def IsCut (s : LoadedCodeSection) (c : BitVec 32) : Prop :=
  s.address.toNat ≤ c.toNat ∧ c.toNat < s.address.toNat + codeSize s ∧
    (c = s.address ∨ c ∈ points) ∧
    ∀ patch ∈ patches, s.address.toNat ≤ patch.start.toNat →
      ¬(patch.start.toNat < c.toNat ∧ c.toNat < patch.limit.toNat)

instance (s : LoadedCodeSection) : DecidablePred (IsCut points patches s) :=
  fun _ => inferInstanceAs (Decidable (_ ∧ _ ∧ _ ∧ _))

/-- The pieces from a cut up to the next: a patch is one, and else each has the span. -/
def pieces (s : LoadedCodeSection) (c : BitVec 32) : ℕ :=
  if (llvmPatchForStart patches c).isSome then 1
  else ((nextLlvmPartitionPoint points c (codeEnd s)).toNat - c.toNat + (chunk*4).toNat - 1) /
    (chunk*4).toNat

/-- The cuts of a section. -/
def cuts (s : LoadedCodeSection) : Finset (BitVec 32) :=
  (s.address :: points).toFinset.filter (IsCut points patches s)

/-- When the sections can be cut as promised. -/
structure Fits (sections : List LoadedCodeSection) : Prop where
  ends : ∀ s ∈ sections, s.address.toNat + codeSize s < 2^32
  inside : ∀ s ∈ sections, ∀ patch ∈ patches, s.address.toNat ≤ patch.start.toNat →
    patch.start.toNat < s.address.toNat + codeSize s →
    patch.limit.toNat ≤ s.address.toNat + codeSize s
  span : chunk*4 = 0 → ∀ s ∈ sections, ∀ c ∈ cuts points patches s,
    (llvmPatchForStart patches c).isSome
  room : (sections.map fun s => ∑ c ∈ cuts points patches s, pieces chunk points patches s c).sum ≤
    (rangeCapacity chunk points sections).toNat

end

section

variable {chunk : BitVec 32} {points : List (BitVec 32)} {patches : List DolLLVMPatch}

theorem nextPoint_spec (hsorted : points.Pairwise (· < ·)) (x limit : BitVec 32) :
    (nextLlvmPartitionPoint points x limit).toNat ≤ limit.toNat ∧
    (∀ point ∈ points, x.toNat < point.toNat →
      (nextLlvmPartitionPoint points x limit).toNat ≤ point.toNat) ∧
    (nextLlvmPartitionPoint points x limit = limit ∨
      nextLlvmPartitionPoint points x limit ∈ points ∧
        x.toNat < (nextLlvmPartitionPoint points x limit).toNat) := by
  have hkeys : points.Pairwise fun a b => a.toNat < b.toNat :=
    hsorted.imp fun h => BitVec.lt_def.mp h
  have hspec := @Bisection.firstAbove_spec _ BitVec.toNat points x.toNat hkeys 0 points.length
    (Nat.zero_le _) (Nat.le_refl _) (fun i _ h => absurd h (Nat.not_lt_zero i))
    (fun i hi h => absurd hi (Nat.not_lt.mpr h))
  have hmono := List.pairwise_iff_getElem.mp hkeys
  unfold nextLlvmPartitionPoint
  generalize Bisection.firstAbove BitVec.toNat points x.toNat 0 points.length = index at hspec
  cases hget : points[index]? with
  | none =>
    have hlen := List.getElem?_eq_none_iff.mp hget
    refine ⟨Nat.le_refl _,fun point hm hlt => ?_,.inl rfl⟩
    obtain ⟨i,hi,rfl⟩ := List.getElem_of_mem hm
    exact absurd ((hspec i hi).mpr (by omega)) (Nat.not_le.mpr hlt)
  | some p =>
    obtain ⟨hlen,rfl⟩ := List.getElem?_eq_some_iff.mp hget
    have habove : x.toNat < points[index].toNat :=
      Nat.lt_of_not_le fun h => Nat.lt_irrefl _ ((hspec index hlen).mp h)
    have hleast : ∀ point ∈ points, x.toNat < point.toNat →
        points[index].toNat ≤ point.toNat := by
      intro point hm hlt
      obtain ⟨i,hi,rfl⟩ := List.getElem_of_mem hm
      have hge : index ≤ i := Nat.le_of_not_lt fun h =>
        absurd ((hspec i hi).mpr h) (Nat.not_le.mpr hlt)
      rcases Nat.lt_or_eq_of_le hge with h | h
      · exact (hmono index i hlen hi h).le
      · subst h
        exact Nat.le_refl _
    dsimp only
    split
    next hlt =>
      have hlt := BitVec.lt_def.mp hlt
      exact ⟨hlt.le,hleast,.inr ⟨List.getElem_mem hlen,habove⟩⟩
    next hge =>
      have hge := BitVec.le_def.mp (BitVec.not_lt.mp hge)
      exact ⟨Nat.le_refl _,fun point hm hlt => hge.trans (hleast point hm hlt),.inl rfl⟩

theorem nextPoint_eq (hsorted : points.Pairwise (· < ·)) {x limit next : BitVec 32}
    (hx : x.toNat < next.toNat) (hle : next.toNat ≤ limit.toNat)
    (hfree : ∀ point ∈ points, x.toNat < point.toNat → next.toNat ≤ point.toNat)
    (hnext : next = limit ∨ next ∈ points) : nextLlvmPartitionPoint points x limit = next := by
  obtain ⟨h1,h2,h3⟩ := nextPoint_spec hsorted x limit
  generalize nextLlvmPartitionPoint points x limit = n at h1 h2 h3
  apply BitVec.eq_of_toNat_eq
  apply Nat.le_antisymm
  · rcases hnext with rfl | hm
    · exact h1
    · exact h2 next hm hx
  · rcases h3 with rfl | ⟨hm,hlt⟩
    · exact hle
    · exact hfree n hm hlt

/-- With a span of zero the loop stays where it is. -/
theorem rangeEnd_span_zero (hsorted : points.Pairwise (· < ·)) {x : BitVec 32}
    (h : llvmPatchForStart patches x = none) (h0 : chunk*4 = 0) (sectionEnd : BitVec 32) :
    rangeEnd chunk points patches sectionEnd x = x := by
  have hnot : ¬sectionEnd - x < (0 : BitVec 32) := BitVec.not_lt_zero
  rw [rangeEnd,h]
  dsimp only
  rw [h0,if_neg hnot,show x + (0 : BitVec 32) = x from BitVec.add_zero x]
  obtain ⟨h1,-,h3⟩ := nextPoint_spec hsorted x x
  rcases h3 with h3 | ⟨-,h3⟩
  · exact h3
  · omega

theorem codeEnd_toNat {s : LoadedCodeSection} (h : s.address.toNat + codeSize s < 2^32) :
    (codeEnd s).toNat = s.address.toNat + codeSize s := by
  rw [codeEnd,BitVec.toNat_add,Alignment.toNat_clear]
  exact Nat.mod_eq_of_lt h

theorem PatchesLoaded.unique (hp : PatchesLoaded points patches) {a b : DolLLVMPatch}
    (ha : a ∈ patches) (hb : b ∈ patches) (h : a.start.toNat < b.limit.toNat)
    (h' : b.start.toNat < a.limit.toNat) : a = b := by
  obtain ⟨i,hi,rfl⟩ := List.getElem_of_mem ha
  obtain ⟨j,hj,rfl⟩ := List.getElem_of_mem hb
  have hapart := List.pairwise_iff_getElem.mp hp.apart
  rcases Nat.lt_trichotomy i j with hlt | heq | hgt
  · have := BitVec.le_def.mp (hapart i j hi hj hlt)
    omega
  · subst heq
    rfl
  · have := BitVec.le_def.mp (hapart j i hj hi hgt)
    omega

theorem patchForStart_some {x : BitVec 32} {patch : DolLLVMPatch}
    (h : llvmPatchForStart patches x = some patch) : patch ∈ patches ∧ patch.start = x := by
  refine ⟨List.mem_of_find?_eq_some h,?_⟩
  have := List.find?_some h
  exact of_decide_eq_true this

theorem PatchesLoaded.patchForStart (hp : PatchesLoaded points patches) {patch : DolLLVMPatch}
    (hm : patch ∈ patches) : llvmPatchForStart patches patch.start = some patch := by
  cases h : llvmPatchForStart patches patch.start with
  | none =>
    have := List.find?_eq_none.mp h patch hm
    simp at this
  | some other =>
    obtain ⟨hm',hstart⟩ := patchForStart_some h
    have h1 := BitVec.lt_def.mp (hp.nonempty patch hm)
    have h2 := BitVec.lt_def.mp (hp.nonempty other hm')
    rw [hstart] at h2
    rw [hp.unique hm' hm (by rw [hstart]; exact h1) h2]

section

variable (chunk points patches)

/-- The ranges that the loop over one section makes from `start` on. -/
inductive Split (sectionEnd : BitVec 32) : BitVec 32 → List DolLLVMFunctionRange → Prop
  | done {start : BitVec 32} : ¬start < sectionEnd → Split sectionEnd start []
  | step {start : BitVec 32} {ranges : List DolLLVMFunctionRange} : start < sectionEnd →
    Split sectionEnd (rangeEnd chunk points patches sectionEnd start) ranges →
    Split sectionEnd start (⟨start,rangeEnd chunk points patches sectionEnd start⟩ :: ranges)

end

theorem splitSection_ok {capacity fuel count : ℕ} {sectionEnd start : BitVec 32}
    {ranges : List DolLLVMFunctionRange} (h : splitSection chunk points patches capacity sectionEnd
      fuel count start = some (.ok ranges)) (hcount : count ≤ capacity) :
    Split chunk points patches sectionEnd start ranges ∧ count + ranges.length ≤ capacity := by
  induction fuel generalizing count start ranges with
  | zero => cases h
  | succ fuel ih =>
    unfold splitSection at h
    split at h
    next hlt =>
      split at h
      next hroom =>
        dsimp only at h
        split at h
        next rest hrest =>
          cases h
          obtain ⟨hsplit,hlen⟩ := ih hrest hroom
          refine ⟨.step hlt hsplit,?_⟩
          rw [List.length_cons]
          omega
        next hstopped => exact absurd h (hstopped _)
      next => cases h
    next hge =>
      cases h
      exact ⟨.done hge,hcount⟩

theorem splitSection_of {capacity fuel count : ℕ} {sectionEnd start : BitVec 32}
    {ranges : List DolLLVMFunctionRange} (h : Split chunk points patches sectionEnd start ranges)
    (hfuel : ranges.length < fuel) (hcount : count + ranges.length ≤ capacity) :
    splitSection chunk points patches capacity sectionEnd fuel count start =
      some (.ok ranges) := by
  induction h generalizing fuel count with
  | done hge =>
    obtain ⟨fuel,rfl⟩ : ∃ n, fuel = n + 1 := ⟨fuel - 1,by omega⟩
    rw [splitSection,if_neg hge]
  | step hlt _ ih =>
    rw [List.length_cons] at hfuel hcount
    obtain ⟨fuel,rfl⟩ : ∃ n, fuel = n + 1 := ⟨fuel - 1,by omega⟩
    rw [splitSection,if_pos hlt,if_pos (by omega)]
    dsimp only
    rw [ih (by omega) (by omega)]

theorem splitSections_ok {capacity fuel count : ℕ} {sections : List LoadedCodeSection}
    {parts : List (List DolLLVMFunctionRange)} (h : splitSections chunk points patches capacity fuel
      count sections = some (.ok parts)) (hcount : count ≤ capacity) :
    List.Forall₂ (fun s ranges => Split chunk points patches (codeEnd s) s.address ranges) sections
      parts ∧ count + (parts.map List.length).sum ≤ capacity := by
  induction sections generalizing count parts with
  | nil =>
    cases h
    exact ⟨.nil,hcount⟩
  | cons s sections ih =>
    unfold splitSections at h
    split at h
    next ranges hranges =>
      split at h
      next rest hrest =>
        cases h
        obtain ⟨hsplit,hlen⟩ := splitSection_ok hranges hcount
        obtain ⟨hall,hsum⟩ := ih hrest hlen
        refine ⟨.cons hsplit hall,?_⟩
        rw [List.map_cons,List.sum_cons]
        omega
      next hstopped => exact absurd h (hstopped _)
    next => cases h
    next => cases h

theorem splitSections_of {capacity fuel count : ℕ} {sections : List LoadedCodeSection}
    {parts : List (List DolLLVMFunctionRange)}
    (h : List.Forall₂ (fun s ranges => Split chunk points patches (codeEnd s) s.address ranges)
      sections parts) (hfuel : (parts.map List.length).sum < fuel)
    (hcount : count + (parts.map List.length).sum ≤ capacity) :
    splitSections chunk points patches capacity fuel count sections = some (.ok parts) := by
  induction h generalizing count with
  | nil => rfl
  | cons hsplit _ ih =>
    rw [List.map_cons,List.sum_cons] at hfuel hcount
    rw [splitSections,splitSection_of hsplit (by omega) (by omega)]
    dsimp only
    rw [ih (by omega) (by omega)]

theorem Split.limit {sectionEnd start : BitVec 32} {ranges : List DolLLVMFunctionRange}
    (h : Split chunk points patches sectionEnd start ranges) :
    ∀ r ∈ ranges, r.limit = rangeEnd chunk points patches sectionEnd r.start := by
  induction h with
  | done => exact fun r hm => by cases hm
  | step _ _ ih =>
    intro r hm
    rcases List.mem_cons.mp hm with rfl | hm
    · rfl
    · exact ih r hm

/-- The loop does not come back to where it was. -/
theorem Split.moves {sectionEnd start : BitVec 32} {ranges : List DolLLVMFunctionRange}
    (h : Split chunk points patches sectionEnd start ranges) (hlt : start < sectionEnd) :
    rangeEnd chunk points patches sectionEnd start ≠ start := by
  intro heq
  induction ranges with
  | nil =>
    cases h with
    | done hge => exact hge hlt
  | cons r ranges ih =>
    cases h with
    | step _ h => exact ih (heq ▸ h)

section

variable (points patches)

/-- A place that the loop over a section comes to. -/
structure At (s : LoadedCodeSection) (x : BitVec 32) : Prop where
  lower : s.address.toNat ≤ x.toNat
  upper : x.toNat ≤ s.address.toNat + codeSize s
  clear : x.toNat < s.address.toNat + codeSize s → ∀ patch ∈ patches,
    s.address.toNat ≤ patch.start.toNat →
      ¬(patch.start.toNat < x.toNat ∧ x.toNat < patch.limit.toNat)

/-- The patches that start in a section end there. -/
def Inside (s : LoadedCodeSection) : Prop :=
  ∀ patch ∈ patches, s.address.toNat ≤ patch.start.toNat →
    patch.start.toNat < s.address.toNat + codeSize s →
    patch.limit.toNat ≤ s.address.toNat + codeSize s

end

variable {s : LoadedCodeSection}

theorem At.first : At patches s s.address :=
  ⟨Nat.le_refl _,Nat.le_add_right _ _,fun _ _ _ h hlt => absurd hlt.1 (Nat.not_lt.mpr h)⟩

theorem At.isCut {x : BitVec 32} (hat : At patches s x)
    (hx : x.toNat < s.address.toNat + codeSize s) (h : x = s.address ∨ x ∈ points) :
    x ∈ cuts points patches s :=
  Finset.mem_filter.mpr ⟨by simpa using h,hat.lower,hx,h,hat.clear hx⟩

section

variable (hend : s.address.toNat + codeSize s < 2^32) (hsorted : points.Pairwise (· < ·))
  (hp : PatchesLoaded points patches)

include hp in
/-- A patch is taken as it is. -/
theorem range_of_patch {x : BitVec 32} {patch : DolLLVMPatch} (hin : Inside patches s)
    (hat : At patches s x) (hx : x.toNat < s.address.toNat + codeSize s)
    (h : llvmPatchForStart patches x = some patch) :
    rangeEnd chunk points patches (codeEnd s) x = patch.limit ∧ patch ∈ patches ∧
      patch.start = x ∧ x.toNat < patch.limit.toNat ∧ At patches s patch.limit := by
  obtain ⟨hm,rfl⟩ := patchForStart_some h
  have hlt := BitVec.lt_def.mp (hp.nonempty patch hm)
  refine ⟨by rw [rangeEnd,h],hm,rfl,hlt,⟨?_,hin patch hm hat.lower hx,?_⟩⟩
  · have := hat.lower
    omega
  · intro _ other hm' _ hother
    have heq := hp.unique hm' hm (by omega) (by omega)
    subst heq
    omega

include hend hsorted hp in
theorem range_of_span {x : BitVec 32} (hat : At patches s x)
    (hx : x.toNat < s.address.toNat + codeSize s) (h : llvmPatchForStart patches x = none)
    (hspan : chunk*4 ≠ 0) :
    let limit := rangeEnd chunk points patches (codeEnd s) x
    x.toNat < limit.toNat ∧ limit.toNat ≤ x.toNat + (chunk*4).toNat ∧
      (∀ point ∈ points, x.toNat < point.toNat → limit.toNat ≤ point.toNat) ∧
      (limit.toNat = x.toNat + (chunk*4).toNat ∨ limit = codeEnd s ∨ limit ∈ points) ∧
      At patches s limit := by
  intro limit
  have hcode := codeEnd_toNat hend
  have hpos : 0 < (chunk*4).toNat := by
    rcases Nat.eq_zero_or_pos (chunk*4).toNat with h0 | hpos
    · exact absurd (BitVec.eq_of_toNat_eq h0) hspan
    · exact hpos
  have hremaining : (codeEnd s - x).toNat = (codeEnd s).toNat - x.toNat :=
    BitVec.toNat_sub_of_le (BitVec.le_def.mpr (by omega))
  have hlimit : limit = nextLlvmPartitionPoint points x
      (if codeEnd s - x < chunk*4 then codeEnd s else x + chunk*4) := by
    show rangeEnd chunk points patches (codeEnd s) x = _
    rw [rangeEnd,h]
  -- the end without the points
  obtain ⟨bound,hbound⟩ : ∃ bound,
    bound = if codeEnd s - x < chunk*4 then codeEnd s else x + chunk*4 := ⟨_,rfl⟩
  have hfacts : x.toNat < bound.toNat ∧ bound.toNat ≤ x.toNat + (chunk*4).toNat ∧
      bound.toNat ≤ s.address.toNat + codeSize s ∧
      (bound.toNat = x.toNat + (chunk*4).toNat ∨ bound = codeEnd s) := by
    split at hbound
    next hlt =>
      have hlt := BitVec.lt_def.mp hlt
      rw [hbound]
      exact ⟨by omega,by omega,by omega,.inr rfl⟩
    next hge =>
      have hge := BitVec.le_def.mp (BitVec.not_lt.mp hge)
      have hsum : bound.toNat = x.toNat + (chunk*4).toNat := by
        rw [hbound,BitVec.toNat_add]
        exact Nat.mod_eq_of_lt (by omega)
      exact ⟨by omega,by omega,by omega,.inl hsum⟩
  rw [← hbound] at hlimit
  obtain ⟨h1,h2,h3⟩ := nextPoint_spec hsorted x bound
  rw [← hlimit] at h1 h2 h3
  have hlt : x.toNat < limit.toNat := by
    rcases h3 with h3 | h3
    · rw [h3]
      exact hfacts.1
    · exact h3.2
  refine ⟨hlt,by omega,h2,?_,⟨?_,by omega,?_⟩⟩
  · rcases h3 with h3 | h3
    · rw [h3]
      rcases hfacts.2.2.2 with hb | hb
      · exact .inl hb
      · exact .inr (.inl hb)
    · exact .inr (.inr h3.1)
  · have := hat.lower
    omega
  · -- a patch around the end starts at a point that is before it, so before `x`
    intro hlimitLt patch hm hlo hin
    have hstart : patch.start.toNat ≤ x.toNat := Nat.le_of_not_lt fun hlt =>
      absurd (h2 patch.start (hp.points patch hm).1 hlt) (by omega)
    rcases Nat.lt_or_eq_of_le hstart with hlt' | heq
    · exact hat.clear hx patch hm hlo ⟨hlt',by omega⟩
    · have heq := BitVec.eq_of_toNat_eq heq
      rw [← heq,hp.patchForStart hm] at h
      cases h

theorem chunk_span (chunk : BitVec 32) : (chunk*4).toNat ≤ 4*chunk.toNat := by
  rw [BitVec.toNat_mul,Nat.mul_comm 4]
  exact Nat.mod_le _ _

include hend hsorted hp in
theorem Split.tiles (hin : Inside patches s) {x : BitVec 32} {ranges : List DolLLVMFunctionRange}
    (h : Split chunk points patches (codeEnd s) x ranges) (hat : At patches s x) :
    Tiles x.toNat (s.address.toNat + codeSize s) ranges ∧ ∀ r ∈ ranges, FromPatch patches r ∨
      r.limit.toNat ≤ r.start.toNat + 4*chunk.toNat ∧
        ∀ point ∈ points, ¬(r.start < point ∧ point < r.limit) := by
  have hcode := codeEnd_toNat hend
  induction h with
  | @done x hge =>
    have hge := BitVec.le_def.mp (BitVec.not_lt.mp hge)
    have hupper := hat.upper
    exact ⟨by unfold Tiles; omega,fun r hm => by cases hm⟩
  | @step x ranges hlt hrest ih =>
    have hmoves := (Split.step hlt hrest).moves hlt
    have hlt := BitVec.lt_def.mp hlt
    have hx : x.toNat < s.address.toNat + codeSize s := by omega
    cases hpatch : llvmPatchForStart patches x with
    | some patch =>
      obtain ⟨heq,hm,hstart,hafter,hat'⟩ := range_of_patch hp hin hat hx hpatch
      rw [heq] at ih ⊢
      obtain ⟨htiles,hshort⟩ := ih hat'
      refine ⟨⟨rfl,hafter,htiles⟩,fun r hr => ?_⟩
      rcases List.mem_cons.mp hr with rfl | hr
      · exact .inl ⟨patch,hm,hstart,rfl⟩
      · exact hshort r hr
    | none =>
      have hspan : chunk*4 ≠ 0 := fun h0 => hmoves (rangeEnd_span_zero hsorted hpatch h0 _)
      obtain ⟨hafter,hle,hfree,-,hat'⟩ := range_of_span hend hsorted hp hat hx hpatch hspan
      obtain ⟨htiles,hshort⟩ := ih hat'
      refine ⟨⟨rfl,hafter,htiles⟩,fun r hr => ?_⟩
      rcases List.mem_cons.mp hr with rfl | hr
      · refine .inr ⟨hle.trans (Nat.add_le_add_left (chunk_span chunk) _),fun point hm hpoint => ?_⟩
        have h1 := BitVec.lt_def.mp hpoint.1
        have h2 := BitVec.lt_def.mp hpoint.2
        exact absurd (hfree point hm h1) (Nat.not_le.mpr h2)
      · exact hshort r hr

variable (chunk points patches s) in
/-- The pieces from the cuts behind `x` on. -/
def piecesBehind (x : BitVec 32) : ℕ :=
  ∑ c ∈ (cuts points patches s).filter (x.toNat < ·.toNat), pieces chunk points patches s c

theorem piecesBehind_cut {x c : BitVec 32} (hx : x.toNat < c.toNat)
    (hc : c ∈ cuts points patches s)
    (hfree : ∀ d ∈ cuts points patches s, x.toNat < d.toNat → c.toNat ≤ d.toNat) :
    piecesBehind chunk points patches s x =
      pieces chunk points patches s c + piecesBehind chunk points patches s c := by
  have hinsert : (cuts points patches s).filter (x.toNat < ·.toNat) =
      insert c ((cuts points patches s).filter (c.toNat < ·.toNat)) := by
    ext d
    simp only [Finset.mem_filter,Finset.mem_insert]
    constructor
    · rintro ⟨hd,hlt⟩
      rcases Nat.lt_or_eq_of_le (hfree d hd hlt) with h | h
      · exact .inr ⟨hd,h⟩
      · exact .inl (BitVec.eq_of_toNat_eq h.symm)
    · rintro (rfl | ⟨hd,hlt⟩)
      · exact ⟨hc,hx⟩
      · exact ⟨hd,hx.trans hlt⟩
  rw [piecesBehind,hinsert,Finset.sum_insert (by simp)]
  rfl

theorem piecesBehind_eq {x y : BitVec 32} (hle : x.toNat ≤ y.toNat)
    (hfree : ∀ d ∈ cuts points patches s, x.toNat < d.toNat → y.toNat < d.toNat) :
    piecesBehind chunk points patches s x = piecesBehind chunk points patches s y := by
  unfold piecesBehind
  congr 1
  ext d
  simp only [Finset.mem_filter]
  exact ⟨fun h => ⟨h.1,hfree d h.1 h.2⟩,fun h => ⟨h.1,hle.trans_lt h.2⟩⟩

theorem mem_cuts {c : BitVec 32} (hc : c ∈ cuts points patches s) : IsCut points patches s c :=
  (Finset.mem_filter.mp hc).2

theorem piecesBehind_end {x : BitVec 32}
    (hfree : ∀ d ∈ cuts points patches s, ¬x.toNat < d.toNat) :
    piecesBehind chunk points patches s x = 0 := by
  rw [piecesBehind,Finset.filter_false_of_mem hfree,Finset.sum_empty]

include hend in
/-- What follows a range that ends at a cut is counted from that cut on. -/
theorem Split.length_of_cut {x limit : BitVec 32} {ranges : List DolLLVMFunctionRange}
    (h : Split chunk points patches (codeEnd s) limit ranges)
    (hcount : limit.toNat < s.address.toNat + codeSize s → ranges.length =
      pieces chunk points patches s limit + piecesBehind chunk points patches s limit)
    (hlimit : x.toNat < limit.toNat) (hat : At patches s limit)
    (hcut : limit = codeEnd s ∨ limit ∈ points)
    (hfree : ∀ d ∈ cuts points patches s, x.toNat < d.toNat → limit.toNat ≤ d.toNat) :
    ranges.length = piecesBehind chunk points patches s x := by
  have hcode := codeEnd_toNat hend
  rcases Nat.lt_or_ge limit.toNat (s.address.toNat + codeSize s) with hlt | hge
  · have hc : limit ∈ points := hcut.resolve_left fun h => by
      rw [h] at hlt
      omega
    rw [hcount hlt,piecesBehind_cut hlimit (hat.isCut hlt (.inr hc)) hfree]
  · have hnil : ranges = [] := by
      cases h with
      | done => rfl
      | step hlt _ =>
        have := BitVec.lt_def.mp hlt
        omega
    rw [hnil,piecesBehind_end fun d hd hlt => ?_]
    · rfl
    · have := hfree d hd hlt
      have := (mem_cuts hd).2.1
      omega

include hend hsorted hp in
/-- A full span that ends at no cut is one piece more than what is left behind it. -/
theorem pieces_span {x limit : BitVec 32} (hx : llvmPatchForStart patches x = none)
    (hlower : s.address.toNat ≤ x.toNat) (hpos : 0 < (chunk*4).toNat)
    (hlimit : limit.toNat = x.toNat + (chunk*4).toNat)
    (hupper : limit.toNat ≤ s.address.toNat + codeSize s)
    (hfree : ∀ d ∈ points, x.toNat < d.toNat → limit.toNat ≤ d.toNat)
    (hne : limit ≠ codeEnd s) (hpoint : limit ∉ points) :
    pieces chunk points patches s x + piecesBehind chunk points patches s x =
      pieces chunk points patches s limit + piecesBehind chunk points patches s limit + 1 := by
  have hcode := codeEnd_toNat hend
  have hlt : limit.toNat < s.address.toNat + codeSize s :=
    Nat.lt_of_le_of_ne hupper fun h => hne (BitVec.eq_of_toNat_eq (h.trans hcode.symm))
  have hpatch : llvmPatchForStart patches limit = none := by
    cases h : llvmPatchForStart patches limit with
    | none => rfl
    | some patch =>
      obtain ⟨hm,rfl⟩ := patchForStart_some h
      exact absurd (hp.points patch hm).1 hpoint
  have hbeyond : ∀ d ∈ points, x.toNat < d.toNat → limit.toNat < d.toNat := fun d hd h =>
    Nat.lt_of_le_of_ne (hfree d hd h) fun heq => hpoint (BitVec.eq_of_toNat_eq heq ▸ hd)
  obtain ⟨h1,h2,h3⟩ := nextPoint_spec hsorted limit (codeEnd s)
  have hgt : limit.toNat < (nextLlvmPartitionPoint points limit (codeEnd s)).toNat := by
    rcases h3 with h3 | h3
    · rw [h3]
      omega
    · exact h3.2
  -- the next cut is the same one
  have hnext : nextLlvmPartitionPoint points x (codeEnd s) =
      nextLlvmPartitionPoint points limit (codeEnd s) :=
    nextPoint_eq hsorted (by omega) h1 (fun d hd h => h2 d hd (hbeyond d hd h))
      (h3.imp_right And.left)
  have hbehind : piecesBehind chunk points patches s x =
      piecesBehind chunk points patches s limit := by
    refine piecesBehind_eq (by omega) fun d hd h => ?_
    rcases (mem_cuts hd).2.2.1 with rfl | hd
    · omega
    · exact hbeyond d hd h
  rw [hbehind,pieces,pieces,hx,hpatch,hnext,Option.isSome_none,if_neg (by simp),if_neg (by simp)]
  generalize (nextLlvmPartitionPoint points limit (codeEnd s)).toNat = next at hgt
  have hdiv : (next - x.toNat + (chunk*4).toNat - 1)/(chunk*4).toNat =
      (next - limit.toNat + (chunk*4).toNat - 1)/(chunk*4).toNat + 1 := by
    rw [← Nat.add_div_right _ hpos]
    congr 1
    omega
  omega

include hend hsorted hp in
/-- As many ranges as there are pieces from `x` on. -/
theorem Split.length (hin : Inside patches s) {x : BitVec 32} {ranges : List DolLLVMFunctionRange}
    (h : Split chunk points patches (codeEnd s) x ranges) (hat : At patches s x)
    (hx : x.toNat < s.address.toNat + codeSize s) : ranges.length =
      pieces chunk points patches s x + piecesBehind chunk points patches s x := by
  induction h with
  | @done x hge =>
    have hcode := codeEnd_toNat hend
    have hge := BitVec.le_def.mp (BitVec.not_lt.mp hge)
    omega
  | @step x ranges hlt hrest ih =>
    have hmoves := (Split.step hlt hrest).moves hlt
    have hlower := hat.lower
    rw [List.length_cons]
    cases hpatch : llvmPatchForStart patches x with
    | some patch =>
      obtain ⟨heq,hm,rfl,hlimit,hat'⟩ := range_of_patch hp hin hat hx hpatch
      rw [heq] at ih hrest
      rw [hrest.length_of_cut hend (ih hat') hlimit hat' (.inr (hp.points patch hm).2)
        fun d hd hlt' => Nat.le_of_not_lt fun h =>
          (mem_cuts hd).2.2.2 patch hm hlower ⟨hlt',h⟩]
      rw [pieces,hpatch,Option.isSome_some,if_pos rfl,Nat.add_comm]
    | none =>
      have hspan : chunk*4 ≠ 0 := fun h0 => hmoves (rangeEnd_span_zero hsorted hpatch h0 _)
      have hpos : 0 < (chunk*4).toNat := Nat.pos_of_ne_zero fun h0 =>
        hspan (BitVec.eq_of_toNat_eq h0)
      obtain ⟨hlimit,hle,hfree,hkind,hat'⟩ := range_of_span hend hsorted hp hat hx hpatch hspan
      have hcode := codeEnd_toNat hend
      have hupper := hat'.upper
      generalize rangeEnd chunk points patches (codeEnd s) x = limit at *
      by_cases hcut : limit = codeEnd s ∨ limit ∈ points
      · have hcutFree : ∀ d ∈ cuts points patches s, x.toNat < d.toNat →
            limit.toNat ≤ d.toNat := by
          intro d hd hlt'
          rcases (mem_cuts hd).2.2.1 with rfl | hd
          · omega
          · exact hfree d hd hlt'
        have hnext : nextLlvmPartitionPoint points x (codeEnd s) = limit :=
          nextPoint_eq hsorted hlimit (by omega) hfree hcut
        have hone : (limit.toNat - x.toNat + (chunk*4).toNat - 1)/(chunk*4).toNat = 1 :=
          Nat.div_eq_of_lt_le (by omega) (by omega)
        rw [hrest.length_of_cut hend (ih hat') hlimit hat' hcut hcutFree,pieces,hpatch,
          Option.isSome_none,if_neg (by simp),hnext,hone,Nat.add_comm]
      · obtain ⟨hne,hpoint⟩ := not_or.mp hcut
        have hlt' : limit.toNat < s.address.toNat + codeSize s :=
          Nat.lt_of_le_of_ne hupper fun h => hne (BitVec.eq_of_toNat_eq (h.trans hcode.symm))
        rw [ih hat' hlt',pieces_span hend hsorted hp hpatch hlower hpos (hkind.resolve_right hcut)
          hupper hfree hne hpoint]

include hend hsorted hp in
/-- The loop over a section ends, unless a span of zero keeps it where it is. -/
theorem Split.exists_of (hin : Inside patches s)
    (hspan : chunk*4 = 0 → ∀ c ∈ cuts points patches s, (llvmPatchForStart patches c).isSome)
    {x : BitVec 32} (hat : At patches s x) (hx : chunk*4 = 0 → x.toNat <
      s.address.toNat + codeSize s → x ∈ cuts points patches s) :
    ∃ ranges, Split chunk points patches (codeEnd s) x ranges := by
  have hcode := codeEnd_toNat hend
  induction hn : s.address.toNat + codeSize s - x.toNat using Nat.strongRecOn generalizing x with
  | ind n ih =>
    have hupper := hat.upper
    by_cases hlt : x < codeEnd s
    · have hltNat := BitVec.lt_def.mp hlt
      have hxlt : x.toNat < s.address.toNat + codeSize s := by omega
      have hstep : x.toNat < (rangeEnd chunk points patches (codeEnd s) x).toNat ∧
          At patches s (rangeEnd chunk points patches (codeEnd s) x) ∧
          (chunk*4 = 0 → rangeEnd chunk points patches (codeEnd s) x ∈ points) := by
        cases hpatch : llvmPatchForStart patches x with
        | some patch =>
          obtain ⟨heq,hm,-,hafter,hat'⟩ := range_of_patch hp hin hat hxlt hpatch
          rw [heq]
          exact ⟨hafter,hat',fun _ => (hp.points patch hm).2⟩
        | none =>
          have h0 : chunk*4 ≠ 0 := fun h0 => by
            have := hspan h0 x (hx h0 hxlt)
            rw [hpatch] at this
            cases this
          obtain ⟨hafter,-,-,-,hat'⟩ := range_of_span hend hsorted hp hat hxlt hpatch h0
          exact ⟨hafter,hat',fun h => absurd h h0⟩
      obtain ⟨hafter,hat',hpoint⟩ := hstep
      have hlower := hat.lower
      obtain ⟨ranges,hranges⟩ := ih _ (by omega) hat'
        (fun h0 hlt => hat'.isCut hlt (.inr (hpoint h0))) rfl
      exact ⟨_,.step hlt hranges⟩
    · exact ⟨[],.done hlt⟩

include hend hsorted hp in
theorem Split.pieces (hin : Inside patches s) {ranges : List DolLLVMFunctionRange}
    (h : Split chunk points patches (codeEnd s) s.address ranges) :
    ranges.length = ∑ c ∈ cuts points patches s, Llvm.pieces chunk points patches s c := by
  have hbehind : s.address ∈ cuts points patches s →
      ∑ c ∈ cuts points patches s, Llvm.pieces chunk points patches s c =
        Llvm.pieces chunk points patches s s.address +
          piecesBehind chunk points patches s s.address := by
    intro hfirst
    rw [piecesBehind,← Finset.sum_insert (by simp)]
    congr 1
    ext d
    simp only [Finset.mem_insert,Finset.mem_filter]
    constructor
    · intro hd
      rcases Nat.lt_or_eq_of_le (mem_cuts hd).1 with h | h
      · exact .inr ⟨hd,h⟩
      · exact .inl (BitVec.eq_of_toNat_eq h.symm)
    · rintro (rfl | h)
      · exact hfirst
      · exact h.1
  rcases Nat.eq_zero_or_pos (codeSize s) with h0 | hpos
  · have hcode := codeEnd_toNat hend
    cases h with
    | done hge =>
      have hnone : cuts points patches s = ∅ := by
        refine Finset.eq_empty_of_forall_notMem fun d hd => ?_
        have h1 := (mem_cuts hd).1
        have h2 := (mem_cuts hd).2.1
        omega
      rw [hnone,Finset.sum_empty]
      rfl
    | step hlt _ =>
      have := BitVec.lt_def.mp hlt
      omega
  · rw [h.length hend hsorted hp hin At.first (by omega),
      hbehind (At.first.isCut (by omega) (.inl rfl))]

end

theorem Tiles.covers {lo hi x : ℕ} {ranges : List DolLLVMFunctionRange}
    (h : Tiles lo hi ranges) (hlo : lo ≤ x) (hhi : x < hi) :
    ∃ r ∈ ranges, r.start.toNat ≤ x ∧ x < r.limit.toNat := by
  induction ranges generalizing lo with
  | nil =>
    have heq : lo = hi := h
    omega
  | cons r ranges ih =>
    obtain ⟨hstart,-,hrest⟩ := h
    rcases Nat.lt_or_ge x r.limit.toNat with hlt | hge
    · exact ⟨r,List.mem_cons_self,by omega,hlt⟩
    · obtain ⟨r',hm,hr'⟩ := ih hrest hge
      exact ⟨r',List.mem_cons_of_mem _ hm,hr'⟩

theorem Tiles.bounds {lo hi : ℕ} {ranges : List DolLLVMFunctionRange} (h : Tiles lo hi ranges) :
    lo ≤ hi ∧ ∀ r ∈ ranges, lo ≤ r.start.toNat ∧ r.start.toNat < r.limit.toNat ∧
      r.limit.toNat ≤ hi := by
  induction ranges generalizing lo with
  | nil => exact ⟨Nat.le_of_eq h,fun r hm => by cases hm⟩
  | cons r ranges ih =>
    obtain ⟨rfl,hlt,hrest⟩ := h
    obtain ⟨hle,hall⟩ := ih hrest
    refine ⟨by omega,fun r' hm => ?_⟩
    rcases List.mem_cons.mp hm with rfl | hm
    · exact ⟨Nat.le_refl _,hlt,hle⟩
    · obtain ⟨h1,h2,h3⟩ := hall r' hm
      exact ⟨by omega,h2,h3⟩

section

variable {ranges : List DolLLVMFunctionRange} (hcut : Cut chunk points patches s ranges)

include hcut in
theorem Cut.ends : s.address.toNat + codeSize s < 2^32 := by
  have hlt := s.address.isLt
  rcases Nat.eq_zero_or_pos (codeSize s) with h0 | hpos
  · omega
  · obtain ⟨r,-,-,hr⟩ := hcut.tiles.covers (x := s.address.toNat + codeSize s - 1)
      (by omega) (by omega)
    have := r.limit.isLt
    omega

include hcut in
/-- Only a patch has a point strictly inside of its range. -/
theorem Cut.patch_of_point {r : DolLLVMFunctionRange} (hr : r ∈ ranges) {point : BitVec 32}
    (hm : point ∈ points) (h1 : r.start.toNat < point.toNat) (h2 : point.toNat < r.limit.toNat) :
    ∃ patch ∈ patches, patch.start = r.start ∧ patch.limit = r.limit := by
  rcases hcut.short r hr with hpatch | ⟨-,hfree⟩
  · exact hpatch
  · exact absurd ⟨BitVec.lt_def.mpr h1,BitVec.lt_def.mpr h2⟩ (hfree point hm)

variable (hsplit : Split chunk points patches (codeEnd s) s.address ranges)

include hcut hsplit in
theorem Cut.inside (hp : PatchesLoaded points patches) : Inside patches s := by
  intro patch hm hlo hlt
  obtain ⟨r,hr,h1,h2⟩ := hcut.tiles.covers hlo hlt
  obtain ⟨-,-,hhi⟩ := hcut.tiles.bounds.2 r hr
  rcases Nat.lt_or_eq_of_le h1 with h1 | h1
  · -- the patch starts inside of another
    obtain ⟨other,hm',hstart,hlimit⟩ := hcut.patch_of_point hr (hp.points patch hm).1 h1 h2
    have hlt := BitVec.lt_def.mp (hp.nonempty patch hm)
    have heq := hp.unique hm hm' (by rw [hlimit]; exact h2) (by rw [hstart]; omega)
    rw [heq,hlimit]
    exact hhi
  · have h1 := BitVec.eq_of_toNat_eq h1
    have hlimit := hsplit.limit r hr
    rw [h1,rangeEnd,hp.patchForStart hm] at hlimit
    rwa [hlimit] at hhi

include hcut hsplit in
theorem Cut.span (hsorted : points.Pairwise (· < ·)) (h0 : chunk*4 = 0) {c : BitVec 32}
    (hc : c ∈ cuts points patches s) : (llvmPatchForStart patches c).isSome := by
  obtain ⟨hlo,hlt,hkind,hclear⟩ := mem_cuts hc
  obtain ⟨r,hr,h1,h2⟩ := hcut.tiles.covers hlo hlt
  obtain ⟨hfirst,hne,-⟩ := hcut.tiles.bounds.2 r hr
  rcases Nat.lt_or_eq_of_le h1 with h1 | h1
  · have hm : c ∈ points := hkind.resolve_left fun h => by
      rw [h] at h1
      omega
    obtain ⟨patch,hm',hstart,hlimit⟩ := hcut.patch_of_point hr hm h1 h2
    exact absurd ⟨by rw [hstart]; exact h1,by rw [hlimit]; exact h2⟩
      (hclear patch hm' (by rw [hstart]; exact hfirst))
  · have h1 := BitVec.eq_of_toNat_eq h1
    cases hpatch : llvmPatchForStart patches c with
    | some patch => rfl
    | none =>
      have hlimit := hsplit.limit r hr
      rw [h1,rangeEnd_span_zero hsorted hpatch h0] at hlimit
      rw [hlimit,h1] at hne
      omega

end

theorem forall₂_length {sections : List LoadedCodeSection}
    {parts : List (List DolLLVMFunctionRange)} {f : LoadedCodeSection → ℕ}
    (h : List.Forall₂ (fun s ranges => ranges.length = f s) sections parts) :
    (parts.map List.length).sum = (sections.map f).sum := by
  induction h with
  | nil => rfl
  | cons hlen _ ih => rw [List.map_cons,List.map_cons,List.sum_cons,List.sum_cons,hlen,ih]

theorem forall₂_mem_right {α β : Type} {p : α → β → Prop} {l : List α} {l' : List β}
    (h : List.Forall₂ p l l') {b : β} (hb : b ∈ l') : ∃ a ∈ l, p a b := by
  induction h with
  | nil => cases hb
  | cons hp _ ih =>
    rcases List.mem_cons.mp hb with rfl | hb
    · exact ⟨_,List.mem_cons_self,hp⟩
    · obtain ⟨a,ha,hp⟩ := ih hb
      exact ⟨a,List.mem_cons_of_mem _ ha,hp⟩

theorem forall₂_mem_left {α β : Type} {p : α → β → Prop} {l : List α} {l' : List β}
    (h : List.Forall₂ p l l') {a : α} (ha : a ∈ l) : ∃ b ∈ l', p a b := by
  induction h with
  | nil => cases ha
  | cons hp _ ih =>
    rcases List.mem_cons.mp ha with rfl | ha
    · exact ⟨_,List.mem_cons_self,hp⟩
    · obtain ⟨b,hb,hp⟩ := ih ha
      exact ⟨b,List.mem_cons_of_mem _ hb,hp⟩

theorem forall₂_exists {α β : Type} {p : α → β → Prop} {l : List α}
    (h : ∀ a ∈ l, ∃ b, p a b) : ∃ l', List.Forall₂ p l l' := by
  induction l with
  | nil => exact ⟨[],.nil⟩
  | cons a l ih =>
    obtain ⟨b,hb⟩ := h a List.mem_cons_self
    obtain ⟨l',hl⟩ := ih fun a' hm => h a' (List.mem_cons_of_mem _ hm)
    exact ⟨b :: l',.cons hb hl⟩

section

variable (hsorted : points.Pairwise (· < ·)) (hp : PatchesLoaded points patches)

include hsorted hp in
theorem Partitions.fits {sections : List LoadedCodeSection}
    (h : Partitions chunk points patches sections) : Fits chunk points patches sections := by
  obtain ⟨fuel,parts,hbuild,hcuts⟩ := h
  obtain ⟨hsplits,hroom⟩ := splitSections_ok hbuild (Nat.zero_le _)
  have hboth : List.Forall₂ (fun s ranges => Cut chunk points patches s ranges ∧
      Split chunk points patches (codeEnd s) s.address ranges) sections parts := by
    clear hbuild hroom
    induction hcuts with
    | nil => exact .nil
    | cons hcut _ ih =>
      cases hsplits with
      | cons hsplit hrest => exact .cons ⟨hcut,hsplit⟩ (ih hrest)
  have hmem : ∀ s ∈ sections, ∃ ranges ∈ parts, Cut chunk points patches s ranges ∧
      Split chunk points patches (codeEnd s) s.address ranges := fun s hs =>
    forall₂_mem_left hboth hs
  refine ⟨fun s hs => ?_,fun s hs => ?_,fun h0 s hs c hc => ?_,?_⟩
  · obtain ⟨ranges,-,hcut,-⟩ := hmem s hs
    exact hcut.ends
  · obtain ⟨ranges,-,hcut,hsplit⟩ := hmem s hs
    exact hcut.inside hsplit hp
  · obtain ⟨ranges,-,hcut,hsplit⟩ := hmem s hs
    exact hcut.span hsplit hsorted h0 hc
  · rw [← forall₂_length (hboth.imp fun s ranges h =>
      h.2.pieces h.1.ends hsorted hp (h.1.inside h.2 hp))]
    omega

include hsorted hp in
theorem Fits.partitions {sections : List LoadedCodeSection}
    (h : Fits chunk points patches sections) : Partitions chunk points patches sections := by
  obtain ⟨parts,hparts⟩ := forall₂_exists (p := fun s ranges =>
      s ∈ sections ∧ Split chunk points patches (codeEnd s) s.address ranges) fun s hs =>
    (Split.exists_of (h.ends s hs) hsorted hp (h.inside s hs) (fun h0 => h.span h0 s hs) At.first
      fun _ hlt => At.first.isCut hlt (.inl rfl)).imp fun _ hsplit => ⟨hs,hsplit⟩
  have hlen := forall₂_length (hparts.imp fun s ranges hs =>
    hs.2.pieces (h.ends s hs.1) hsorted hp (h.inside s hs.1))
  have hroom := h.room
  refine ⟨(parts.map List.length).sum + 1,parts,?_,hparts.imp fun s ranges hs => ?_⟩
  · exact splitSections_of (hparts.imp fun _ _ hs => hs.2) (Nat.lt_succ_self _) (by omega)
  · obtain ⟨htiles,hshort⟩ := hs.2.tiles (h.ends s hs.1) hsorted hp (h.inside s hs.1) At.first
    exact ⟨htiles,hshort⟩

end

/-- The ranges are cut as promised and fit the buffer exactly when no section wraps, no patch
leaves the section it starts in, the span of a chunk is not zero, and the buffer holds the pieces
between the cuts of the sections. -/
theorem build_llvm_ranges_iff (sections : List LoadedCodeSection) (chunk : BitVec 32)
    (points : List (BitVec 32)) (patches : List DolLLVMPatch) (_hchunk : 0#32 < chunk)
    (hsorted : points.Pairwise (· < ·)) (hp : PatchesLoaded points patches) :
    Partitions chunk points patches sections ↔ Fits chunk points patches sections :=
  ⟨fun h => h.fits hsorted hp,fun h => h.partitions hsorted hp⟩

end

theorem patchesLoaded_nil (points : List (BitVec 32)) : PatchesLoaded points [] :=
  ⟨fun _ h => (List.not_mem_nil h).elim,.nil,fun _ h => (List.not_mem_nil h).elim⟩

theorem build_llvm_ranges_iff_two_words :
    Partitions 64 [0x80003104] [] [⟨0x80003100,8⟩] ↔ Fits 64 [0x80003104] [] [⟨0x80003100,8⟩] :=
  build_llvm_ranges_iff _ _ _ _ (by decide) (List.pairwise_singleton _ _) (patchesLoaded_nil _)

/-- A DOL file with two text sections at one address. -/
def sharedText : Bytes := .ofList
  ([0,0,1,0,0,0,1,0] ++ List.replicate 0x40 0 ++ [0x80,0,0x31,0,0x80,0,0x31,0] ++
    List.replicate 0x40 0 ++ [0,0,0,8,0,0,0,8] ++ List.replicate 0x48 0 ++ [0x80,0,0x31,4] ++
    List.replicate 0x1C 0 ++ [0x60,0,0,0,0x4E,0x80,0,0x20])

/-- Its entry point cuts both sections, but is counted once. -/
theorem build_llvm_ranges_overflow : ∃ image, (Container.dol sharedText).load = .ok image ∧
    image.entryPoint = some 0x80003104 ∧ ¬Partitions 64 [0x80003104] [] image.code := by
  obtain ⟨image,h,he,hcode⟩ := hasEntry_spec (show hasEntry 0x80003104
    (fun code => decide (code = [⟨0x80003100,8⟩,⟨0x80003100,8⟩]))
    (Container.dol sharedText).load = true by decide +kernel)
  refine ⟨image,h,he,fun hpart => ?_⟩
  have hroom := (hpart.fits (List.pairwise_singleton _ _) (patchesLoaded_nil _)).room
  rw [of_decide_eq_true hcode] at hroom
  exact absurd hroom (by decide +kernel)

def Has (s : LoadedCodeSection) (n : ℕ) : Prop :=
  s.address.toNat ≤ n ∧ n < s.address.toNat + s.size.toNat

def Apart (s t : LoadedCodeSection) : Prop := ∀ n, ¬(Has s n ∧ Has t n)

theorem codeSize_le (s : LoadedCodeSection) : codeSize s ≤ s.size.toNat :=
  Nat.mul_div_le _ _

section

variable {chunk : BitVec 32} {points : List (BitVec 32)} {patches : List DolLLVMPatch}
  {sections : List LoadedCodeSection} {s : LoadedCodeSection}

/-- The partition points behind `x` in a section. -/
def pointsBehind (points : List (BitVec 32)) (s : LoadedCodeSection) (x : BitVec 32) :
    Finset (BitVec 32) :=
  points.toFinset.filter fun p => x.toNat < p.toNat ∧ p.toNat < s.address.toNat + codeSize s

theorem pointsBehind_mono {x y : BitVec 32} (h : x.toNat ≤ y.toNat) :
    (pointsBehind points s y).card ≤ (pointsBehind points s x).card := by
  refine Finset.card_le_card fun p hm => ?_
  obtain ⟨hm,hp⟩ := Finset.mem_filter.mp hm
  exact Finset.mem_filter.mpr ⟨hm,h.trans_lt hp.1,hp.2⟩

theorem pointsBehind_lt {x y : BitVec 32} (h : x.toNat < y.toNat) (hy : y ∈ points)
    (hlt : y.toNat < s.address.toNat + codeSize s) :
    (pointsBehind points s y).card < (pointsBehind points s x).card := by
  refine Finset.card_lt_card ⟨fun p hm => ?_,fun hsub => ?_⟩
  · obtain ⟨hm,hp⟩ := Finset.mem_filter.mp hm
    exact Finset.mem_filter.mpr ⟨hm,h.trans hp.1,hp.2⟩
  · have hself := hsub (Finset.mem_filter.mpr ⟨List.mem_toFinset.mpr hy,h,hlt⟩)
    exact absurd (Finset.mem_filter.mp hself).2.1 (Nat.lt_irrefl _)

/-- A range is of a full span, or a partition point ends it, or it is the last. -/
theorem Split.length_le (hend : s.address.toNat + codeSize s < 2^32)
    (hsorted : points.Pairwise (· < ·)) (hp : PatchesLoaded points patches)
    (hin : Inside patches s) (hspan : 0 < (chunk*4).toNat) {x : BitVec 32}
    {ranges : List DolLLVMFunctionRange} (h : Split chunk points patches (codeEnd s) x ranges)
    (hat : At patches s x) : ranges.length ≤
      (s.address.toNat + codeSize s - x.toNat + (chunk*4).toNat - 1)/(chunk*4).toNat +
        (pointsBehind points s x).card := by
  have hcode := codeEnd_toNat hend
  induction h with
  | done => exact Nat.zero_le _
  | @step x ranges hlt hrest ih =>
    have hlt := BitVec.lt_def.mp hlt
    have hx : x.toNat < s.address.toNat + codeSize s := by omega
    have hfacts : x.toNat < (rangeEnd chunk points patches (codeEnd s) x).toNat ∧
        ((rangeEnd chunk points patches (codeEnd s) x).toNat = x.toNat + (chunk*4).toNat ∨
          rangeEnd chunk points patches (codeEnd s) x = codeEnd s ∨
          rangeEnd chunk points patches (codeEnd s) x ∈ points) ∧
        At patches s (rangeEnd chunk points patches (codeEnd s) x) := by
      cases hpatch : llvmPatchForStart patches x with
      | some patch =>
        obtain ⟨heq,hm,-,hafter,hat'⟩ := range_of_patch hp hin hat hx hpatch
        rw [heq]
        exact ⟨hafter,.inr (.inr (hp.points patch hm).2),hat'⟩
      | none =>
        obtain ⟨hafter,-,-,hkind,hat'⟩ := range_of_span hend hsorted hp hat hx hpatch
          fun h0 => by rw [h0] at hspan; exact absurd hspan (Nat.lt_irrefl _)
        exact ⟨hafter,hkind,hat'⟩
    obtain ⟨hafter,hkind,hat'⟩ := hfacts
    have hupper := hat'.upper
    replace ih := ih hat'
    generalize rangeEnd chunk points patches (codeEnd s) x = limit at *
    generalize (chunk*4).toNat = span at *
    rw [List.length_cons]
    have hmono := Nat.div_le_div_right (c := span) (show s.address.toNat + codeSize s - limit.toNat +
      span - 1 ≤ s.address.toNat + codeSize s - x.toNat + span - 1 by omega)
    by_cases hpoint : limit ∈ points ∧ limit.toNat < s.address.toNat + codeSize s
    · have := pointsBehind_lt hafter hpoint.1 hpoint.2
      omega
    · have hcard := @pointsBehind_mono points s x limit hafter.le
      rcases hkind with hfull | hlast
      · have hdiv : (s.address.toNat + codeSize s - x.toNat + span - 1)/span =
            (s.address.toNat + codeSize s - limit.toNat + span - 1)/span + 1 := by
          rw [← Nat.add_div_right _ hspan]
          congr 1
          omega
        omega
      · -- the last range of the section
        have hge : s.address.toNat + codeSize s ≤ limit.toNat := by
          rcases hlast with rfl | hm
          · omega
          · exact Nat.le_of_not_lt fun h => hpoint ⟨hm,h⟩
        have hnil : ranges = [] := by
          cases hrest with
          | done => rfl
          | step hlt' _ =>
            have := BitVec.lt_def.mp hlt'
            omega
        subst hnil
        have hone : 0 < (s.address.toNat + codeSize s - x.toNat + span - 1)/span :=
          Nat.div_pos (by omega) hspan
        rw [List.length_nil]
        omega

/-- A point is in one of the sections at most. -/
theorem pointsBehind_sum {all : Finset (BitVec 32)} (hapart : sections.Pairwise Apart)
    (hsub : ∀ s ∈ sections, pointsBehind points s s.address ⊆ all) :
    (sections.map fun s => (pointsBehind points s s.address).card).sum ≤ all.card := by
  induction sections generalizing all with
  | nil => exact Nat.zero_le _
  | cons s sections ih =>
    obtain ⟨hs,hapart⟩ := List.pairwise_cons.mp hapart
    have hhas : ∀ t : LoadedCodeSection, ∀ p ∈ pointsBehind points t t.address,
        Has t p.toNat := by
      intro t p hm
      obtain ⟨-,hlo,hhi⟩ := Finset.mem_filter.mp hm
      exact ⟨hlo.le,hhi.trans_le (Nat.add_le_add_left (codeSize_le t) _)⟩
    rw [List.map_cons,List.sum_cons,
      ← Finset.card_sdiff_add_card_eq_card (hsub s List.mem_cons_self),Nat.add_comm]
    refine Nat.add_le_add_right (ih hapart fun t ht p hm => ?_) _
    refine Finset.mem_sdiff.mpr ⟨hsub t (.tail s ht) hm,fun hm' => ?_⟩
    exact hs t ht p.toNat ⟨hhas s p hm',hhas t p hm⟩

theorem capacity_entry (hchunk : 0 < chunk.toNat) (hspan : 4*chunk.toNat < 2^32) :
    ((s.size/4 + chunk - 1)/chunk).toNat = (s.size.toNat/4 + chunk.toNat - 1)/chunk.toNat := by
  have hsize := s.size.isLt
  have hwords : (s.size/4).toNat = s.size.toNat/4 := BitVec.toNat_udiv
  rw [BitVec.toNat_udiv,BitVec.toNat_sub,BitVec.toNat_add,hwords,
    show (1 : BitVec 32).toNat = 1 from rfl]
  congr 1
  omega

theorem rangeCapacity_toNat (hchunk : 0 < chunk.toNat) (hspan : 4*chunk.toNat < 2^32)
    (hcapacity : points.length + (sections.map fun s =>
      (s.size.toNat/4 + chunk.toNat - 1)/chunk.toNat).sum < 2^32) :
    (rangeCapacity chunk points sections).toNat = points.length + (sections.map fun s =>
      (s.size.toNat/4 + chunk.toNat - 1)/chunk.toNat).sum := by
  have hfold : ∀ (sections : List LoadedCodeSection) (capacity : BitVec 32), capacity.toNat +
      (sections.map fun s => (s.size.toNat/4 + chunk.toNat - 1)/chunk.toNat).sum < 2^32 →
      (sections.foldl (fun capacity s => capacity + (s.size/4 + chunk - 1)/chunk)
        capacity).toNat = capacity.toNat +
          (sections.map fun s => (s.size.toNat/4 + chunk.toNat - 1)/chunk.toNat).sum := by
    intro sections
    induction sections with
    | nil => exact fun _ _ => rfl
    | cons s sections ih =>
      intro capacity hlt
      rw [List.map_cons,List.sum_cons] at hlt ⊢
      have hstep : (capacity + (s.size/4 + chunk - 1)/chunk).toNat = capacity.toNat +
          (s.size.toNat/4 + chunk.toNat - 1)/chunk.toNat := by
        rw [BitVec.toNat_add,capacity_entry hchunk hspan]
        exact Nat.mod_eq_of_lt (by omega)
      rw [List.foldl_cons,ih _ (by rw [hstep]; omega),hstep,Nat.add_assoc]
  have hlen : (BitVec.ofNat 32 points.length).toNat = points.length := by
    rw [BitVec.toNat_ofNat]
    exact Nat.mod_eq_of_lt (by omega)
  rw [rangeCapacity,hfold sections _ (by rw [hlen]; exact hcapacity),hlen]

/-- Sections that share no address have room for their ranges, where the size of the buffer and the
span of a chunk do not wrap. -/
theorem fits_of_apart (hsorted : points.Pairwise (· < ·)) (hp : PatchesLoaded points patches)
    (hchunk : 0 < chunk.toNat) (hspan : 4*chunk.toNat < 2^32) (hapart : sections.Pairwise Apart)
    (hend : ∀ s ∈ sections, s.address.toNat + codeSize s < 2^32)
    (hin : ∀ s ∈ sections, Inside patches s)
    (hcapacity : points.length + (sections.map fun s =>
      (s.size.toNat/4 + chunk.toNat - 1)/chunk.toNat).sum < 2^32) :
    Fits chunk points patches sections := by
  have hspanNat : (chunk*4).toNat = 4*chunk.toNat := by
    rw [BitVec.toNat_mul,Nat.mul_comm]
    exact Nat.mod_eq_of_lt hspan
  have hzero : chunk*4 ≠ 0 := fun h0 => by
    rw [h0] at hspanNat
    change 0 = _ at hspanNat
    omega
  refine ⟨hend,hin,fun h0 => absurd h0 hzero,?_⟩
  have hone : ∀ s ∈ sections, ∑ c ∈ cuts points patches s, pieces chunk points patches s c ≤
      (s.size.toNat/4 + chunk.toNat - 1)/chunk.toNat + (pointsBehind points s s.address).card := by
    intro s hs
    obtain ⟨ranges,hsplit⟩ := Split.exists_of (hend s hs) hsorted hp (hin s hs)
      (fun h0 => absurd h0 hzero) At.first fun h0 => absurd h0 hzero
    have hlen := hsplit.length_le (hend s hs) hsorted hp (hin s hs) (by omega) At.first
    rw [hsplit.pieces (hend s hs) hsorted hp (hin s hs),hspanNat,Nat.add_sub_cancel_left,
      codeSize] at hlen
    have hdiv : (4*(s.size.toNat/4) + 4*chunk.toNat - 1)/(4*chunk.toNat) =
        (s.size.toNat/4 + chunk.toNat - 1)/chunk.toNat := by
      rw [← Nat.div_div_eq_div_mul]
      congr 1
      omega
    rwa [hdiv] at hlen
  rw [rangeCapacity_toNat hchunk hspan hcapacity]
  refine (List.sum_le_sum hone).trans ?_
  rw [List.sum_map_add,Nat.add_comm]
  refine Nat.add_le_add_right (le_trans ?_ (List.toFinset_card_le points)) _
  exact pointsBehind_sum hapart fun s _ => Finset.filter_subset _ _

end

end Llvm

end DolRecomp
