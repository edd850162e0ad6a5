import Mathlib.Data.BitVec
import Mathlib.Data.List.Basic
import Mathlib.Data.List.Induction
import Mathlib.Tactic.Common

/-!
# The ranges of patched instructions

The analysis records the addresses it notes as ranges of words, and looks at the last range only.
-/

namespace DolRecomp

/-- `SMCRange`; `stop` is its `end`, the last word. -/
structure SMCRange where
  start : BitVec 32
  stop : BitVec 32
  deriving DecidableEq

/-- `SMCAnalysis`; the list holds the `range_count` ranges of the array. -/
structure SMCAnalysis where
  possible : Bool
  allocationFailed : Bool
  rangeCapacity : BitVec 32
  ranges : List SMCRange
  deriving DecidableEq

namespace SMCAnalysis

/-- The cleared record. -/
def empty : SMCAnalysis := ⟨false,false,0,[]⟩

/-- The word belongs to the last range, or follows it. -/
def Extends (r : SMCRange) (addr : BitVec 32) : Prop := addr ≥ r.start ∧ addr ≤ r.stop + 4

instance (r : SMCRange) (addr : BitVec 32) : Decidable (Extends r addr) :=
  inferInstanceAs (Decidable (_ ∧ _))

def extend (r : SMCRange) (addr : BitVec 32) : SMCRange :=
  if addr > r.stop then { r with stop := addr } else r

/-- The end of `smc_note`, where a range is added. The allocator answers to a number of bytes; it
has no block of none. -/
def append (realloc : ℕ → Bool) (smc : SMCAnalysis) (addr : BitVec 32) : SMCAnalysis :=
  if smc.ranges.length ≥ smc.rangeCapacity.toNat then
    let newCapacity := if smc.rangeCapacity ≠ 0 then smc.rangeCapacity*2 else 16
    if newCapacity = 0 ∨ !realloc (newCapacity.toNat*8) then { smc with allocationFailed := true }
    else { smc with rangeCapacity := newCapacity, ranges := smc.ranges ++ [⟨addr,addr⟩] }
  else { smc with ranges := smc.ranges ++ [⟨addr,addr⟩] }

/-- `smc_note` -/
def note (realloc : ℕ → Bool) (smc : SMCAnalysis) (addr : BitVec 32) : SMCAnalysis :=
  let smc := { smc with possible := true }
  match smc.ranges.getLast? with
  | some r =>
    if Extends r addr then { smc with ranges := smc.ranges.dropLast ++ [extend r addr] }
    else append realloc smc addr
  | none => append realloc smc addr

end SMCAnalysis

def IsWord (addr : BitVec 32) : Prop := addr.toNat % 4 = 0 ∧ addr.toNat < 2^32 - 4

instance : DecidablePred IsWord := fun _ => inferInstanceAs (Decidable (_ ∧ _))

/-- The words of a range, in steps of four. -/
def SMCRange.Covers (r : SMCRange) (addr : BitVec 32) : Prop :=
  r.start ≤ addr ∧ addr ≤ r.stop ∧ (addr.toNat - r.start.toNat) % 4 = 0

def Covered (ranges : List SMCRange) (addr : BitVec 32) : Prop := ∃ r ∈ ranges, r.Covers addr

/-- One range ends before the other starts, with a word between them. -/
def Apart (r s : SMCRange) : Prop := r.stop.toNat + 4 < s.start.toNat

structure SMCRange.Wellformed (r : SMCRange) : Prop where
  start : IsWord r.start
  stop : IsWord r.stop
  le : r.start ≤ r.stop

section
variable {r : SMCRange} {addr a : BitVec 32}

theorem IsWord.add_four (h : IsWord addr) : (addr + 4).toNat = addr.toNat + 4 := by
  rw [BitVec.toNat_add]
  exact Nat.mod_eq_of_lt (show addr.toNat + 4 < 2^32 by have := h.2; omega)

theorem wellformed_extend (hr : r.Wellformed) (ha : IsWord addr)
    (h : SMCAnalysis.Extends r addr) : (SMCAnalysis.extend r addr).Wellformed := by
  rw [SMCAnalysis.extend]
  split
  · exact ⟨hr.start,ha,h.1⟩
  · exact hr

theorem covers_extend (hr : r.Wellformed) (ha : IsWord addr) (h : SMCAnalysis.Extends r addr) :
    (SMCAnalysis.extend r addr).Covers a ↔ r.Covers a ∨ a = addr := by
  obtain ⟨⟨hs,-⟩,hstop,hle⟩ := hr
  have hw := ha.1
  have hlast := hstop.1
  obtain ⟨hge,hnext⟩ := h
  rw [ge_iff_le,BitVec.le_def] at hge
  rw [BitVec.le_def,hstop.add_four] at hnext
  rw [BitVec.le_def] at hle
  have heq : a = addr ↔ a.toNat = addr.toNat := BitVec.toNat_inj.symm
  rw [SMCAnalysis.extend,SMCRange.Covers,SMCRange.Covers,heq]
  split
  · next hgt =>
    rw [gt_iff_lt,BitVec.lt_def] at hgt
    simp only [BitVec.le_def]
    omega
  · next hgt =>
    rw [gt_iff_lt,BitVec.lt_def] at hgt
    simp only [BitVec.le_def]
    omega

theorem covers_single : SMCRange.Covers ⟨addr,addr⟩ a ↔ a = addr := by
  have heq : a = addr ↔ a.toNat = addr.toNat := BitVec.toNat_inj.symm
  rw [SMCRange.Covers,heq]
  simp only [BitVec.le_def]
  omega

end
def noted (ranges : List SMCRange) (addr : BitVec 32) : List SMCRange :=
  match ranges.getLast? with
  | some r =>
    if SMCAnalysis.Extends r addr then ranges.dropLast ++ [SMCAnalysis.extend r addr]
    else ranges ++ [⟨addr,addr⟩]
  | none => ranges ++ [⟨addr,addr⟩]

section
variable {realloc : ℕ → Bool} {smc : SMCAnalysis} {addr : BitVec 32}

theorem append_ranges (h : (smc.append realloc addr).allocationFailed = false) :
    smc.allocationFailed = false ∧
      (smc.append realloc addr).ranges = smc.ranges ++ [⟨addr,addr⟩] := by
  rw [SMCAnalysis.append] at h ⊢
  by_cases hfull : smc.ranges.length ≥ smc.rangeCapacity.toNat
  · rw [if_pos hfull] at h ⊢
    by_cases hroom : (if smc.rangeCapacity ≠ 0 then smc.rangeCapacity*2 else 16) = 0 ∨
        !realloc ((if smc.rangeCapacity ≠ 0 then smc.rangeCapacity*2 else 16).toNat*8)
    · rw [if_pos hroom] at h
      exact absurd h Bool.noConfusion
    · rw [if_neg hroom] at h ⊢
      exact ⟨h,rfl⟩
  · rw [if_neg hfull] at h ⊢
    exact ⟨h,rfl⟩

/-- A failed allocation is never forgotten. -/
theorem note_ranges (h : (smc.note realloc addr).allocationFailed = false) :
    smc.allocationFailed = false ∧ (smc.note realloc addr).ranges = noted smc.ranges addr := by
  rw [SMCAnalysis.note,noted] at *
  cases hlast : smc.ranges.getLast? with
  | none =>
    simp only [hlast] at h ⊢
    exact append_ranges h
  | some r =>
    simp only [hlast] at h ⊢
    split
    · next hext =>
      rw [if_pos hext] at h
      exact ⟨h,rfl⟩
    · next hext =>
      rw [if_neg hext] at h
      exact append_ranges h

end

/-- The representation: the ranges have the words noted so far. -/
structure Records (ranges : List SMCRange) (addrs : List (BitVec 32)) : Prop where
  wellformed : ∀ r ∈ ranges, r.Wellformed
  covered : ∀ a, Covered ranges a ↔ a ∈ addrs

/-- What holds besides behind words in ascending order. -/
structure Ascends (ranges : List SMCRange) (addrs : List (BitVec 32)) : Prop where
  apart : ranges.Pairwise Apart
  stop : ranges.getLast?.map SMCRange.stop = addrs.getLast?

section
variable {ranges : List SMCRange} {addrs : List (BitVec 32)} {addr : BitVec 32}

theorem covered_append {front : List SMCRange} {r : SMCRange} {a : BitVec 32} :
    Covered (front ++ [r]) a ↔ Covered front a ∨ r.Covers a := by
  simp [Covered,or_and_right,exists_or]

theorem records_append (h : Records ranges addrs) (ha : IsWord addr) :
    Records (ranges ++ [⟨addr,addr⟩]) (addrs ++ [addr]) := by
  refine ⟨fun r hr => ?_,fun a => ?_⟩
  · rcases List.mem_append.mp hr with hr | hr
    · exact h.wellformed r hr
    · rw [List.mem_singleton.mp hr]
      exact ⟨ha,ha,BitVec.le_refl _⟩
  · rw [covered_append,h.covered,covers_single]
    simp

theorem records_extend {front : List SMCRange} {r : SMCRange} (h : Records (front ++ [r]) addrs)
    (ha : IsWord addr) (hext : SMCAnalysis.Extends r addr) :
    Records (front ++ [SMCAnalysis.extend r addr]) (addrs ++ [addr]) := by
  have hr : r.Wellformed := h.wellformed r (List.mem_append_right _ List.mem_cons_self)
  refine ⟨fun s hs => ?_,fun a => ?_⟩
  · rcases List.mem_append.mp hs with hs | hs
    · exact h.wellformed s (List.mem_append_left _ hs)
    · rw [List.mem_singleton.mp hs]
      exact wellformed_extend hr ha hext
  · have hcov := h.covered a
    rw [covered_append] at hcov
    rw [covered_append,covers_extend hr ha hext,← or_assoc,hcov]
    simp

theorem records_noted (h : Records ranges addrs) (ha : IsWord addr) :
    Records (noted ranges addr) (addrs ++ [addr]) := by
  rw [noted]
  cases hlast : ranges.getLast? with
  | none => exact records_append h ha
  | some r =>
    have hsplit := List.dropLast_append_getLast? r hlast
    dsimp only
    split
    · next hext =>
      rw [← hsplit] at h
      exact records_extend h ha hext
    · exact records_append h ha

theorem start_extend (r : SMCRange) (addr : BitVec 32) :
    (SMCAnalysis.extend r addr).start = r.start := by
  rw [SMCAnalysis.extend]
  split <;> rfl

theorem stop_extend {r : SMCRange} (hstop : r.stop ≤ addr) :
    (SMCAnalysis.extend r addr).stop = addr := by
  rw [SMCAnalysis.extend]
  split
  · rfl
  · next hle => exact BitVec.le_antisymm hstop (BitVec.not_lt.mp hle)

theorem ascends_extend {front : List SMCRange} {r : SMCRange} (h : Ascends (front ++ [r]) addrs)
    (hstop : r.stop ≤ addr) :
    Ascends (front ++ [SMCAnalysis.extend r addr]) (addrs ++ [addr]) := by
  obtain ⟨hfront,-,hlast⟩ := List.pairwise_append.mp h.apart
  refine ⟨List.pairwise_append.mpr ⟨hfront,List.pairwise_singleton _ _,fun p hp s hs => ?_⟩,
    by simp [stop_extend hstop]⟩
  rw [List.mem_singleton.mp hs,Apart,start_extend]
  exact hlast p hp r List.mem_cons_self

/-- Behind a gap a range of its own is apart from all that are there. -/
theorem ascends_append {front : List SMCRange} {r : SMCRange} (h : Ascends (front ++ [r]) addrs)
    (hr : r.Wellformed) (hgap : Apart r ⟨addr,addr⟩) :
    Ascends (front ++ [r] ++ [⟨addr,addr⟩]) (addrs ++ [addr]) := by
  obtain ⟨-,-,hlast⟩ := List.pairwise_append.mp h.apart
  refine ⟨List.pairwise_append.mpr ⟨h.apart,List.pairwise_singleton _ _,fun p hp s hs => ?_⟩,
    by simp⟩
  rw [List.mem_singleton.mp hs]
  rcases List.mem_append.mp hp with hp | hp
  · have hpr := hlast p hp r List.mem_cons_self
    have hle := BitVec.le_def.mp hr.le
    rw [Apart] at hpr hgap ⊢
    omega
  · rw [List.mem_singleton.mp hp]
    exact hgap

theorem ascends_noted (hrec : Records ranges addrs) (h : Ascends ranges addrs)
    (hmax : ∀ a ∈ addrs, a ≤ addr) : Ascends (noted ranges addr) (addrs ++ [addr]) := by
  rw [noted]
  cases hlast : ranges.getLast? with
  | none =>
    rw [List.getLast?_eq_none_iff.mp hlast]
    exact ⟨List.pairwise_singleton _ _,by simp⟩
  | some r =>
    have hsplit := List.dropLast_append_getLast? r hlast
    have hr : r.Wellformed := hrec.wellformed r (List.mem_of_getLast? hlast)
    have hstop : r.stop ≤ addr := by
      have hs := h.stop
      rw [hlast] at hs
      exact hmax _ (List.mem_of_getLast? hs.symm)
    have hfront : Ascends (ranges.dropLast ++ [r]) addrs := by rwa [hsplit]
    dsimp only
    split
    · exact ascends_extend hfront hstop
    · next hext =>
      have hgap : Apart r ⟨addr,addr⟩ := by
        have hge : r.start ≤ addr := BitVec.le_trans hr.le hstop
        have hnot : ¬ addr ≤ r.stop + 4 := fun hle => hext ⟨hge,hle⟩
        rw [BitVec.le_def,hr.stop.add_four] at hnot
        exact Nat.not_le.mp hnot
      have happend := ascends_append hfront hr hgap
      rwa [hsplit] at happend

end

def noteAll (realloc : ℕ → Bool) (addrs : List (BitVec 32)) : SMCAnalysis :=
  addrs.foldl (SMCAnalysis.note realloc) SMCAnalysis.empty

theorem noteAll_append (realloc : ℕ → Bool) (addrs : List (BitVec 32)) (addr : BitVec 32) :
    noteAll realloc (addrs ++ [addr]) = (noteAll realloc addrs).note realloc addr :=
  List.foldl_append

theorem records_noteAll {realloc : ℕ → Bool} {addrs : List (BitVec 32)}
    (hword : ∀ a ∈ addrs, IsWord a) (halloc : (noteAll realloc addrs).allocationFailed = false) :
    Records (noteAll realloc addrs).ranges addrs := by
  induction addrs using List.reverseRecOn with
  | nil => exact ⟨fun r hr => absurd hr List.not_mem_nil,fun a => by simp [Covered,noteAll,
      SMCAnalysis.empty]⟩
  | append_singleton addrs addr ih =>
    rw [noteAll_append] at halloc ⊢
    obtain ⟨hprev,hranges⟩ := note_ranges halloc
    rw [hranges]
    exact records_noted (ih (fun a ha => hword a (List.mem_append_left _ ha)) hprev)
      (hword addr (List.mem_append_right _ List.mem_cons_self))

theorem ascends_noteAll {realloc : ℕ → Bool} {addrs : List (BitVec 32)}
    (hword : ∀ a ∈ addrs, IsWord a) (halloc : (noteAll realloc addrs).allocationFailed = false)
    (hsorted : addrs.Pairwise (· ≤ ·)) : Ascends (noteAll realloc addrs).ranges addrs := by
  induction addrs using List.reverseRecOn with
  | nil => exact ⟨List.Pairwise.nil,rfl⟩
  | append_singleton addrs addr ih =>
    rw [noteAll_append] at halloc ⊢
    obtain ⟨hprev,hranges⟩ := note_ranges halloc
    rw [hranges]
    have hwords : ∀ a ∈ addrs, IsWord a := fun a ha => hword a (List.mem_append_left _ ha)
    obtain ⟨hs,-,hmax⟩ := List.pairwise_append.mp hsorted
    exact ascends_noted (records_noteAll hwords hprev) (ih hwords hprev hs)
      fun a ha => hmax a ha addr List.mem_cons_self

/-- The ranges have exactly the words noted; behind words in ascending order each range ends before
the next one starts, with a word between them. -/
theorem smc_ranges_exact {realloc : ℕ → Bool} {addrs : List (BitVec 32)}
    (hword : ∀ a ∈ addrs, IsWord a) (halloc : (noteAll realloc addrs).allocationFailed = false) :
    (∀ a, Covered (noteAll realloc addrs).ranges a ↔ a ∈ addrs) ∧
    (addrs.Pairwise (· ≤ ·) → (noteAll realloc addrs).ranges.Pairwise Apart ∧
      ∀ r ∈ (noteAll realloc addrs).ranges, r.start ≤ r.stop) := by
  have hrec := records_noteAll hword halloc
  exact ⟨hrec.covered,fun hsorted => ⟨(ascends_noteAll hword halloc hsorted).apart,
    fun r hr => (hrec.wellformed r hr).le⟩⟩

/-- Two adjacent words, one noted twice, and one further on. -/
def sampleWords : List (BitVec 32) := [0x80003100,0x80003104,0x80003104,0x80003110]

theorem smc_ranges_sample :
    (noteAll (fun _ => true) sampleWords).ranges.Pairwise Apart := by
  have h := @smc_ranges_exact (fun _ => true) sampleWords
    (by simp [sampleWords,IsWord]) (by decide)
  exact (h.2 (by decide)).1

end DolRecomp
