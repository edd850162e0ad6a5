import Mathlib.Data.BitVec
import Mathlib.Tactic.Common
import DolRecomp.Threads

/-!
# The range table of a native module

The generated lookup of a range by address, with its shared cache, and the
bitmap of supported entry points that is generated beside it.
-/

namespace DolRecomp

structure NativeRange where
  start : BitVec 32
  endAddr : BitVec 32
  hash : BitVec 64
  deriving DecidableEq, Repr

namespace NativeRange

/-- The addresses from `start` on, `endAddr` excluded. -/
def Contains (r : NativeRange) (address : BitVec 32) : Prop := r.start ≤ address ∧ address < r.endAddr

instance (r : NativeRange) (address : BitVec 32) : Decidable (r.Contains address) :=
  inferInstanceAs (Decidable (_ ∧ _))

/-- The range and the addresses from `start` to `endAddr` have one in common. -/
def Overlaps (r : NativeRange) (start endAddr : BitVec 32) : Prop := r.start < endAddr ∧ start < r.endAddr

def words (r : NativeRange) : ℕ := (r.endAddr - r.start).toNat / 4

end NativeRange

/-- Ranges in the order of their addresses, each a number of whole words. -/
structure NativeTable where
  ranges : List NativeRange
  sorted : ranges.Pairwise fun a b => a.endAddr ≤ b.start
  proper : ∀ r ∈ ranges, r.start < r.endAddr ∧ (r.endAddr - r.start).toNat % 4 = 0
  short : ranges.length < 2 ^ 32

namespace NativeTable

/-- The binary search of `moderngekko_native_find`: the interval from `first` to `count`
shrinks in each of the `fuel` rounds. -/
def searchLoop (ranges : List NativeRange) (address : BitVec 32) : ℕ → ℕ → ℕ → Option ℕ
  | 0, _, _ => none
  | fuel+1, first, count =>
    if first < count then
      let middle := first + (count - first) / 2
      match ranges[middle]? with
      | none => none
      | some range =>
        if address < range.start then searchLoop ranges address fuel first middle
        else if range.endAddr ≤ address then searchLoop ranges address fuel (middle + 1) count
        else some middle
    else none

def search (ranges : List NativeRange) (address : BitVec 32) : Option ℕ :=
  searchLoop ranges address (ranges.length + 1) 0 ranges.length

variable (table : NativeTable)

theorem end_le_start {i j : ℕ} {r q : NativeRange} (hi : table.ranges[i]? = some r)
    (hj : table.ranges[j]? = some q) (h : i < j) : r.endAddr ≤ q.start := by
  obtain ⟨hlt,rfl⟩ := List.getElem?_eq_some_iff.1 hi
  obtain ⟨hlt',rfl⟩ := List.getElem?_eq_some_iff.1 hj
  exact List.pairwise_iff_getElem.1 table.sorted i j hlt hlt' h

theorem start_lt_end {i : ℕ} {r : NativeRange} (hi : table.ranges[i]? = some r) :
    r.start < r.endAddr := (table.proper r (List.mem_of_getElem? hi)).1

theorem contains_unique {i j : ℕ} {r q : NativeRange} {address : BitVec 32}
    (hi : table.ranges[i]? = some r) (hj : table.ranges[j]? = some q) (hr : r.Contains address)
    (hq : q.Contains address) : i = j := by
  rcases Nat.lt_trichotomy i j with h | h | h
  · have := table.end_le_start hi hj h
    have := hr.2
    have := hq.1
    bv_omega
  · exact h
  · have := table.end_le_start hj hi h
    have := hq.2
    have := hr.1
    bv_omega

theorem searchLoop_spec (address : BitVec 32) (fuel first count : ℕ)
    (hf : count - first < fuel) (hc : count ≤ table.ranges.length) :
    (∀ i, searchLoop table.ranges address fuel first count = some i →
      ∃ r, table.ranges[i]? = some r ∧ r.Contains address) ∧
    (searchLoop table.ranges address fuel first count = none →
      ∀ i r, first ≤ i → i < count → table.ranges[i]? = some r → ¬r.Contains address) := by
  induction fuel generalizing first count with
  | zero => omega
  | succ fuel ih =>
    rw [searchLoop]
    by_cases hlt : first < count
    · have hmid : first + (count - first) / 2 < table.ranges.length := by omega
      have hget := List.getElem?_eq_getElem hmid
      simp only [hlt,if_true,hget]
      generalize hm : first + (count - first) / 2 = middle at *
      generalize hr : table.ranges[middle] = range at *
      have hp := table.start_lt_end hget
      by_cases h1 : address < range.start
      · obtain ⟨hs,hn⟩ := ih first middle (by omega) (by omega)
        rw [if_pos h1]
        refine ⟨hs,fun h i r hi hic hri hcon => ?_⟩
        rcases Nat.lt_trichotomy i middle with him | rfl | him
        · exact hn h i r hi him hri hcon
        · have := hcon.1
          rw [hget,Option.some.injEq] at hri
          subst hri
          bv_omega
        · have := table.end_le_start hget hri him
          have := hcon.1
          bv_omega
      · by_cases h2 : range.endAddr ≤ address
        · obtain ⟨hs,hn⟩ := ih (middle + 1) count (by omega) hc
          rw [if_neg h1,if_pos h2]
          refine ⟨hs,fun h i r hi hic hri hcon => ?_⟩
          rcases Nat.lt_trichotomy i middle with him | rfl | him
          · have := table.end_le_start hri hget him
            have := hcon.2
            bv_omega
          · have := hcon.2
            rw [hget,Option.some.injEq] at hri
            subst hri
            bv_omega
          · exact hn h i r him hic hri hcon
        · rw [if_neg h1,if_neg h2]
          refine ⟨fun i hi => ?_,fun h => by cases h⟩
          cases hi
          exact ⟨range,hget,BitVec.not_lt.1 h1,BitVec.not_le.1 h2⟩
    · rw [if_neg hlt]
      exact ⟨fun i hi => (nomatch hi),fun _ i r hi hic => by omega⟩

theorem search_eq_some_iff (address : BitVec 32) (i : ℕ) :
    search table.ranges address = some i ↔
      ∃ r, table.ranges[i]? = some r ∧ r.Contains address := by
  obtain ⟨hs,hn⟩ := table.searchLoop_spec address (table.ranges.length + 1) 0 _ (by omega) (Nat.le_refl _)
  constructor
  · exact hs i
  · rintro ⟨r,hr,hc⟩
    rcases h : search table.ranges address with _ | j
    · obtain ⟨hlt,-⟩ := List.getElem?_eq_some_iff.1 hr
      exact absurd hc (hn h i r (Nat.zero_le i) hlt hr)
    · obtain ⟨q,hq,hqc⟩ := hs j h
      rw [table.contains_unique hr hq hc hqc]

theorem search_lt {address : BitVec 32} {i : ℕ} (h : search table.ranges address = some i) :
    i < table.ranges.length := by
  obtain ⟨r,hr,-⟩ := (table.search_eq_some_iff address i).1 h
  exact (List.getElem?_eq_some_iff.1 hr).1

end NativeTable

end DolRecomp
