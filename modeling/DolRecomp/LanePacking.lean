import Mathlib.Data.List.Basic
import Mathlib.Tactic.Common

/-!
# Packing words into lanes

Words of up to 64 bits are put into lanes of 64, each at the next free bit unless it would cross
the end of a lane. What is read at the place of a word is that word.
-/

namespace LanePacking

/-- Where the next word goes. -/
def place (pos w : ℕ) : ℕ := if pos % 64 ≠ 0 ∧ 64 < pos % 64 + w then (pos/64 + 1)*64 else pos

theorem le_place (pos w : ℕ) : pos ≤ place pos w := by
  unfold place
  split <;> omega

theorem place_fits (pos : ℕ) {w : ℕ} (hw : w ≤ 64) : place pos w % 64 + w ≤ 64 := by
  unfold place
  split <;> omega

/-- A bit of the lanes, counted from the first lane on. -/
def laneBit (lanes : List (BitVec 64)) (i : ℕ) : Bool := ((lanes[i/64]?).getD 0).getLsbD (i % 64)

theorem laneBit_modify {lanes : List (BitVec 64)} {q : ℕ} (hq : q/64 < lanes.length) (v : BitVec 64)
    (i : ℕ) : laneBit (lanes.modify (q/64) (· ||| (v <<< (q % 64)))) i =
      (laneBit lanes i || (decide (q/64 = i/64 ∧ q ≤ i) && v.getLsbD (i - q))) := by
  unfold laneBit
  rw [List.getElem?_modify]
  by_cases h : q/64 = i/64
  · rw [h] at hq
    have hmod : i % 64 < q % 64 ↔ ¬q ≤ i := by omega
    have hsub : i % 64 - q % 64 = i - q ∨ ¬q ≤ i := by omega
    rw [show (fun a : BitVec 64 => if q/64 = i/64 then a ||| v <<< (q % 64) else a) =
      (· ||| v <<< (q % 64)) from funext fun a => if_pos h,List.getElem?_eq_getElem hq]
    show ((lanes[i/64] ||| v <<< (q % 64)).getLsbD (i % 64)) = _
    rw [BitVec.getLsbD_or,BitVec.getLsbD_shiftLeft,decide_eq_true (Nat.mod_lt _ (by decide)),
      Bool.true_and]
    by_cases hle : q ≤ i
    · have hno : ¬i % 64 < q % 64 := fun hlt => hmod.mp hlt hle
      rw [hsub.resolve_right (not_not.mpr hle),decide_eq_false hno,decide_eq_true ⟨h,hle⟩]
      rfl
    · rw [decide_eq_true (hmod.mpr hle),decide_eq_false fun hno => hle hno.2]
      rfl
  · rw [show (fun a : BitVec 64 => if q/64 = i/64 then a ||| v <<< (q % 64) else a) = id from
      funext fun a => if_neg h,decide_eq_false fun hno => h hno.1]
    simp

section

variable {α : Type} [DecidableEq α] (width : α → ℕ)

def finish : List α → ℕ → ℕ
  | [], pos => pos
  | a :: l, pos => finish l (place pos (width a) + width a)

def position (a : α) : List α → ℕ → Option ℕ
  | [], _ => none
  | b :: l, pos =>
    if b = a then some (place pos (width b)) else position a l (place pos (width b) + width b)

omit [DecidableEq α] in
theorem le_finish (l : List α) (pos : ℕ) : pos ≤ finish width l pos := by
  induction l generalizing pos with
  | nil => exact Nat.le_refl _
  | cons a l ih => exact Nat.le_trans (Nat.le_trans (le_place pos (width a)) (Nat.le_add_right _ _)) (ih _)

theorem position_mem {a : α} {l : List α} (h : a ∈ l) (pos : ℕ) :
    ∃ q, position width a l pos = some q := by
  induction l generalizing pos with
  | nil => cases h
  | cons b l ih =>
    rw [position]
    split
    next => exact ⟨_,rfl⟩
    next hne => exact ih (List.mem_of_ne_of_mem (Ne.symm hne) h) _

theorem le_position {a : α} {l : List α} {pos q : ℕ} (h : position width a l pos = some q) :
    pos ≤ q ∧ q + width a ≤ finish width l pos := by
  induction l generalizing pos with
  | nil => cases h
  | cons b l ih =>
    rw [position] at h
    split at h
    next hb =>
      cases h
      subst hb
      exact ⟨le_place _ _,le_finish width l _⟩
    next =>
      have := ih h
      have hle := le_place pos (width b)
      exact ⟨by omega,this.2⟩

theorem position_fits (hw : ∀ a, width a ≤ 64) {a : α} {l : List α} {pos q : ℕ}
    (h : position width a l pos = some q) : q % 64 + width a ≤ 64 := by
  induction l generalizing pos with
  | nil => cases h
  | cons b l ih =>
    rw [position] at h
    split at h
    next hb =>
      cases h
      subst hb
      exact place_fits _ (hw _)
    next => exact ih h

theorem position_disjoint {a b : α} (hab : a ≠ b) {l : List α} {pos q r : ℕ}
    (ha : position width a l pos = some q) (hb : position width b l pos = some r) :
    q + width a ≤ r ∨ r + width b ≤ q := by
  induction l generalizing pos with
  | nil => cases ha
  | cons c l ih =>
    rw [position] at ha hb
    by_cases hca : c = a
    · rw [if_pos hca] at ha
      rw [if_neg fun hcb => hab (hca.symm.trans hcb)] at hb
      cases ha
      rw [← hca]
      exact .inl (le_position width hb).1
    · rw [if_neg hca] at ha
      by_cases hcb : c = b
      · rw [if_pos hcb] at hb
        cases hb
        rw [← hcb]
        exact .inr (le_position width ha).1
      · rw [if_neg hcb] at hb
        exact ih ha hb

variable (word : α → BitVec 64)

/-- Each word is put into its lane. -/
def pack : List α → ℕ → List (BitVec 64) → List (BitVec 64)
  | [], _, lanes => lanes
  | a :: l, pos, lanes =>
    let q := place pos (width a)
    pack l (q + width a) (lanes.modify (q/64) (· ||| (word a <<< (q % 64))))

omit [DecidableEq α] in
@[simp] theorem length_pack (l : List α) (pos : ℕ) (lanes : List (BitVec 64)) :
    (pack width word l pos lanes).length = lanes.length := by
  induction l generalizing pos lanes with
  | nil => rfl
  | cons a l ih => rw [pack,ih,List.length_modify]

variable {width word} (hw : ∀ a, 0 < width a ∧ width a ≤ 64)
  (hword : ∀ a k, width a ≤ k → (word a).getLsbD k = false)

include hw

omit [DecidableEq α] in
theorem laneBit_pack_lt {l : List α} {pos : ℕ} {lanes : List (BitVec 64)}
    (hlen : finish width l pos ≤ 64*lanes.length) {i : ℕ} (hi : i < pos) :
    laneBit (pack width word l pos lanes) i = laneBit lanes i := by
  induction l generalizing pos lanes with
  | nil => rfl
  | cons a l ih =>
    have hle := le_place pos (width a)
    have hfin := le_finish width l (place pos (width a) + width a)
    rw [finish] at hlen
    have hpos := (hw a).1
    rw [pack,ih (by rw [List.length_modify]; exact hlen) (by omega),
      laneBit_modify (by omega) _ i,decide_eq_false fun h => by omega,Bool.false_and,Bool.or_false]

include hword

theorem laneBit_pack {a : α} {l : List α} {pos q : ℕ} {lanes : List (BitVec 64)}
    (hlen : finish width l pos ≤ 64*lanes.length) (hfree : ∀ i, pos ≤ i → laneBit lanes i = false)
    (h : position width a l pos = some q) {k : ℕ} (hk : k < width a) :
    laneBit (pack width word l pos lanes) (q + k) = (word a).getLsbD k := by
  induction l generalizing pos lanes with
  | nil => cases h
  | cons b l ih =>
    have hle := le_place pos (width b)
    have hfin := le_finish width l (place pos (width b) + width b)
    have hfits := place_fits pos (hw b).2
    rw [finish] at hlen
    have hlane : place pos (width b)/64 < lanes.length := by
      have := (hw b).1
      omega
    rw [position] at h
    rw [pack]
    split at h
    next hb =>
      cases h
      subst hb
      rw [laneBit_pack_lt hw (by rw [List.length_modify]; exact hlen) (by omega),
        laneBit_modify hlane,hfree _ (by omega),decide_eq_true ⟨by omega,by omega⟩,
        Bool.false_or,Bool.true_and,Nat.add_sub_cancel_left]
    next =>
      refine ih (by rw [List.length_modify]; exact hlen) (fun i hi => ?_) h
      rw [laneBit_modify hlane,hfree _ (by omega),hword _ _ (by omega),Bool.and_false,
        Bool.or_false]

end

end LanePacking
