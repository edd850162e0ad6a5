import Mathlib.Data.Finset.Card
import Mathlib.Data.Fintype.Basic
import Mathlib.Data.Finset.Range
import Mathlib.Logic.Function.Basic
import Mathlib.Tactic.Common

/-!
# Linear probing

A table of slots in which a key is looked for from the slot of its hash on, up to the first free
slot. As long as a slot is free, the search ends and finds the keys that were put in.
-/

namespace LinearProbing

section

variable {α : Type} (size : ℕ) (slots : ℕ → Option α)

def freeSlot : ℕ → ℕ → Option ℕ
  | 0, _ => none
  | fuel + 1, pos => if (slots pos).isNone then some pos else freeSlot fuel ((pos + 1) % size)

/-- Whether a key is met before a free slot. -/
def search [DecidableEq α] (key : α) : ℕ → ℕ → Option Bool
  | 0, _ => none
  | fuel + 1, pos =>
    match slots pos with
    | none => some false
    | some k => if k = key then some true else search key fuel ((pos + 1) % size)

theorem step_mod (start n : ℕ) : ((start + n) % size + 1) % size = (start + (n + 1)) % size := by
  rw [Nat.mod_add_mod,Nat.add_assoc]

theorem freeSlot_pass {start n : ℕ} (fuel : ℕ)
    (h : ∀ m < n, slots ((start + m) % size) ≠ none) :
    freeSlot size slots (fuel + n) (start % size) =
      freeSlot size slots fuel ((start + n) % size) := by
  induction n generalizing fuel with
  | zero => rfl
  | succ n ih =>
    rw [← Nat.add_assoc,Nat.add_right_comm,ih (fuel + 1) fun m hm => h m (Nat.lt_succ_of_lt hm),
      freeSlot,if_neg (by simpa using h n (Nat.lt_succ_self n)),step_mod]

theorem search_pass [DecidableEq α] {key : α} {start n : ℕ} (fuel : ℕ)
    (h : ∀ m < n, ∃ k, slots ((start + m) % size) = some k ∧ k ≠ key) :
    search size slots key (fuel + n) (start % size) =
      search size slots key fuel ((start + n) % size) := by
  induction n generalizing fuel with
  | zero => rfl
  | succ n ih =>
    obtain ⟨k,hk,hne⟩ := h n (Nat.lt_succ_self n)
    rw [← Nat.add_assoc,Nat.add_right_comm,ih (fuel + 1) fun m hm => h m (Nat.lt_succ_of_lt hm),
      search,hk]
    dsimp only
    rw [if_neg hne,step_mod]

/-- A free slot is met from everywhere. -/
theorem exists_first {P : ℕ → Prop} {pos : ℕ} (hpos : pos < size) (h : P pos) (start : ℕ) :
    ∃ n < size, P ((start + n) % size) ∧ ∀ m < n, ¬P ((start + m) % size) := by
  classical
  have hex : ∃ n, P ((start + n) % size) := by
    refine ⟨size - start % size + pos,?_⟩
    have hlt := Nat.mod_lt start (Nat.zero_lt_of_lt hpos)
    have heq : (start + (size - start % size + pos)) % size = pos := by
      rw [← Nat.mod_add_mod,← Nat.add_assoc,Nat.add_sub_cancel' hlt.le,Nat.add_mod_left,
        Nat.mod_eq_of_lt hpos]
    rwa [heq]
  refine ⟨Nat.find hex,?_,Nat.find_spec hex,fun m hm => Nat.find_min hex hm⟩
  by_contra hno
  -- a round before, the same slot was met already
  have hlow := Nat.find_min hex (m := Nat.find hex - size) (by omega)
  have heq : start + Nat.find hex = start + (Nat.find hex - size) + size := by omega
  have hspec := Nat.find_spec hex
  rw [heq,Nat.add_mod_right] at hspec
  exact hlow hspec

end

/-- The keys of a table can be found, and nothing else is in it. -/
structure Holds {α : Type} (size : ℕ) (hash : α → ℕ) (slots : ℕ → Option α) (keys : List α) :
    Prop where
  sound : ∀ pos < size, ∀ k, slots pos = some k → k ∈ keys
  found : ∀ k ∈ keys, ∃ n < size, slots ((hash k + n) % size) = some k ∧
    ∀ m < n, slots ((hash k + m) % size) ≠ none
  filled : ((Finset.range size).filter fun pos => slots pos ≠ none).card = keys.length

section

variable {α : Type} {size : ℕ} {hash : α → ℕ} {slots : ℕ → Option α} {keys : List α}

theorem holds_empty (size : ℕ) (hash : α → ℕ) : Holds size hash (fun _ => none) [] :=
  ⟨nofun,fun _ h => absurd h List.not_mem_nil,by simp⟩

variable (h : Holds size hash slots keys) (hroom : keys.length < size)

include h hroom

theorem Holds.exists_free : ∃ pos < size, slots pos = none := by
  by_contra hno
  have hall : (Finset.range size).filter (fun pos => slots pos ≠ none) = Finset.range size :=
    Finset.filter_true_of_mem fun pos hpos hnone => hno ⟨pos,Finset.mem_range.mp hpos,hnone⟩
  have hfilled := h.filled
  rw [hall,Finset.card_range] at hfilled
  omega

theorem Holds.search_eq [DecidableEq α] (key : α) :
    search size slots key size (hash key % size) = some (decide (key ∈ keys)) := by
  obtain ⟨pos,hpos,hfree⟩ := h.exists_free hroom
  by_cases hkey : key ∈ keys
  · rw [decide_eq_true hkey]
    obtain ⟨n,hn,hslot,hfull⟩ := h.found key hkey
    obtain ⟨l,hl,hfirst,hbefore⟩ := exists_first size (P := fun pos => slots pos = some key)
      (Nat.mod_lt (hash key + n) (Nat.zero_lt_of_lt hpos)) hslot (hash key)
    have hle : l ≤ n := not_lt.mp fun hlt => hbefore n hlt hslot
    have hpass : ∀ m < l, ∃ k, slots ((hash key + m) % size) = some k ∧ k ≠ key := fun m hm => by
      obtain ⟨k,hk⟩ := Option.ne_none_iff_exists'.mp (hfull m (by omega))
      exact ⟨k,hk,fun heq => hbefore m hm (heq ▸ hk)⟩
    have := search_pass size slots (size - l) hpass
    rw [Nat.sub_add_cancel hl.le] at this
    obtain ⟨fuel,hfuel⟩ := Nat.exists_eq_succ_of_ne_zero (n := size - l) (by omega)
    rw [this,hfuel,search,hfirst]
    exact if_pos rfl
  · rw [decide_eq_false hkey]
    obtain ⟨l,hl,hfirst,hbefore⟩ := exists_first size (P := fun pos => slots pos = none) hpos hfree
      (hash key)
    have hpass : ∀ m < l, ∃ k, slots ((hash key + m) % size) = some k ∧ k ≠ key := fun m hm => by
      obtain ⟨k,hk⟩ := Option.ne_none_iff_exists'.mp (hbefore m hm)
      exact ⟨k,hk,fun heq => hkey (heq ▸ h.sound _ (Nat.mod_lt _ (by omega)) k hk)⟩
    have := search_pass size slots (size - l) hpass
    rw [Nat.sub_add_cancel hl.le] at this
    obtain ⟨fuel,hfuel⟩ := Nat.exists_eq_succ_of_ne_zero (n := size - l) (by omega)
    rw [this,hfuel,search,hfirst]

/-- A key goes to the first free slot. -/
theorem Holds.exists_insert (key : α) : ∃ pos < size,
    freeSlot size slots size (hash key % size) = some pos ∧
      Holds size hash (Function.update slots pos (some key)) (keys ++ [key]) := by
  obtain ⟨pos,hpos,hfree⟩ := h.exists_free hroom
  obtain ⟨l,hl,hfirst,hbefore⟩ := exists_first size (P := fun pos => slots pos = none) hpos hfree
    (hash key)
  have hplace := Nat.mod_lt (hash key + l) (Nat.zero_lt_of_lt hpos)
  refine ⟨(hash key + l) % size,hplace,?_,?_,?_,?_⟩
  · have := freeSlot_pass size slots (size - l) hbefore
    rw [Nat.sub_add_cancel hl.le] at this
    obtain ⟨fuel,hfuel⟩ := Nat.exists_eq_succ_of_ne_zero (n := size - l) (by omega)
    rw [this,hfuel,freeSlot,hfirst]
    rfl
  · intro pos hpos k hk
    by_cases heq : pos = (hash key + l) % size
    · rw [heq,Function.update_self] at hk
      exact List.mem_append_right _ (List.mem_singleton.mpr (Option.some.inj hk).symm)
    · rw [Function.update_of_ne heq] at hk
      exact List.mem_append_left _ (h.sound pos hpos k hk)
  · have hkeep : ∀ pos, slots pos ≠ none →
        Function.update slots ((hash key + l) % size) (some key) pos = slots pos := fun pos hne =>
      Function.update_of_ne (fun heq => hne (by rw [heq,hfirst])) _ _
    intro k hk
    rcases List.mem_append.mp hk with hk | hk
    · obtain ⟨n,hn,hslot,hfull⟩ := h.found k hk
      refine ⟨n,hn,?_,fun m hm => ?_⟩
      · rw [hkeep _ (by rw [hslot]; exact Option.some_ne_none k)]
        exact hslot
      · rw [hkeep _ (hfull m hm)]
        exact hfull m hm
    · rw [List.mem_singleton.mp hk]
      refine ⟨l,hl,Function.update_self _ _ _,fun m hm => ?_⟩
      rw [hkeep _ (hbefore m hm)]
      exact hbefore m hm
  · have hset : (Finset.range size).filter (fun pos =>
        Function.update slots ((hash key + l) % size) (some key) pos ≠ none) =
          insert ((hash key + l) % size)
            ((Finset.range size).filter fun pos => slots pos ≠ none) := by
      ext pos
      by_cases heq : pos = (hash key + l) % size
      · simp [heq,hplace]
      · simp [heq]
    rw [hset,Finset.card_insert_of_notMem (by simp [hfirst]),h.filled,List.length_append]
    rfl

end

end LinearProbing
