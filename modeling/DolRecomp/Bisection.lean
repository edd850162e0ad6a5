import Mathlib.Data.List.Pairwise
import Mathlib.Tactic.Common

/-!
# Bisection

Two searches that halve a list: for the first key above a value, and for the interval that a value
is in. The second finds everything exactly when the intervals are in order.
-/

namespace Bisection

section

variable {α : Type} (key : α → ℕ) (items : List α) (x : ℕ)

/-- An index of the first item from `low` on whose key is above `x`. -/
def firstAbove (low high : ℕ) : ℕ :=
  if low < high then
    let middle := low + (high - low)/2
    match items[middle]? with
    | none => low
    | some item => if key item ≤ x then firstAbove (middle + 1) high else firstAbove low middle
  else low
termination_by high - low

variable {key items x}

/-- In a list in order, what is before the index is at most `x` and the rest is above. -/
theorem firstAbove_spec (hsorted : items.Pairwise fun a b => key a < key b) {low high : ℕ}
    (hle : low ≤ high) (hhigh : high ≤ items.length)
    (hbelow : ∀ (i : ℕ) (hi : i < items.length), i < low → key items[i] ≤ x)
    (habove : ∀ (i : ℕ) (hi : i < items.length), high ≤ i → x < key items[i]) :
    ∀ (i : ℕ) (hi : i < items.length), key items[i] ≤ x ↔ i < firstAbove key items x low high := by
  have hmono := List.pairwise_iff_getElem.mp hsorted
  fun_induction firstAbove key items x low high with
  | case1 low high hlt middle hnone =>
    have hm : middle = low + (high - low)/2 := rfl
    exact absurd (List.getElem?_eq_none_iff.mp hnone) (by omega)
  | case2 low high hlt middle item hitem hkey ih =>
    have hm : middle = low + (high - low)/2 := rfl
    obtain ⟨hlen,rfl⟩ := List.getElem?_eq_some_iff.mp hitem
    refine ih (by omega) hhigh (fun i hi hlt => ?_) habove
    rcases Nat.lt_or_ge i middle with h | h
    · exact Nat.le_trans (Nat.le_of_lt (hmono i middle hi hlen h)) hkey
    · have heq : i = middle := by omega
      subst heq
      exact hkey
  | case3 low high hlt middle item hitem hkey ih =>
    have hm : middle = low + (high - low)/2 := rfl
    obtain ⟨hlen,rfl⟩ := List.getElem?_eq_some_iff.mp hitem
    refine ih (by omega) (by omega) hbelow (fun i hi hge => ?_)
    rcases Nat.lt_or_ge middle i with h | h
    · exact Nat.lt_trans (Nat.lt_of_not_le hkey) (hmono middle i hlen hi h)
    · have heq : i = middle := by omega
      subst heq
      exact Nat.lt_of_not_le hkey
  | case4 low high hlt =>
    intro i hi
    have heq : low = high := by omega
    subst heq
    constructor
    · intro hkey
      by_contra hge
      exact absurd (habove i hi (Nat.le_of_not_lt hge)) (Nat.not_lt.mpr hkey)
    · exact hbelow i hi

end

section

variable {α : Type} (start limit : α → ℕ) (items : List α) (x : ℕ)

/-- The item between two indices whose interval has `x`. -/
def find (first last : ℕ) : Option α :=
  if first < last then
    let middle := first + (last - first)/2
    match items[middle]? with
    | none => none
    | some item =>
      if x < start item then find first middle
      else if limit item ≤ x then find (middle + 1) last
      else some item
  else none
termination_by last - first

variable {start limit items x}

/-- What is found has `x`, in any list. -/
theorem find_some {first last : ℕ} {item : α}
    (h : find start limit items x first last = some item) :
    (∃ i, first ≤ i ∧ i < last ∧ items[i]? = some item) ∧ start item ≤ x ∧ x < limit item := by
  fun_induction find start limit items x first last with
  | case1 => cases h
  | case2 first last hlt middle item' hitem hx ih =>
    have hm : middle = first + (last - first)/2 := rfl
    obtain ⟨⟨i,h1,h2,h3⟩,hhas⟩ := ih h
    exact ⟨⟨i,h1,by omega,h3⟩,hhas⟩
  | case3 first last hlt middle item' hitem hx hlimit ih =>
    have hm : middle = first + (last - first)/2 := rfl
    obtain ⟨⟨i,h1,h2,h3⟩,hhas⟩ := ih h
    exact ⟨⟨i,by omega,h2,h3⟩,hhas⟩
  | case4 first last hlt middle item' hitem hx hlimit =>
    have hm : middle = first + (last - first)/2 := rfl
    cases h
    exact ⟨⟨middle,by omega,by omega,hitem⟩,Nat.le_of_not_lt hx,Nat.lt_of_not_le hlimit⟩
  | case5 => cases h

/-- In a list in order every interval is found. -/
theorem find_of_sorted (hne : ∀ item ∈ items, start item ≤ limit item)
    (hsorted : items.Pairwise fun a b => limit a ≤ start b)
    {first last k : ℕ} (hlast : last ≤ items.length) (h1 : first ≤ k) (h2 : k < last)
    {item : α} (hk : items[k]? = some item) (hstart : start item ≤ x) (hlimit : x < limit item) :
    find start limit items x first last = some item := by
  have hmono := List.pairwise_iff_getElem.mp hsorted
  obtain ⟨hlen,hget⟩ := List.getElem?_eq_some_iff.mp hk
  fun_induction find start limit items x first last with
  | case1 first last hlt middle hnone =>
    have hm : middle = first + (last - first)/2 := rfl
    exact absurd (List.getElem?_eq_none_iff.mp hnone) (by omega)
  | case2 first last hlt middle item' hitem hx ih =>
    obtain ⟨hmlen,rfl⟩ := List.getElem?_eq_some_iff.mp hitem
    refine ih (by omega) h1 (Nat.lt_of_not_le fun hge => ?_)
    rcases Nat.lt_or_eq_of_le hge with h | h
    · have hle := hmono middle k hmlen hlen h
      have hle' := hne items[middle] (List.getElem_mem hmlen)
      rw [hget] at hle
      omega
    · subst h
      rw [hget] at hx
      omega
  | case3 first last hlt middle item' hitem hx hlimit' ih =>
    obtain ⟨hmlen,rfl⟩ := List.getElem?_eq_some_iff.mp hitem
    refine ih hlast (Nat.lt_of_not_le fun hge => ?_) h2
    rcases Nat.lt_or_eq_of_le hge with h | h
    · have hle := hmono k middle hlen hmlen h
      rw [hget] at hle
      omega
    · subst h
      rw [hget] at hlimit'
      omega
  | case4 first last hlt middle item' hitem hx hlimit' =>
    obtain ⟨hmlen,rfl⟩ := List.getElem?_eq_some_iff.mp hitem
    rcases Nat.lt_trichotomy k middle with h | h | h
    · have hle := hmono k middle hlen hmlen h
      rw [hget] at hle
      omega
    · subst h
      rw [← hget]
    · have hle := hmono middle k hmlen hlen h
      rw [hget] at hle
      omega
  | case5 => omega

theorem find_step {first last : ℕ} {item : α} (hlt : first < last)
    (hitem : items[first + (last - first)/2]? = some item) :
    find start limit items x first last =
      if x < start item then find start limit items x first (first + (last - first)/2)
      else if limit item ≤ x then find start limit items x (first + (last - first)/2 + 1) last
      else some item := by
  conv_lhs => unfold find
  rw [if_pos hlt]
  dsimp only
  rw [hitem]

section

variable (hne : ∀ item ∈ items, start item < limit item)
  (hapart : items.Pairwise fun a b => limit a ≤ start b ∨ limit b ≤ start a)

include hapart in
theorem index_unique {i k : ℕ} {a b : α} (hi : items[i]? = some a) (hk : items[k]? = some b)
    (ha : start a ≤ x ∧ x < limit a) (hb : start b ≤ x ∧ x < limit b) : i = k := by
  have h := List.pairwise_iff_getElem.mp hapart
  obtain ⟨hilen,rfl⟩ := List.getElem?_eq_some_iff.mp hi
  obtain ⟨hklen,rfl⟩ := List.getElem?_eq_some_iff.mp hk
  rcases Nat.lt_trichotomy i k with hlt | heq | hgt
  · rcases h i k hilen hklen hlt with h | h <;> omega
  · exact heq
  · rcases h k i hklen hilen hgt with h | h <;> omega

include hapart in
/-- Where a search that finds an interval of one half goes. -/
theorem find_halves {first last middle k : ℕ} {m item : α} (hlt : first < last)
    (hmiddle : middle = first + (last - first)/2) (hm : items[middle]? = some m)
    (hk : items[k]? = some item) (hx : start item ≤ x ∧ x < limit item)
    (h : find start limit items x first last = some item) :
    (k < middle → x < start m ∧ find start limit items x first middle = some item) ∧
    (middle < k → limit m ≤ x ∧ find start limit items x (middle + 1) last = some item) := by
  subst hmiddle
  rw [find_step hlt hm] at h
  split at h
  next hstart =>
    refine ⟨fun _ => ⟨hstart,h⟩,fun hgt => ?_⟩
    obtain ⟨⟨i,-,hi,hget⟩,-⟩ := find_some h
    have := index_unique hapart hget hk hx hx
    omega
  next hstart =>
    split at h
    next hlimit =>
      refine ⟨fun hgt => ?_,fun _ => ⟨hlimit,h⟩⟩
      obtain ⟨⟨i,hi,-,hget⟩,-⟩ := find_some h
      have := index_unique hapart hget hk hx hx
      omega
    next hlimit =>
      cases h
      have := index_unique hapart hm hk hx hx
      exact ⟨fun _ => by omega,fun _ => by omega⟩

include hne hapart in
/-- Only a list in order has all its intervals found. -/
theorem sorted_of_find {first last : ℕ} (hlast : last ≤ items.length)
    (hfind : ∀ k item x, first ≤ k → k < last → items[k]? = some item → start item ≤ x →
      x < limit item → find start limit items x first last = some item) :
    ∀ i j (hi : i < items.length) (hj : j < items.length), first ≤ i → i < j → j < last →
      limit items[i] ≤ start items[j] := by
  induction hn : last - first using Nat.strongRecOn generalizing first last with
  | ind n ih =>
    intro i j hi hj h1 hij h2
    have hlt : first < last := by omega
    obtain ⟨middle,hmiddle⟩ : ∃ middle, middle = first + (last - first)/2 := ⟨_,rfl⟩
    have hmlen : middle < items.length := by omega
    have hm := List.getElem?_eq_getElem hmlen
    have hhalf := fun k item x h1 h2 hk hstart hlimit =>
      find_halves hapart hlt hmiddle hm hk ⟨hstart,hlimit⟩ (hfind k item x h1 h2 hk hstart hlimit)
    have hbefore : ∀ k (hk : k < items.length), first ≤ k → k < middle →
        limit items[k] ≤ start items[middle] := by
      intro k hk h1 h2
      have hlt := hne items[k] (List.getElem_mem hk)
      have := ((hhalf k items[k] (limit items[k] - 1) h1 (by omega)
        (List.getElem?_eq_getElem hk) (by omega) (by omega)).1 h2).1
      omega
    have hbehind : ∀ k (hk : k < items.length), middle < k → k < last →
        limit items[middle] ≤ start items[k] := by
      intro k hk h1 h2
      exact ((hhalf k items[k] (start items[k]) (by omega) h2 (List.getElem?_eq_getElem hk)
        (Nat.le_refl _) (hne items[k] (List.getElem_mem hk))).2 h1).1
    rcases Nat.lt_trichotomy i middle with him | him | him
    · rcases Nat.lt_trichotomy j middle with hjm | hjm | hjm
      · refine ih (middle - first) (by omega) (by omega) (fun k item x h1 h2 hk hs hl => ?_) rfl
          i j hi hj h1 hij hjm
        exact ((hhalf k item x h1 (by omega) hk hs hl).1 h2).2
      · subst hjm
        exact hbefore i hi h1 him
      · have hlt := hne items[middle] (List.getElem_mem hmlen)
        have h3 := hbefore i hi h1 him
        have h4 := hbehind j hj hjm h2
        omega
    · subst him
      exact hbehind j hj hij h2
    · refine ih (last - (middle + 1)) (by omega) hlast (fun k item x h1 h2 hk hs hl => ?_) rfl
        i j hi hj him hij h2
      exact ((hhalf k item x (by omega) h2 hk hs hl).2 h1).2

end

end

end Bisection
