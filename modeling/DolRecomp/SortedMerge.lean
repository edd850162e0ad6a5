import Mathlib.Data.List.Basic
import Mathlib.Data.List.Induction
import Mathlib.Order.Lattice

/-!
# Merging the equal keys of a sorted list

One pass over a list whose keys ascend. An element with the key of the last one kept is merged into
it, any other is kept.
-/

namespace SortedMerge

variable {α κ : Type*} [LinearOrder κ] (key : α → κ) (merge : α → α → α)

def step (out : List α) (c : α) : List α :=
  match out.getLast? with
  | some p => if key p = key c then out.dropLast ++ [merge p c] else out ++ [c]
  | none => out ++ [c]

/-- The elements with one key, merged from left to right. -/
def Gathers (l : List α) (a : α) : Prop :=
  ∃ b bs, l.filter (fun c => decide (key c = key a)) = b :: bs ∧ a = bs.foldl merge b

structure Merged (l out : List α) : Prop where
  increasing : out.Pairwise fun a b => key a < key b
  gathers : ∀ a ∈ out, Gathers key merge l a
  complete : ∀ c ∈ l, ∃ a ∈ out, key a = key c

variable {key merge} {l out : List α} {c : α}

theorem gathers_append_of_ne {a : α} (h : Gathers key merge l a) (hne : key c ≠ key a) :
    Gathers key merge (l ++ [c]) a := by
  obtain ⟨b,bs,hfilter,ha⟩ := h
  refine ⟨b,bs,?_,ha⟩
  rw [List.filter_append,hfilter]
  simp [hne]

theorem gathers_append_of_eq (hmerge : ∀ a b, key (merge a b) = key a) {a : α}
    (h : Gathers key merge l a) (heq : key c = key a) :
    Gathers key merge (l ++ [c]) (merge a c) := by
  obtain ⟨b,bs,hfilter,ha⟩ := h
  refine ⟨b,bs ++ [c],?_,?_⟩
  · rw [List.filter_append,hmerge,hfilter]
    simp [heq]
  · rw [List.foldl_append,← ha]
    rfl

/-- The key of the last element is the largest. -/
theorem key_le_of_mem {p : α} (hlast : out.getLast? = some p)
    (h : out.Pairwise fun a b => key a < key b) {a : α} (ha : a ∈ out) : key a ≤ key p := by
  rw [← List.dropLast_append_getLast? p hlast] at h ha
  rcases List.mem_append.mp ha with ha | ha
  · exact ((List.pairwise_append.mp h).2.2 a ha p List.mem_cons_self).le
  · rw [List.mem_singleton.mp ha]

theorem merged_append (h : Merged key merge l out) (hnew : ∀ a ∈ out, key a < key c) :
    Merged key merge (l ++ [c]) (out ++ [c]) := by
  have hempty : l.filter (fun b => decide (key b = key c)) = [] := by
    refine List.filter_eq_nil_iff.mpr fun b hb heq => ?_
    obtain ⟨a,ha,hab⟩ := h.complete b hb
    have hlt := hnew a ha
    rw [hab,of_decide_eq_true heq] at hlt
    exact lt_irrefl _ hlt
  refine ⟨?_,fun a ha => ?_,fun b hb => ?_⟩
  · refine List.pairwise_append.mpr ⟨h.increasing,List.pairwise_singleton _ _,fun a ha b hb => ?_⟩
    rw [List.mem_singleton.mp hb]
    exact hnew a ha
  · rcases List.mem_append.mp ha with ha | ha
    · exact gathers_append_of_ne (h.gathers a ha) (hnew a ha).ne'
    · rw [List.mem_singleton.mp ha]
      refine ⟨c,[],?_,rfl⟩
      rw [List.filter_append,hempty]
      simp
  · rcases List.mem_append.mp hb with hb | hb
    · obtain ⟨a,ha,hab⟩ := h.complete b hb
      exact ⟨a,List.mem_append_left _ ha,hab⟩
    · exact ⟨c,List.mem_append_right _ List.mem_cons_self,by rw [List.mem_singleton.mp hb]⟩

theorem merged_replace (hmerge : ∀ a b, key (merge a b) = key a) {front : List α} {p : α}
    (h : Merged key merge l (front ++ [p])) (heq : key p = key c) :
    Merged key merge (l ++ [c]) (front ++ [merge p c]) := by
  obtain ⟨hfront,-,hlast⟩ := List.pairwise_append.mp h.increasing
  refine ⟨?_,fun a ha => ?_,fun b hb => ?_⟩
  · refine List.pairwise_append.mpr ⟨hfront,List.pairwise_singleton _ _,fun a ha b hb => ?_⟩
    rw [List.mem_singleton.mp hb,hmerge]
    exact hlast a ha p List.mem_cons_self
  · rcases List.mem_append.mp ha with ha | ha
    · have hlt := hlast a ha p List.mem_cons_self
      exact gathers_append_of_ne (h.gathers a (List.mem_append_left _ ha)) (heq ▸ hlt.ne')
    · rw [List.mem_singleton.mp ha]
      exact gathers_append_of_eq hmerge
        (h.gathers p (List.mem_append_right _ List.mem_cons_self)) heq.symm
  · have hcovers {a : α} (ha : a ∈ front ++ [p]) : ∃ b ∈ front ++ [merge p c], key b = key a := by
      rcases List.mem_append.mp ha with ha | ha
      · exact ⟨a,List.mem_append_left _ ha,rfl⟩
      · rw [List.mem_singleton.mp ha]
        exact ⟨merge p c,List.mem_append_right _ List.mem_cons_self,hmerge p c⟩
    rcases List.mem_append.mp hb with hb | hb
    · obtain ⟨a,ha,hab⟩ := h.complete b hb
      rw [← hab]
      exact hcovers ha
    · rw [List.mem_singleton.mp hb]
      exact ⟨merge p c,List.mem_append_right _ List.mem_cons_self,(hmerge p c).trans heq⟩

theorem merged_step (hmerge : ∀ a b, key (merge a b) = key a) (h : Merged key merge l out)
    (hmax : ∀ a ∈ l, key a ≤ key c) : Merged key merge (l ++ [c]) (step key merge out c) := by
  have hout : ∀ a ∈ out, key a ≤ key c := fun a ha => by
    obtain ⟨b,bs,hfilter,-⟩ := h.gathers a ha
    have hb : b ∈ l.filter (fun c => decide (key c = key a)) := hfilter ▸ List.mem_cons_self
    rw [← of_decide_eq_true (List.mem_filter.mp hb).2]
    exact hmax b (List.mem_filter.mp hb).1
  rw [step]
  cases hlast : out.getLast? with
  | none =>
    rw [List.getLast?_eq_none_iff.mp hlast] at h ⊢
    exact merged_append h fun a ha => absurd ha List.not_mem_nil
  | some p =>
    have hsplit := List.dropLast_append_getLast? p hlast
    dsimp only
    split
    · next heq =>
      rw [← hsplit] at h
      exact merged_replace hmerge h heq
    · next hne =>
      have hlt : key p < key c := lt_of_le_of_ne (hout p (List.mem_of_getLast? hlast)) hne
      exact merged_append h fun a ha => (key_le_of_mem hlast h.increasing ha).trans_lt hlt

theorem merged_foldl (hmerge : ∀ a b, key (merge a b) = key a)
    (hsorted : l.Pairwise fun a b => key a ≤ key b) :
    Merged key merge l (l.foldl (step key merge) []) := by
  induction l using List.reverseRecOn with
  | nil => exact ⟨List.Pairwise.nil,fun a ha => absurd ha List.not_mem_nil,
      fun a ha => absurd ha List.not_mem_nil⟩
  | append_singleton l c ih =>
    obtain ⟨hl,-,hmax⟩ := List.pairwise_append.mp hsorted
    rw [List.foldl_append]
    exact merged_step hmerge (ih hl) fun a ha => hmax a ha c List.mem_cons_self

end SortedMerge
