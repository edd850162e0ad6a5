import Mathlib.Order.Lattice
import Mathlib.Data.List.Induction

/-!
# The first best element of a list

One pass keeps an admissible element of the largest score; a later one replaces it only with a
larger score.
-/

namespace FirstBest

variable {α β : Type*} [LinearOrder β] (p : α → Prop) (score : α → β)

def step [DecidablePred p] (best : Option α) (a : α) : Option α :=
  if p a ∧ ∀ b ∈ best, score b < score a then some a else best

/-- The position of an admissible element: none has a larger score, none before it the same. -/
def IsBestAt (l : List α) (i : ℕ) (a : α) : Prop :=
  l[i]? = some a ∧ p a ∧
    ∀ j b, l[j]? = some b → p b → score b ≤ score a ∧ (score b = score a → i ≤ j)

/-- What the pass has found in a list. -/
def Found (l : List α) : Option α → Prop
  | none => ∀ a ∈ l, ¬ p a
  | some a => ∃ i, IsBestAt p score l i a

variable {p score} {l : List α}

theorem isBestAt_append {i : ℕ} {a b : α} (h : IsBestAt p score l i a)
    (hb : p b → score b ≤ score a) : IsBestAt p score (l ++ [b]) i a := by
  obtain ⟨hi,hp,hbest⟩ := h
  have hlt : i < l.length := (List.getElem?_eq_some_iff.mp hi).1
  refine ⟨by rw [List.getElem?_append_left hlt,hi],hp,fun j c hj hc => ?_⟩
  by_cases hjl : j < l.length
  · rw [List.getElem?_append_left hjl] at hj
    exact hbest j c hj hc
  · rw [List.getElem?_append_right (by omega)] at hj
    obtain ⟨_,hcb⟩ := List.getElem?_eq_some_iff.mp hj
    rw [List.getElem_singleton] at hcb
    subst hcb
    exact ⟨hb hc,fun _ => by omega⟩

theorem isBestAt_last {b : α} (hb : p b) (h : ∀ a ∈ l, p a → score a < score b) :
    IsBestAt p score (l ++ [b]) l.length b := by
  refine ⟨List.getElem?_concat_length,hb,fun j c hj hc => ?_⟩
  by_cases hjl : j < l.length
  · rw [List.getElem?_append_left hjl] at hj
    have hlt := h c (List.mem_of_getElem? hj) hc
    exact ⟨hlt.le,fun heq => absurd heq hlt.ne⟩
  · rw [List.getElem?_append_right (by omega)] at hj
    obtain ⟨_,hcb⟩ := List.getElem?_eq_some_iff.mp hj
    rw [List.getElem_singleton] at hcb
    subst hcb
    exact ⟨le_rfl,fun _ => by omega⟩

section
variable [DecidablePred p]

/-- One step keeps what the pass has found. -/
theorem found_step {best : Option α} (h : Found p score l best) (b : α) :
    Found p score (l ++ [b]) (step p score best b) := by
  rw [step]
  split
  · next hb =>
    refine ⟨l.length,isBestAt_last hb.1 fun a ha hpa => ?_⟩
    cases best with
    | none => exact absurd hpa (h a ha)
    | some c =>
      obtain ⟨i,-,-,hbest⟩ := h
      obtain ⟨j,hj⟩ := List.getElem?_of_mem ha
      exact (hbest j a hj hpa).1.trans_lt (hb.2 c rfl)
  · next hb =>
    cases best with
    | none =>
      intro a ha
      rcases List.mem_append.mp ha with ha | ha
      · exact h a ha
      · rw [List.mem_singleton.mp ha]
        exact fun hpb => hb ⟨hpb,fun _ hc => absurd hc (by simp)⟩
    | some c =>
      obtain ⟨i,hi⟩ := h
      refine ⟨i,isBestAt_append hi fun hpb => ?_⟩
      by_contra hlt
      refine hb ⟨hpb,fun d hd => ?_⟩
      rw [← Option.mem_some_iff.mp hd]
      exact lt_of_not_ge hlt

theorem found_foldl (l : List α) : Found p score l (l.foldl (step p score) none) := by
  induction l using List.reverseRecOn with
  | nil => exact fun a ha => absurd ha List.not_mem_nil
  | append_singleton l b ih =>
    rw [List.foldl_append]
    exact found_step ih b

end

end FirstBest
