import Mathlib.Data.Finite.Prod
import Mathlib.Data.Fintype.Order
import Mathlib.Order.Bounds.Basic

/-!
# Propagation by a worklist

Values of a finite semilattice are joined along the edges of a graph until
nothing changes. The result is the least assignment above the first one that is
closed under all edges, so it does not depend on the order of the work.
-/

namespace Worklist

structure Edge (ι L : Type*) where
  src : ι
  dst : ι
  transfer : L → L

structure State (ι L : Type*) where
  values : ι → L
  queue : List ι

variable {ι L : Type*} [DecidableEq ι] [DecidableEq L] [SemilatticeSup L]

/-- Join the transferred value into the target, which is queued when it changes. -/
def relax (s : State ι L) (e : Edge ι L) : State ι L :=
  let value := s.values e.dst ⊔ e.transfer (s.values e.src)
  if value = s.values e.dst then s
  else
    { values := Function.update s.values e.dst value
      queue := if e.dst ∈ s.queue then s.queue else s.queue ++ [e.dst] }

/-- All edges out of a node, in their order. -/
def visit (edges : List (Edge ι L)) (u : ι) (s : State ι L) : State ι L :=
  (edges.filter fun e => e.src = u).foldl relax s

theorem relax_cases (s : State ι L) (e : Edge ι L) :
    (e.transfer (s.values e.src) ≤ s.values e.dst ∧ relax s e = s) ∨
      (s.values < (relax s e).values ∧ e.dst ∈ (relax s e).queue ∧
        (∀ i ∈ s.queue, i ∈ (relax s e).queue) ∧ (relax s e).values =
          Function.update s.values e.dst (s.values e.dst ⊔ e.transfer (s.values e.src))) := by
  by_cases h : s.values e.dst ⊔ e.transfer (s.values e.src) = s.values e.dst
  · exact .inl ⟨sup_eq_left.1 h,by rw [relax]; exact if_pos h⟩
  · have hr : relax s e =
        { values := Function.update s.values e.dst (s.values e.dst ⊔ e.transfer (s.values e.src))
          queue := if e.dst ∈ s.queue then s.queue else s.queue ++ [e.dst] } := by
      rw [relax]
      exact if_neg h
    rw [hr]
    refine .inr ⟨?_,?_,fun i hi => ?_,rfl⟩
    · refine lt_of_le_of_ne (fun i => ?_) fun heq => h ?_
      · dsimp only
        by_cases hi : i = e.dst
        · rw [hi,Function.update_self]
          exact le_sup_left
        · rw [Function.update_of_ne hi]
      · have := congrFun heq e.dst
        dsimp only at this
        rw [Function.update_self] at this
        exact this.symm
    · dsimp only
      split
      · assumption
      · simp
    · dsimp only
      split
      · exact hi
      · exact List.mem_append_left _ hi

theorem foldl_relax_cases (es : List (Edge ι L)) (s : State ι L) :
    es.foldl relax s = s ∨ s.values < (es.foldl relax s).values := by
  induction es generalizing s with
  | nil => exact .inl rfl
  | cons e es ih =>
    rw [List.foldl_cons]
    rcases relax_cases s e with ⟨-,h⟩ | ⟨h,-⟩
    · rw [h]
      exact ih s
    · refine .inr ?_
      rcases ih (relax s e) with h' | h'
      · rwa [h']
      · exact h.trans h'

theorem progress_wf (ι L : Type*) [Finite ι] [Finite L] [SemilatticeSup L] :
    WellFounded (Prod.Lex (fun v w : ι → L => w < v) fun a b : ℕ => a < b) :=
  WellFounded.prod_lex (wellFounded_gt (α := ι → L)) Nat.lt_wfRel.wf

/-- Work until the queue is empty: a value grows or the queue gets shorter. -/
def run [Finite ι] [Finite L] (edges : List (Edge ι L)) (s : State ι L) : State ι L :=
  match hq : s.queue with
  | [] => s
  | u :: rest => run edges (visit edges u ⟨s.values,rest⟩)
termination_by (progress_wf ι L).wrap (s.values, s.queue.length)
decreasing_by
  rcases foldl_relax_cases (edges.filter fun e => e.src = u) ⟨s.values,rest⟩ with h | h
  · rw [visit,h,hq]
    exact Prod.Lex.right _ (Nat.lt_succ_self _)
  · exact Prod.Lex.left _ _ h

/-- The value of the source has reached the target. -/
def Closed (v : ι → L) (e : Edge ι L) : Prop := e.transfer (v e.src) ≤ v e.dst

/-- Closed, or still to be done. -/
def Covered (s : State ι L) (e : Edge ι L) : Prop := e.src ∈ s.queue ∨ Closed s.values e

theorem relax_covered (s : State ι L) (e e' : Edge ι L) (h : Covered s e) :
    Covered (relax s e') e := by
  rcases relax_cases s e' with ⟨-,heq⟩ | ⟨hlt,hdst,hq,hv⟩
  · rwa [heq]
  · rcases h with h | h
    · exact .inl (hq _ h)
    · by_cases hs : e.src = e'.dst
      · exact .inl (hs ▸ hdst)
      · refine .inr ?_
        rw [Closed] at h ⊢
        have hsrc : (relax s e').values e.src = s.values e.src := by
          rw [hv,Function.update_of_ne hs]
        rw [hsrc]
        exact h.trans (le_of_lt hlt e.dst)

theorem relax_covers (s : State ι L) (e : Edge ι L) : Covered (relax s e) e := by
  rcases relax_cases s e with ⟨hle,heq⟩ | ⟨hlt,hdst,-,hv⟩
  · rw [heq]
    exact .inr hle
  · by_cases hs : e.src = e.dst
    · exact .inl (hs ▸ hdst)
    · refine .inr ?_
      rw [Closed,hv,Function.update_of_ne hs,Function.update_self]
      exact le_sup_right

theorem foldl_relax_covered (es : List (Edge ι L)) (s : State ι L) (e : Edge ι L)
    (h : e ∈ es ∨ Covered s e) : Covered (es.foldl relax s) e := by
  induction es generalizing s with
  | nil =>
    rcases h with h | h
    · cases h
    · exact h
  | cons a es ih =>
    refine ih _ ?_
    rcases h with h | h
    · rcases List.mem_cons.1 h with rfl | h
      · exact .inr (relax_covers s e)
      · exact .inl h
    · exact .inr (relax_covered s e a h)

theorem visit_covered (edges : List (Edge ι L)) {s : State ι L} {u : ι} {rest : List ι}
    (hq : s.queue = u :: rest) (h : ∀ e ∈ edges, Covered s e) :
    ∀ e ∈ edges, Covered (visit edges u ⟨s.values,rest⟩) e := by
  intro e he
  refine foldl_relax_covered _ _ e ?_
  rcases h e he with h | h
  · rw [hq] at h
    rcases List.mem_cons.1 h with h | h
    · exact .inl (List.mem_filter.2 ⟨he,by simpa using h⟩)
    · exact .inr (.inl h)
  · exact .inr (.inr h)

theorem relax_le {s : State ι L} {e : Edge ι L} (he : Monotone e.transfer) {w : ι → L}
    (hw : Closed w e) (h : s.values ≤ w) : (relax s e).values ≤ w := by
  rcases relax_cases s e with ⟨-,heq⟩ | ⟨-,-,-,hv⟩
  · rwa [heq]
  · intro i
    rw [hv]
    by_cases hi : i = e.dst
    · rw [hi,Function.update_self]
      exact sup_le (h e.dst) ((he (h e.src)).trans hw)
    · rw [Function.update_of_ne hi]
      exact h i

theorem foldl_relax_le (es : List (Edge ι L)) (s : State ι L)
    (hm : ∀ e ∈ es, Monotone e.transfer) {w : ι → L} (hw : ∀ e ∈ es, Closed w e)
    (h : s.values ≤ w) : (es.foldl relax s).values ≤ w := by
  induction es generalizing s with
  | nil => exact h
  | cons a es ih =>
    exact ih _ (fun e he => hm e (List.mem_cons_of_mem a he))
      (fun e he => hw e (List.mem_cons_of_mem a he))
      (relax_le (hm a List.mem_cons_self) (hw a List.mem_cons_self) h)

theorem le_foldl_relax (es : List (Edge ι L)) (s : State ι L) :
    s.values ≤ (es.foldl relax s).values := by
  rcases foldl_relax_cases es s with h | h
  · rw [h]
  · exact le_of_lt h

section Run

variable [Finite ι] [Finite L]

theorem run_closed (edges : List (Edge ι L)) (s : State ι L) (h : ∀ e ∈ edges, Covered s e) :
    ∀ e ∈ edges, Closed (run edges s).values e := by
  induction s using run.induct edges with
  | case1 s hq =>
    intro e he
    rw [run]
    split
    · rcases h e he with h | h
      · rw [hq] at h
        cases h
      · exact h
    · next hq' => rw [hq] at hq'; cases hq'
  | case2 s u rest hq ih =>
    rw [run]
    split
    · next hq' => rw [hq] at hq'; cases hq'
    · next hq' =>
      rw [hq] at hq'
      cases hq'
      exact ih (visit_covered edges hq h)

theorem le_run (edges : List (Edge ι L)) (s : State ι L) : s.values ≤ (run edges s).values := by
  induction s using run.induct edges with
  | case1 s hq =>
    rw [run]
    split
    · exact le_refl _
    · next hq' => rw [hq] at hq'; cases hq'
  | case2 s u rest hq ih =>
    rw [run]
    split
    · exact le_refl _
    · next hq' =>
      rw [hq] at hq'
      cases hq'
      exact (le_foldl_relax (edges.filter fun e => e.src = u) ⟨s.values,rest⟩).trans ih

theorem run_le (edges : List (Edge ι L)) (s : State ι L) (hm : ∀ e ∈ edges, Monotone e.transfer)
    {w : ι → L} (hw : ∀ e ∈ edges, Closed w e) (h : s.values ≤ w) :
    (run edges s).values ≤ w := by
  induction s using run.induct edges with
  | case1 s hq =>
    rw [run]
    split
    · exact h
    · next hq' => rw [hq] at hq'; cases hq'
  | case2 s u rest hq ih =>
    rw [run]
    split
    · exact h
    · next hq' =>
      rw [hq] at hq'
      cases hq'
      exact ih (foldl_relax_le _ _ (fun e he => hm e (List.mem_filter.1 he).1)
        (fun e he => hw e (List.mem_filter.1 he).1) h)

/-- From a queue of all nodes, the result is the least closed assignment above the start. -/
theorem run_isLeast (edges : List (Edge ι L)) (s : State ι L)
    (hm : ∀ e ∈ edges, Monotone e.transfer) (hq : ∀ i, i ∈ s.queue) :
    IsLeast {w | s.values ≤ w ∧ ∀ e ∈ edges, Closed w e} (run edges s).values :=
  ⟨⟨le_run edges s,run_closed edges s fun e _ => .inl (hq e.src)⟩,
    fun _ hw => run_le edges s hm hw.2 hw.1⟩

end Run

end Worklist
