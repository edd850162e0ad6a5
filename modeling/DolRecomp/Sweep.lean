import Mathlib.Data.Fintype.Order
import Mathlib.Data.Finite.Prod
import Mathlib.Data.List.FinRange
import Mathlib.Order.Bounds.Basic

/-!
# Repeated sweeps over a system of equations

Every unknown of a finite system is recomputed from the current values, in
order and again until a sweep changes nothing. For monotone equations over a
finite order the sweeps go up to the least solution.
-/

namespace Sweep

variable {n : ℕ} {α : Type*} [PartialOrder α]

/-- Recompute one unknown. -/
def step (f : Fin n → (Fin n → α) → α) (x : Fin n → α) (i : Fin n) : Fin n → α :=
  Function.update x i (f i x)

def sweep (f : Fin n → (Fin n → α) → α) (x : Fin n → α) : Fin n → α :=
  (List.finRange n).foldl (step f) x

/-- No equation asks for less than the value it has. -/
def Rising (f : Fin n → (Fin n → α) → α) (x : Fin n → α) : Prop := ∀ i, x i ≤ f i x

variable {f : Fin n → (Fin n → α) → α} {x y : Fin n → α}

theorem le_step (hx : Rising f x) (i : Fin n) : x ≤ step f x i := by
  intro j
  by_cases h : j = i
  · rw [h,step,Function.update_self]
    exact hx i
  · rw [step,Function.update_of_ne h]

theorem rising_step (hf : ∀ i, Monotone (f i)) (hx : Rising f x) (i : Fin n) :
    Rising f (step f x i) := by
  intro j
  refine le_trans ?_ (hf j (le_step hx i))
  by_cases h : j = i
  · rw [h,step,Function.update_self]
  · rw [step,Function.update_of_ne h]
    exact hx j

theorem rising_foldl (hf : ∀ i, Monotone (f i)) (is : List (Fin n)) (hx : Rising f x) :
    Rising f (is.foldl (step f) x) ∧ x ≤ is.foldl (step f) x := by
  induction is generalizing x with
  | nil => exact ⟨hx,le_rfl⟩
  | cons i is ih =>
    obtain ⟨h,hle⟩ := ih (rising_step hf hx i)
    exact ⟨h,(le_step hx i).trans hle⟩

theorem foldl_fixed (hf : ∀ i, Monotone (f i)) (is : List (Fin n)) (hx : Rising f x)
    (h : is.foldl (step f) x = x) : ∀ i ∈ is, f i x = x i := by
  induction is with
  | nil => exact fun i hi => absurd hi List.not_mem_nil
  | cons i is ih =>
    have hle := (rising_foldl hf is (rising_step hf hx i)).2
    have hs : step f x i = x := le_antisymm (hle.trans h.le) (le_step hx i)
    intro j hj
    rcases List.mem_cons.1 hj with rfl | hj
    · have := congrFun hs j
      rwa [step,Function.update_self] at this
    · refine ih ?_ j hj
      rwa [List.foldl_cons,hs] at h

theorem foldl_le (hf : ∀ i, Monotone (f i)) (hy : ∀ i, f i y ≤ y i) (is : List (Fin n))
    (hx : x ≤ y) : is.foldl (step f) x ≤ y := by
  induction is generalizing x with
  | nil => exact hx
  | cons i is ih =>
    refine ih fun j => ?_
    by_cases h : j = i
    · rw [h,step,Function.update_self]
      exact (hf i hx).trans (hy i)
    · rw [step,Function.update_of_ne h]
      exact hx j

/-- Sweep until nothing changes: the values of a rising assignment go up. -/
def solve [Finite α] [DecidableEq α] (hf : ∀ i, Monotone (f i)) (x : Fin n → α)
    (hx : Rising f x) : Fin n → α :=
  if h : sweep f x = x then x else solve hf (sweep f x) (rising_foldl hf _ hx).1
termination_by (wellFounded_gt (α := Fin n → α)).wrap x
decreasing_by exact lt_of_le_of_ne (rising_foldl hf _ hx).2 (Ne.symm h)

variable [Finite α] [DecidableEq α]

theorem solve_fixed (hf : ∀ i, Monotone (f i)) (x : Fin n → α) (hx : Rising f x) (i : Fin n) :
    f i (solve hf x hx) = solve hf x hx i := by
  induction x, hx using solve.induct hf with
  | case1 x hx h =>
    rw [solve,dif_pos h]
    exact foldl_fixed hf _ hx h i (List.mem_finRange i)
  | case2 x hx h ih =>
    rw [solve,dif_neg h]
    exact ih

theorem solve_le (hf : ∀ i, Monotone (f i)) (hy : ∀ i, f i y ≤ y i) (x : Fin n → α)
    (hx : Rising f x) (hxy : x ≤ y) : solve hf x hx ≤ y := by
  induction x, hx using solve.induct hf with
  | case1 x hx h =>
    rw [solve,dif_pos h]
    exact hxy
  | case2 x hx h ih =>
    rw [solve,dif_neg h]
    exact ih (foldl_le hf hy _ hxy)

/-- From the bottom the sweeps reach the least assignment that the equations respect. -/
theorem solve_isLeast [OrderBot α] (hf : ∀ i, Monotone (f i)) (hx : Rising f fun _ => ⊥) :
    IsLeast {y | ∀ i, f i y ≤ y i} (solve hf (fun _ => ⊥) hx) :=
  ⟨fun i => (solve_fixed hf _ hx i).le,fun _ hy => solve_le hf hy _ hx fun _ => bot_le⟩

end Sweep
