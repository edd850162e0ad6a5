import Mathlib.Data.BitVec
import Mathlib.Logic.Function.Basic

/-!
# Masked writes

A masked write sets fixed bits of the words of a store to fixed values. Masked
writes compose to masked writes, and repeating one changes nothing. The second
part is about local updates of a family: their order does not matter.
-/

namespace Masked

section

variable {ι : Type*} {w : ℕ}

def write (mask value data : ι → BitVec w) : ι → BitVec w :=
  fun n => (data n &&& ~~~mask n) ||| (value n &&& mask n)

/-- A change that sets fixed bits to fixed values. -/
def Fixing (g : (ι → BitVec w) → ι → BitVec w) : Prop :=
  ∃ mask value, ∀ data, g data = write mask value data

variable {g h : (ι → BitVec w) → ι → BitVec w}

theorem fixing_id : Fixing (fun data : ι → BitVec w => data) := by
  refine ⟨fun _ => 0,fun _ => 0,fun data => ?_⟩
  funext n
  simp [write]

theorem Fixing.comp (hg : Fixing g) (hh : Fixing h) : Fixing (fun data => h (g data)) := by
  obtain ⟨m,v,hg⟩ := hg
  obtain ⟨m',v',hh⟩ := hh
  refine ⟨fun n => m n ||| m' n,fun n => (v n &&& ~~~m' n) ||| (v' n &&& m' n),fun data => ?_⟩
  show h (g data) = _
  rw [hh,hg]
  funext n
  apply BitVec.eq_of_getLsbD_eq
  intro k hk
  simp only [write,BitVec.getLsbD_or,BitVec.getLsbD_and,BitVec.getLsbD_not,hk,decide_true,
    Bool.true_and]
  cases (m n).getLsbD k <;> cases (m' n).getLsbD k <;> simp

theorem Fixing.idem (hg : Fixing g) (data : ι → BitVec w) : g (g data) = g data := by
  obtain ⟨m,v,hg⟩ := hg
  rw [hg,hg]
  funext n
  apply BitVec.eq_of_getLsbD_eq
  intro k hk
  simp only [write,BitVec.getLsbD_or,BitVec.getLsbD_and,BitVec.getLsbD_not,hk,decide_true,
    Bool.true_and]
  cases (m n).getLsbD k <;> simp

/-- Keep some bits of every word and set others. -/
theorem fixing_keep (keep bits : ι → BitVec w) :
    Fixing (fun data n => (data n &&& keep n) ||| bits n) := by
  refine ⟨fun n => ~~~keep n ||| bits n,bits,fun data => ?_⟩
  funext n
  apply BitVec.eq_of_getLsbD_eq
  intro k hk
  simp only [write,BitVec.getLsbD_or,BitVec.getLsbD_and,BitVec.getLsbD_not,hk,decide_true,
    Bool.true_and]
  cases (keep n).getLsbD k <;> cases (bits n).getLsbD k <;> simp

end

section

variable {κ σ : Type*} [DecidableEq κ] (g : κ → σ → σ)

/-- Change the members of a family one after the other. -/
def each (ks : List κ) (s : κ → σ) : κ → σ :=
  ks.foldl (fun s k => Function.update s k (g k (s k))) s

theorem each_notMem {ks : List κ} {k : κ} (hk : k ∉ ks) (s : κ → σ) : each g ks s k = s k := by
  induction ks generalizing s with
  | nil => rfl
  | cons j ks ih =>
    have hne : k ≠ j := fun h => hk (h ▸ List.mem_cons_self)
    rw [each,List.foldl_cons]
    exact (ih (fun h => hk (List.mem_cons_of_mem _ h)) _).trans (Function.update_of_ne hne _ _)

/-- Idempotent changes depend neither on their order nor on how often they are made. -/
theorem each_mem (hg : ∀ k s, g k (g k s) = g k s) {ks : List κ} {k : κ} (hk : k ∈ ks)
    (s : κ → σ) : each g ks s k = g k (s k) := by
  induction ks generalizing s with
  | nil => cases hk
  | cons j ks ih =>
    rw [each,List.foldl_cons]
    by_cases hks : k ∈ ks
    · refine (ih hks _).trans ?_
      by_cases hj : k = j
      · subst hj
        rw [Function.update_self,hg]
      · rw [Function.update_of_ne hj]
    · obtain rfl : k = j := (List.mem_cons.mp hk).resolve_right hks
      exact (each_notMem g hks _).trans (Function.update_self _ _ _)

end

end Masked
