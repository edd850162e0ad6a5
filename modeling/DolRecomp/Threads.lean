import Mathlib.Data.List.Basic
import Mathlib.Logic.Relation

/-!
# Interleaved operations

A shared state and a growing list of operations, each somewhere in its course.
One step is one atomic action of one operation, a step of the environment, or
the start of an operation. A position in the list names an operation for good.
-/

namespace Threads

structure Config (σ τ : Type*) where
  shared : σ
  ops : List τ

/-- What one system allows: the actions of an operation, the moves of the environment
and the operations that may start. All of them may look at the whole configuration. -/
structure System (σ τ : Type*) where
  act : Config σ τ → τ → σ → τ → Prop
  env : Config σ τ → σ → Prop
  new : Config σ τ → τ → Prop

variable {σ τ : Type*} (S : System σ τ)

inductive Step : Config σ τ → Config σ τ → Prop
  | act {c : Config σ τ} {k : ℕ} {t t' : τ} {s : σ} (hk : c.ops[k]? = some t)
      (h : S.act c t s t') : Step c ⟨s, c.ops.set k t'⟩
  | env {c : Config σ τ} {s : σ} (h : S.env c s) : Step c ⟨s, c.ops⟩
  | new {c : Config σ τ} {t : τ} (h : S.new c t) : Step c ⟨c.shared, c.ops ++ [t]⟩

/-- Any number of steps. -/
abbrev Run : Config σ τ → Config σ τ → Prop := Relation.ReflTransGen (Step S)

variable {S}

theorem Run.invariant {P : Config σ τ → Prop} (hs : ∀ c c', P c → Step S c c' → P c')
    {c c' : Config σ τ} (h : Run S c c') (h0 : P c) : P c' := by
  induction h with
  | refl => exact h0
  | tail _ hstep ih => exact hs _ _ ih hstep

variable {ops : List τ} {k : ℕ} {t t' : τ}

theorem mem_set_cases {u : τ} (h : u ∈ ops.set k t') : u ∈ ops ∨ u = t' :=
  List.mem_or_eq_of_mem_set h

theorem forall_set {P : τ → Prop} (h : ∀ u ∈ ops, P u) (ht : P t') : ∀ u ∈ ops.set k t', P u := by
  intro u hu
  rcases mem_set_cases hu with hu | rfl
  · exact h u hu
  · exact ht

theorem forall_append {P : τ → Prop} (h : ∀ u ∈ ops, P u) (ht : P t) : ∀ u ∈ ops ++ [t], P u := by
  intro u hu
  rcases List.mem_append.1 hu with hu | hu
  · exact h u hu
  · rw [List.mem_singleton.1 hu]
    exact ht

theorem mem_of_get (hk : ops[k]? = some t) : t ∈ ops := List.mem_of_getElem? hk

theorem countP_set_add (p : τ → Bool) (t' : τ) (hk : ops[k]? = some t) :
    (ops.set k t').countP p + (if p t then 1 else 0) = ops.countP p + if p t' then 1 else 0 := by
  obtain ⟨hlt,rfl⟩ := List.getElem?_eq_some_iff.1 hk
  rw [List.countP_set hlt]
  have hpos : p ops[k] = true → 0 < ops.countP p := fun h =>
    List.countP_pos_iff.2 ⟨_,List.getElem_mem hlt,h⟩
  cases hp : p ops[k]
  · simp
  · have := hpos hp
    simp only [if_true]
    omega

theorem get_set_ne {j : ℕ} (h : j ≠ k) : (ops.set k t')[j]? = ops[j]? :=
  List.getElem?_set_ne (Ne.symm h)

theorem get_set_self (hk : ops[k]? = some t) : (ops.set k t')[k]? = some t' := by
  obtain ⟨hlt,-⟩ := List.getElem?_eq_some_iff.1 hk
  exact List.getElem?_set_self hlt

theorem get_append (hk : ops[k]? = some t) (u : τ) : (ops ++ [u])[k]? = some t := by
  obtain ⟨hlt,-⟩ := List.getElem?_eq_some_iff.1 hk
  rw [List.getElem?_append_left hlt]
  exact hk

end Threads
