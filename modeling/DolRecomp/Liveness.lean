import Mathlib.Order.BooleanAlgebra.Set
import Mathlib.Tactic.Tauto

/-!
# Live slots

Computations on states that are seen through slots. One that reads only its uses
and overwrites its definitions takes states that agree on the uses, and on what is
live afterwards and not overwritten, to states that agree on what is live. Along a
graph two runs that agree on what is live pass the same nodes.
-/

namespace Liveness

universe u v

/-- A lifting of relations to the outcomes of a monad. -/
structure Lifting (M : Type u → Type v) [Monad M] where
  lift : {α β : Type u} → (α → β → Prop) → M α → M β → Prop
  pure : ∀ {α β : Type u} {R : α → β → Prop} {a : α} {b : β}, R a b →
    lift R (Pure.pure a) (Pure.pure b)
  bind : ∀ {α β γ δ : Type u} {R : α → β → Prop} {Q : γ → δ → Prop} {x : M α} {y : M β}
    {f : α → M γ} {g : β → M δ}, lift R x y → (∀ a b, R a b → lift Q (f a) (g b)) →
    lift Q (x >>= f) (y >>= g)

/-- The slots of a state, and what two states have in common in any case. -/
structure View (State : Type u) (Slot Value : Type*) where
  read : State → Slot → Value
  same : State → State → Prop

variable {M : Type u → Type v} [Monad M] (L : Lifting M)
variable {State : Type u} {Slot Value : Type*} (V : View State Slot Value)

namespace View

def Agree (live : Set Slot) (s t : State) : Prop :=
  V.same s t ∧ ∀ x ∈ live, V.read s x = V.read t x

/-- Nothing but `uses` matters to the computation, and `defs` do not depend on what they were. -/
def Sound (uses defs : Set Slot) (c : State → M State) : Prop :=
  ∀ live s t, V.Agree (uses ∪ (live \ defs)) s t → L.lift (V.Agree live) (c s) (c t)

variable {V L} {live live' uses uses₂ defs defs₂ : Set Slot} {s t : State}

theorem Agree.mono (h : V.Agree live s t) (hl : live' ⊆ live) : V.Agree live' s t :=
  ⟨h.1,fun x hx => h.2 x (hl hx)⟩

theorem sound_pure : V.Sound L ∅ ∅ pure :=
  fun live s t h => L.pure (h.mono (by rw [Set.sdiff_empty,Set.empty_union]))

theorem Sound.bind {c c' : State → M State} (h : V.Sound L uses defs c)
    (h' : V.Sound L uses₂ defs₂ c') :
    V.Sound L (uses ∪ (uses₂ \ defs)) (defs ∪ defs₂) fun s => c s >>= c' := by
  intro live s t ha
  refine L.bind (h (uses₂ ∪ (live \ defs₂)) s t (ha.mono fun x hx => ?_)) (h' live)
  simp only [Set.mem_union,Set.mem_sdiff] at hx ⊢
  tauto

end View

structure Graph (Node Slot : Type*) where
  uses : Node → Set Slot
  defs : Node → Set Slot
  next : Node → Node → Prop
  /-- What is needed behind a node that nothing follows. -/
  outputs : Set Slot

namespace Graph

variable {Node : Type*} (g : Graph Node Slot)

/-- A slot is used on a path from a node, or needed at its end, before it is defined. -/
inductive Live (x : Slot) : Node → Prop
  | use {n : Node} (h : x ∈ g.uses n) : Live x n
  | pass {n n' : Node} (h : x ∉ g.defs n) (hn : g.next n n') (hl : Live x n') : Live x n
  | out {n : Node} (h : x ∉ g.defs n) (he : ∀ n', ¬ g.next n n') (ho : x ∈ g.outputs) : Live x n

def liveOut (n : Node) : Set Slot :=
  {x | (∃ n', g.next n n' ∧ g.Live x n') ∨ (∀ n', ¬ g.next n n') ∧ x ∈ g.outputs}

def liveIn (n : Node) : Set Slot := {x | g.Live x n}

theorem liveIn_eq (n : Node) : g.liveIn n = g.uses n ∪ (g.liveOut n \ g.defs n) := by
  ext x
  constructor
  · rintro (h | ⟨h,hn,hl⟩ | ⟨h,he,ho⟩)
    · exact .inl h
    · exact .inr ⟨.inl ⟨_,hn,hl⟩,h⟩
    · exact .inr ⟨.inr ⟨he,ho⟩,h⟩
  · rintro (h | ⟨⟨n',hn,hl⟩ | ⟨he,ho⟩,h⟩)
    · exact Live.use h
    · exact Live.pass h hn hl
    · exact Live.out h he ho

theorem subset_liveOut {n n' : Node} (h : g.next n n') : g.liveIn n' ⊆ g.liveOut n :=
  fun _ hx => .inl ⟨n',h,hx⟩

theorem outputs_subset {n : Node} (h : ∀ n', ¬ g.next n n') : g.outputs ⊆ g.liveOut n :=
  fun _ hx => .inr ⟨h,hx⟩

end Graph

variable {Node Exit : Type u}

/-- Pass through nodes until one is left, `k` at most. -/
def run (step : Node → State → M ((Node ⊕ Exit) × State)) :
    ℕ → Node → State → M ((Node ⊕ Node × Exit) × State)
  | 0, n, s => pure (.inl n,s)
  | k+1, n, s => step n s >>= fun r => match r.1 with
    | .inl n' => run step k n' r.2
    | .inr e => pure (.inr (n,e),r.2)

/-- The set for the place that a run has come to: in front of a node or behind the last one. -/
def setAt (into out : Node → Set Slot) : Node ⊕ Node × Exit → Set Slot
  | .inl n => into n
  | .inr (n,_) => out n

variable {V L}

/-- Where every step keeps the agreement that is asked for around its node, runs do. -/
theorem run_agree {into out : Node → Set Slot}
    {step : Node → State → M ((Node ⊕ Exit) × State)}
    (hstep : ∀ n s t, V.Agree (into n) s t → L.lift (fun a b => a.1 = b.1 ∧
      (∀ n', a.1 = .inl n' → into n' ⊆ out n) ∧ V.Agree (out n) a.2 b.2) (step n s) (step n t))
    (k : ℕ) {n : Node} {s t : State} (h : V.Agree (into n) s t) :
    L.lift (fun a b => a.1 = b.1 ∧ V.Agree (setAt into out a.1) a.2 b.2)
      (run step k n s) (run step k n t) := by
  induction k generalizing n s t with
  | zero => exact L.pure ⟨rfl,h⟩
  | succ k ih =>
    refine L.bind (hstep n s t h) ?_
    rintro ⟨o,s'⟩ ⟨o',t'⟩ ⟨ho,hnext,ha⟩
    obtain rfl : o = o' := ho
    cases o with
    | inl n' => exact ih (ha.mono (hnext n' rfl))
    | inr e => exact L.pure ⟨rfl,ha⟩

end Liveness
