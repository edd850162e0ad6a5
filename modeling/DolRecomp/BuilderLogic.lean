import DolRecomp.Lowering

/-!
# Weakest preconditions of builders

A block that starts at value `first` is well formed when every instruction uses
values from `first` on that are already defined and every state write stores a
value of its slot's type. The rules compute what a builder needs for its
instructions to be so and for a postcondition to hold. `Needs` has instance search find
that out for a whole builder, for every set that may stand for the values defined so far.
-/

namespace DolRecomp

/-- How many values an instruction defines. -/
def DolIRInstruction.size (i : DolIRInstruction) : ℕ := if i.type = .void then 0 else 1

/-- The instruction at value number `next` of a block that starts at `first`; `ty` gives the
types of the values. -/
structure WellFormed (first : ℕ) (ty : ℕ → DolIRType) (next : ℕ)
    (i : DolIRInstruction) : Prop where
  operands : ∀ v ∈ i.operands, first ≤ v ∧ v < next
  arity : i.operands.length ≤ 4
  result : i.result = if i.type = .void then dolirNoValue else next
  write : ∀ slot, i.op = .stateWrite slot → ∃ v, i.operands = [v] ∧ ty v = dolirStateType slot

namespace Builder

variable {α β : Type} (first : ℕ) (ty : ℕ → DolIRType)

/-- All instructions are well formed, if `ty` gives their types, and `Q` holds behind them. -/
def Accepts : DolIRValue → List DolIRInstruction → Prop → Prop
  | _, [], Q => Q
  | next, i :: is, Q => (i.type ≠ .void → ty next = i.type) →
    WellFormed first ty next i ∧ Accepts (next + i.size) is Q

def size (is : List DolIRInstruction) : ℕ := (is.map DolIRInstruction.size).sum

/-- The weakest precondition of a builder for an instruction, from value number `next` on. -/
def wp (b : Builder α) (i : PPCInst) (next : ℕ) (Q : α → ℕ → Prop) : Prop :=
  Accepts first ty next (b i next).2.2
    ((b i next).2.1 = size (b i next).2.2 ∧ Q (b i next).1 (next + (b i next).2.1))

variable {first ty}

theorem size_append (is js : List DolIRInstruction) : size (is ++ js) = size is + size js := by
  simp [size]

theorem accepts_append (is js : List DolIRInstruction) (next : ℕ) (Q : Prop) :
    Accepts first ty next (is ++ js) Q ↔
      Accepts first ty next is (Accepts first ty (next + size is) js Q) := by
  induction is generalizing next with
  | nil => simp [Accepts,size]
  | cons i is ih =>
    have hs : next + i.size + size is = next + size (i :: is) := by
      rw [size,size,List.map_cons,List.sum_cons,Nat.add_assoc]
    rw [List.cons_append,Accepts,Accepts,ih,hs]

theorem accepts_mono {is : List DolIRInstruction} {next : ℕ} {P Q : Prop}
    (h : Accepts first ty next is P) (hpq : P → Q) : Accepts first ty next is Q := by
  induction is generalizing next with
  | nil => exact hpq h
  | cons i is ih => exact fun ht => ⟨(h ht).1,ih (h ht).2⟩

variable {i : PPCInst} {next : ℕ}

theorem wp_mono {b : Builder α} {P Q : α → ℕ → Prop} (h : wp first ty b i next P)
    (hpq : ∀ a m, next ≤ m → P a m → Q a m) : wp first ty b i next Q :=
  accepts_mono h fun ⟨hs,hp⟩ => ⟨hs,hpq _ _ (Nat.le_add_right _ _) hp⟩

theorem wp_pure {a : α} {Q : α → ℕ → Prop} (h : Q a next) :
    wp first ty (pure a) i next Q := ⟨rfl,h⟩

theorem wp_inst {Q : PPCInst → ℕ → Prop} (h : Q i next) : wp first ty inst i next Q :=
  ⟨rfl,h⟩

theorem wp_bind {b : Builder α} {f : α → Builder β} {Q : β → ℕ → Prop}
    (h : wp first ty b i next fun a next => wp first ty (f a) i next Q) :
    wp first ty (b >>= f) i next Q := by
  show Accepts first ty next ((b i next).2.2 ++ _) _
  rw [accepts_append]
  refine accepts_mono h ?_
  rintro ⟨hs,h⟩
  rw [← hs]
  refine accepts_mono h ?_
  rintro ⟨hs',h⟩
  refine ⟨?_,?_⟩
  · show (b i next).2.1 + _ = size ((b i next).2.2 ++ _)
    rw [size_append,← hs,hs']
  · show Q _ (next + ((b i next).2.1 + _))
    rw [← Nat.add_assoc]
    exact h

variable (first ty)

/-- What a builder needs of the next value number and what it gives. -/
class Spec (b : Builder α) (pre : outParam (ℕ → Prop))
    (post : outParam (α → ℕ → Prop)) : Prop where
  spec : ∀ i next, first ≤ next → pre next → wp first ty b i next post

/-- Defined in the block. -/
abbrev Defined (v next : ℕ) : Prop := first ≤ v ∧ v < next

abbrev Typed (type : DolIRType) (v next : ℕ) : Prop := (first ≤ v ∧ v < next) ∧ ty v = type

abbrev Stored (slot : DolIRStateSlot) (v next : ℕ) : Prop :=
  Typed first ty (dolirStateType slot) v next

variable {first ty}

theorem wp_step {b : Builder α} {pre : ℕ → Prop} {post : α → ℕ → Prop}
    [hs : Spec first ty b pre post] {f : α → Builder β} {Q : β → ℕ → Prop}
    (hn : first ≤ next) (hp : pre next)
    (h : ∀ a m, next ≤ m → post a m → wp first ty (f a) i m Q) :
    wp first ty (b >>= f) i next Q :=
  wp_bind (wp_mono (hs.spec i next hn hp) h)

theorem wp_append {op : DolIROp} {type : DolIRType} {operands : List DolIRValue}
    {immediate : BitVec 64} (hop : ∀ slot, op ≠ .stateWrite slot) (ht : type ≠ .void)
    (hl : operands.length ≤ 4) (hn : first ≤ next)
    (hd : ∀ v ∈ operands, Defined first v next) :
    wp first ty (dolirAppend op type operands immediate) i next (Typed first ty type) := by
  have hr : (dolirAppend op type operands immediate) i next = (next,1,
      [dolirPopulateEffects { op, type, result := next, operands, immediate, guestPc := i.address }]) := by
    simp [dolirAppend,ht]
  have hsize : (dolirPopulateEffects
      { op, type, result := next, operands, immediate, guestPc := i.address }).size = 1 := by
    simp [DolIRInstruction.size,dolirPopulateEffects,ht]
  rw [wp,hr]
  simp only [Accepts,size,hsize,List.map_cons,List.map_nil,List.sum_singleton,true_and]
  intro hty
  exact ⟨⟨hd,hl,by simp [dolirPopulateEffects,ht],fun slot hs => absurd hs (hop slot)⟩,
    ⟨hn,Nat.lt_succ_self next⟩,hty ht⟩

theorem wp_void {op : DolIROp} {operands : List DolIRValue} {immediate : BitVec 64}
    (hl : operands.length ≤ 4) (hd : ∀ v ∈ operands, Defined first v next)
    (hop : ∀ slot, op = .stateWrite slot → ∃ v, operands = [v] ∧ ty v = dolirStateType slot) :
    wp first ty (bind (dolirAppend op .void operands immediate) fun _ => pure ()) i next
      fun _ _ => True :=
  fun _ => ⟨⟨hd,hl,rfl,hop⟩,rfl,trivial⟩

variable (first)

/-- All values of the block up to `next` are in the set. -/
def Covers (D : ℕ → Prop) (next : ℕ) : Prop := ∀ v, first ≤ v → v < next → D v

variable (ty)

/-- What a builder needs of every set of values that covers the block so far, and what it gives
for every set that covers the block behind it. -/
class Meets (b : Builder α) (pre : outParam ((ℕ → Prop) → Prop))
    (post : outParam (α → (ℕ → Prop) → Prop)) : Prop where
  meets : ∀ i next, first ≤ next → (∀ D, Covers first D next → pre D) →
    wp first ty b i next fun a m => ∀ D, Covers first D m → post a D

/-- The obligation `R` of a builder for a postcondition `Q`, computed by instance search. -/
class Needs (b : Builder α) (Q : α → (ℕ → Prop) → Prop)
    (R : outParam ((ℕ → Prop) → Prop)) : Prop where
  needs : ∀ i next, first ≤ next → (∀ D, Covers first D next → R D) →
    wp first ty b i next fun a m => ∀ D, Covers first D m → Q a D

/-- A value of the set, with a type. -/
abbrev Result (type : DolIRType) (a : DolIRValue) (D : ℕ → Prop) : Prop := D a ∧ ty a = type

variable {first ty}

theorem Covers.mono {D : ℕ → Prop} {next m : ℕ} (h : Covers first D m) (hm : next ≤ m) :
    Covers first D next := fun v hv hlt => h v hv (hlt.trans_le hm)

theorem covers_defined (next : ℕ) : Covers first (Defined first · next) next :=
  fun _ hv hlt => ⟨hv,hlt⟩

instance {b : Builder α} {pre : (ℕ → Prop) → Prop} {post Q : α → (ℕ → Prop) → Prop}
    [hb : Meets first ty b pre post] :
    Needs first ty b Q fun D => pre D ∧ ∀ a, post a D → Q a D :=
  ⟨fun i next hn h => wp_mono (hb.meets i next hn fun D hD => (h D hD).1) fun a _ hm ha D hD =>
    (h D (hD.mono hm)).2 a (ha D hD)⟩

instance {b : Builder α} {f : α → Builder β} {Q : β → (ℕ → Prop) → Prop}
    {R : α → (ℕ → Prop) → Prop} {pre : (ℕ → Prop) → Prop}
    [hf : ∀ a, Needs first ty (f a) Q (R a)] [hb : Needs first ty b R pre] :
    Needs first ty (b >>= f) Q pre :=
  ⟨fun i next hn h => wp_bind (wp_mono (hb.needs i next hn h) fun a m hm ha =>
    (hf a).needs i m (hn.trans hm) ha)⟩

instance {a : α} {Q : α → (ℕ → Prop) → Prop} : Needs first ty (pure a) Q (Q a) :=
  ⟨fun _ _ _ h => wp_pure h⟩

instance {p : Prop} [Decidable p] {b c : Builder α} {Q : α → (ℕ → Prop) → Prop}
    {R R' : (ℕ → Prop) → Prop} [hb : Needs first ty b Q R] [hc : Needs first ty c Q R'] :
    Needs first ty (if p then b else c) Q fun D => (p → R D) ∧ (¬p → R' D) := by
  refine ⟨fun i next hn h => ?_⟩
  split
  · exact hb.needs i next hn fun D hD => (h D hD).1 ‹_›
  · exact hc.needs i next hn fun D hD => (h D hD).2 ‹_›

theorem Meets.of_needs {b : Builder α} {pre R : (ℕ → Prop) → Prop}
    {post : α → (ℕ → Prop) → Prop} (h : Needs first ty b post R) (hp : ∀ D, pre D → R D) :
    Meets first ty b pre post :=
  ⟨fun i next hn hpre => h.needs i next hn fun D hD => hp D (hpre D hD)⟩

theorem Meets.of_typed {b : Builder DolIRValue} {pre : (ℕ → Prop) → Prop} {type : DolIRType}
    {p : ℕ → Prop} (h : Spec first ty b p (Typed first ty type))
    (hp : ∀ next, pre (Defined first · next) → p next) : Meets first ty b pre (Result ty type) :=
  ⟨fun i next hn hpre => wp_mono (h.spec i next hn (hp next (hpre _ (covers_defined next))))
    fun a _ _ ha _ hD => ⟨hD a ha.1.1 ha.1.2,ha.2⟩⟩

theorem Meets.of_done {b : Builder α} {pre : (ℕ → Prop) → Prop} {p : ℕ → Prop}
    (h : Spec first ty b p fun _ _ => True) (hp : ∀ next, pre (Defined first · next) → p next) :
    Meets first ty b pre fun _ _ => True :=
  ⟨fun i next hn hpre => wp_mono (h.spec i next hn (hp next (hpre _ (covers_defined next))))
    fun _ _ _ _ _ _ => trivial⟩

theorem Meets.typed {b : Builder DolIRValue} {type : DolIRType}
    (h : Meets first ty b (fun _ => True) (Result ty type)) :
    Spec first ty b (fun _ => True) (Typed first ty type) :=
  ⟨fun i next hn _ => wp_mono (h.meets i next hn fun _ _ => trivial)
    fun _ m _ ha => ha _ (covers_defined m)⟩

theorem Meets.done {b : Builder α} (h : Meets first ty b (fun _ => True) fun _ _ => True) :
    Spec first ty b (fun _ => True) fun _ _ => True :=
  ⟨fun i next hn _ => wp_mono (h.meets i next hn fun _ _ => trivial) fun _ _ _ _ => trivial⟩

end Builder

end DolRecomp
