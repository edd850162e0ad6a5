import Mathlib.Data.BitVec

/-!
# Reads that are checked

A reader of untrusted bytes that either rejects its input or leaves its buffer. The rules say
when a sequence of steps stops, and why.
-/

namespace CheckedBytes

/-- Why a reader stops: it was about to leave a buffer, or it rejects the input. -/
inductive Stop
  | fault | rejected
  deriving DecidableEq, Repr

abbrev Checked := Except Stop

structure Bytes where
  get : ℕ → BitVec 8
  size : ℕ

/-- The buffer of the bytes of a list. -/
def Bytes.ofList (bytes : List (BitVec 8)) : Bytes := ⟨fun n => bytes.getD n 0,bytes.length⟩

/-- Go on only if the condition holds. -/
def require (p : Prop) [Decidable p] : Checked Unit := if p then .ok () else .error .rejected

def orReject {α : Type} : Option α → Checked α
  | some a => .ok a
  | none => .error .rejected

/-- What a reader takes for granted. -/
def orFault {α : Type} : Option α → Checked α
  | some a => .ok a
  | none => .error .fault

def touch (size offset width : ℕ) : Checked Unit :=
  if offset + width ≤ size then .ok () else .error .fault

section

variable {α β : Type} {x : Checked α} {f : α → Checked β} {e : Stop}

theorem bind_eq_ok {b : β} : x >>= f = .ok b ↔ ∃ a, x = .ok a ∧ f a = .ok b := by
  cases x with
  | error e =>
    constructor
    · intro h
      cases h
    · rintro ⟨a,h,-⟩
      cases h
  | ok a =>
    constructor
    · intro h
      exact ⟨a,rfl,h⟩
    · rintro ⟨a',h,hf⟩
      cases h
      exact hf

theorem bind_eq_error : x >>= f = .error e ↔ x = .error e ∨ ∃ a, x = .ok a ∧ f a = .error e := by
  cases x with
  | error e' =>
    constructor
    · intro h
      cases h
      exact .inl rfl
    · rintro (h | ⟨a,h,-⟩)
      · cases h
        rfl
      · cases h
  | ok a =>
    constructor
    · intro h
      exact .inr ⟨a,rfl,h⟩
    · rintro (h | ⟨a',h,hf⟩)
      · cases h
      · cases h
        exact hf

theorem require_eq_ok {p : Prop} [Decidable p] {u : Unit} : require p = .ok u ↔ p := by
  unfold require
  split
  next h => simp [h]
  next h => simp [h]

theorem orReject_eq_ok {o : Option α} {a : α} : orReject o = .ok a ↔ o = some a := by
  cases o <;> simp [orReject]

/-- The steps never leave a buffer. -/
def NoFault (x : Checked α) : Prop := x ≠ .error .fault

theorem noFault_ok (a : α) : NoFault (.ok a) := fun h => by cases h

theorem noFault_pure (a : α) : NoFault (pure a) := fun h => by cases h

theorem noFault_rejected : NoFault (.error .rejected : Checked α) := fun h => by cases h

theorem noFault_require (p : Prop) [Decidable p] : NoFault (require p) := by
  unfold require
  split
  · exact noFault_ok ()
  · exact noFault_rejected

theorem noFault_orReject (o : Option α) : NoFault (orReject o) := by
  cases o
  · exact noFault_rejected
  · exact noFault_ok _

theorem noFault_touch {size offset width : ℕ} (h : offset + width ≤ size) :
    NoFault (touch size offset width) := by
  rw [touch,if_pos h]
  exact noFault_ok ()

theorem NoFault.bind (hx : NoFault x) (hf : ∀ a, x = .ok a → NoFault (f a)) :
    NoFault (x >>= f) := by
  intro h
  rcases bind_eq_error.mp h with h | ⟨a,ha,h⟩
  · exact hx h
  · exact hf a ha h

theorem touch_eq_ok {size offset width : ℕ} (h : offset + width ≤ size) :
    touch size offset width = .ok () := if_pos h

end

end CheckedBytes
