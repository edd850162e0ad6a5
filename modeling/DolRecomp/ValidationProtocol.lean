import Mathlib.Order.Interval.Finset.Nat
import Mathlib.Tactic.IntervalCases
import DolRecomp.RegionAvailable

/-!
# The validation protocol

A validator hashes byte by byte while the guest may write. What it publishes was
in memory at one moment after the last invalidation of the range, unless the
guest wrote to the range while it was being hashed.
-/

namespace DolRecomp

namespace Validation

open Threads

variable (M : Module)

/-- A run from the first reset, one configuration after the other. -/
structure Trace (mem : Memory → ℕ → BitVec 8) (σ : ℕ → Config Shared Op) (n : ℕ) : Prop where
  start : σ 0 = initial M mem
  step : ∀ i < n, Step (system M) (σ i) (σ (i + 1))

/-- A step that makes a range valid. -/
def Publishes (e : ℕ) (c c' : Config Shared Op) : Prop := ¬Valid c.shared e ∧ Valid c'.shared e

/-- A step that changes the generation of a range. -/
def Invalidates (e : ℕ) (c c' : Config Shared Op) : Prop :=
  generation (c.shared.state e) ≠ generation (c'.shared.state e)

instance (e : ℕ) (c c' : Config Shared Op) : Decidable (Invalidates e c c') :=
  inferInstanceAs (Decidable (_ ≠ _))

/-- A step that changes a byte of a range. -/
def Writes (e : ℕ) (c c' : Config Shared Op) : Prop :=
  ∃ range place i, M.table.ranges[e]? = some range ∧ bytes M range = some place ∧
    i < (size range).toNat ∧
      c.shared.mem place.1 (place.2 + i) ≠ c'.shared.mem place.1 (place.2 + i)

/-- Operation `k` is a validation of range `e` at `pc`. -/
def At (k e : ℕ) (pc : VPc) (c : Config Shared Op) : Prop :=
  ∃ op, c.ops[k]? = some op ∧ op.Validates e pc

/-- Operation `k` hashes range `e` after seeing the word `w`. -/
def HashingAt (k e : ℕ) (w : BitVec 32) (c : Config Shared Op) : Prop :=
  ∃ pos h, At k e (.hash w pos h) c

/-- Operation `k` is a validation of range `e` that has not returned. -/
def BusyAt (k e : ℕ) (c : Config Shared Op) : Prop := ∃ pc, At k e pc c ∧ ∀ b, pc ≠ .done b

def invalidations (σ : ℕ → Config Shared Op) (e j m : ℕ) : ℕ :=
  ((Finset.Ico j m).filter fun i => Invalidates e (σ i) (σ (i + 1))).card

/-- Fewer than 2^30 invalidations of one range occur during one validation of it. -/
def Bounded (σ : ℕ → Config Shared Op) (n : ℕ) : Prop :=
  ∀ k e j m, j ≤ m → m ≤ n → (∀ i, j ≤ i → i ≤ m → BusyAt k e (σ i)) →
    invalidations σ e j m < 2 ^ 30

theorem at_busy {k e : ℕ} {pc : VPc} {c : Config Shared Op} (h : At k e pc c)
    (hpc : ∀ b, pc ≠ .done b) : ∃ op ∈ c.ops, op.finished = false := by
  obtain ⟨op,hk,hv⟩ := h
  refine ⟨op,mem_of_get hk,?_⟩
  rcases hv with rfl | ⟨s,t,rfl⟩
  · cases pc <;> first | rfl | exact absurd rfl (hpc _)
  · rfl

/-- An operation that validates was there before, has just acted, or has just started. -/
theorem step_at {c c' : Config Shared Op} (h : Step (system M) c c') {k e : ℕ} {pc' : VPc}
    (h' : At k e pc' c') :
    At k e pc' c ∨ (∃ pc, At k e pc c ∧ VAct M e c.shared pc c'.shared pc') ∨ pc' = .load := by
  obtain ⟨op',hk',hv'⟩ := h'
  cases h with
  | env => exact .inl ⟨op',hk',hv'⟩
  | @new op hcall =>
    rcases Nat.lt_or_ge k c.ops.length with hlt | hge
    · exact .inl ⟨op',by rwa [List.getElem?_append_left hlt] at hk',hv'⟩
    · rw [List.getElem?_append_right hge,List.getElem?_singleton] at hk'
      split at hk'
      · cases hk'
        cases hcall with
        | validate =>
          rcases hv' with hv' | ⟨s,t,hv'⟩ <;> cases hv'
          exact .inr (.inr rfl)
        | invalidate => rcases hv' with hv' | ⟨s,t,hv'⟩ <;> cases hv'
        | region => rcases hv' with hv' | ⟨s,t,hv'⟩ <;> cases hv'
      · cases hk'
  | @act j op op'' s' hj hact =>
    by_cases hjk : k = j
    · subst hjk
      rw [get_set_self hj,Option.some.injEq] at hk'
      subst hk'
      rcases hv' with rfl | ⟨s,t,rfl⟩
      · cases hact with
        | validate hact => exact .inr (.inl ⟨_,⟨_,hj,.inl rfl⟩,hact⟩)
      · cases hact with
        | region hact =>
          cases hact with
          | check => exact .inr (.inr rfl)
          | step hact => exact .inr (.inl ⟨_,⟨_,hj,.inr ⟨_,_,rfl⟩⟩,hact⟩)
    · exact .inl ⟨op',(get_set_ne hjk).symm.trans hk',hv'⟩

theorem generation_setState {s : Shared} {e i : ℕ} {w : BitVec 32} :
    generation ((s.setState i w).state e) =
      if e = i then generation w else generation (s.state e) := by
  show generation (Function.update s.state i w e) = _
  rw [Function.update_apply]
  split <;> rfl

theorem vact_generation {e i : ℕ} {s s' : Shared} {pc pc' : VPc} (h : VAct M i s pc s' pc') :
    generation (s'.state e) = generation (s.state e) := by
  cases h with
  | publish hw =>
    rw [generation_setState]
    split
    · next heq => rw [generation_published,heq,hw]
    · rfl
  | _ => rfl

/-- While an operation is in flight, a generation stays or goes up by one. -/
theorem step_generation {c c' : Config Shared Op} (h : Step (system M) c c')
    (hbusy : ∃ op ∈ c.ops, op.finished = false) (e : ℕ) :
    generation (c'.shared.state e) = generation (c.shared.state e) ∨
      generation (c'.shared.state e) = (generation (c.shared.state e) + 1) % 2 ^ 30 := by
  cases h with
  | new => exact .inl rfl
  | env h =>
    cases h with
    | write => exact .inl rfl
    | reset h =>
      obtain ⟨op,hop,hf⟩ := hbusy
      rw [h op hop] at hf
      cases hf
  | @act k op op' s' hk hact =>
    cases hact with
    | validate hact => exact .inl (vact_generation M hact)
    | region hact =>
      cases hact with
      | step hact => exact .inl (vact_generation M hact)
      | _ => exact .inl rfl
    | invalidate hact =>
      cases hact with
      | @swap index observed hw =>
        show generation ((c.shared.setState index _).state e) = _ ∨ _
        dsimp only
        rw [generation_setState]
        split
        · next heq =>
          right
          rw [generation_invalidated,heq,hw]
        · exact .inl rfl
      | _ => exact .inl rfl

theorem vact_publishes {e i : ℕ} {s s' : Shared} {pc pc' : VPc} (h : VAct M i s pc s' pc')
    (hv : ¬Valid s e) (hv' : Valid s' e) :
    i = e ∧ pc' = .count ∧ ∃ w, pc = .swap w true ∧ s.state e = w := by
  cases h with
  | @publish observed isMatch hw =>
    rw [valid_setState] at hv'
    split at hv'
    · next heq =>
      subst heq
      cases isMatch with
      | false => exact absurd hv' (by simp [valid,changed])
      | true => exact ⟨rfl,rfl,observed,rfl,hw⟩
    · exact absurd hv' hv
  | _ => exact absurd hv' hv

/-- Only a validator that has found its range to match makes it valid. -/
theorem step_publishes {c c' : Config Shared Op} (h : Step (system M) c c') {e : ℕ}
    (hp : Publishes e c c') :
    ∃ k w, At k e (.swap w true) c ∧ At k e .count c' ∧ c.shared.state e = w := by
  obtain ⟨hv,hv'⟩ := hp
  cases h with
  | new => exact absurd hv' hv
  | env h =>
    cases h with
    | write => exact absurd hv' hv
    | reset => exact absurd hv' (not_valid_reset M _ e)
  | @act k op op' s' hk hact =>
    cases hact with
    | validate hact =>
      obtain ⟨rfl,rfl,w,rfl,hw⟩ := vact_publishes M hact hv hv'
      exact ⟨k,w,⟨_,hk,.inl rfl⟩,⟨_,get_set_self hk,.inl rfl⟩,hw⟩
    | region hact =>
      cases hact with
      | step hact =>
        obtain ⟨rfl,rfl,w,rfl,hw⟩ := vact_publishes M hact hv hv'
        exact ⟨k,w,⟨_,hk,.inr ⟨_,_,rfl⟩⟩,⟨_,get_set_self hk,.inr ⟨_,_,rfl⟩⟩,hw⟩
      | _ => exact absurd hv' hv
    | invalidate hact =>
      cases hact with
      | swap hw =>
        rw [valid_setState] at hv'
        split at hv'
        · rw [status_invalidated] at hv'
          cases hv'
        · exact absurd hv' hv
      | _ => exact absurd hv' hv

variable {M} {mem : Memory → ℕ → BitVec 8} {σ : ℕ → Config Shared Op} {n : ℕ}

theorem invalidations_succ {e j m : ℕ} (h : j ≤ m) : invalidations σ e j (m + 1) =
    invalidations σ e j m + if Invalidates e (σ m) (σ (m + 1)) then 1 else 0 := by
  rw [invalidations,invalidations,Nat.Ico_succ_right_eq_insert_Ico h,Finset.filter_insert]
  split
  · rw [Finset.card_insert_of_notMem (by simp)]
  · rfl

theorem generation_lt (w : BitVec 32) : generation w < 2 ^ 30 := by
  have := w.isLt
  rw [generation]
  omega

/-- While an operation stays in flight, the generation is the number of invalidations. -/
theorem generation_trace (hσ : Trace M mem σ n) {e j m : ℕ} (hjm : j ≤ m) (hm : m ≤ n)
    (hbusy : ∀ i, j ≤ i → i < m → ∃ op ∈ (σ i).ops, op.finished = false) :
    generation ((σ m).shared.state e) =
      (generation ((σ j).shared.state e) + invalidations σ e j m) % 2 ^ 30 := by
  induction hjm with
  | refl =>
    have := generation_lt ((σ j).shared.state e)
    rw [invalidations,Finset.Ico_self,Finset.filter_empty,Finset.card_empty,Nat.add_zero,
      Nat.mod_eq_of_lt this]
  | @step m hjm ih =>
    have hprev := ih (Nat.le_of_succ_le hm) fun i hi him => hbusy i hi (Nat.lt_succ_of_lt him)
    have hlt := generation_lt ((σ m).shared.state e)
    have hstep := step_generation M (hσ.step m hm) (hbusy m hjm (Nat.lt_succ_self m)) e
    rw [Nat.succ_eq_add_one,invalidations_succ hjm]
    by_cases hi : Invalidates e (σ m) (σ (m + 1))
    · rw [if_pos hi]
      rcases hstep with hs | hs
      · exact absurd hs.symm hi
      · rw [hs,hprev]
        omega
    · rw [if_neg hi]
      exact (not_not.1 hi).symm.trans hprev

/-- Fewer than 2^30 invalidations that come back to the same word are none. -/
theorem no_invalidation (hσ : Trace M mem σ n) {e j m : ℕ} (hjm : j ≤ m) (hm : m ≤ n)
    (hbusy : ∀ i, j ≤ i → i < m → ∃ op ∈ (σ i).ops, op.finished = false)
    (hb : invalidations σ e j m < 2 ^ 30)
    (hw : (σ j).shared.state e = (σ m).shared.state e) :
    ∀ i, j ≤ i → i < m → ¬Invalidates e (σ i) (σ (i + 1)) := by
  have hg := generation_trace hσ (e := e) hjm hm hbusy
  have hlt := generation_lt ((σ j).shared.state e)
  rw [hw] at hg hlt
  have h0 : invalidations σ e j m = 0 := by omega
  intro i hi him hinv
  have := Finset.card_eq_zero.1 h0
  have hmem : i ∈ (Finset.Ico j m).filter fun i => Invalidates e (σ i) (σ (i + 1)) := by
    simp [hi,him,hinv]
  rw [this] at hmem
  exact absurd hmem (Finset.notMem_empty i)

/-- The bytes of a range have not changed since `j`. -/
theorem same_bytes {e j m : ℕ} (hjm : j ≤ m)
    (hw : ∀ i, j ≤ i → i < m → ¬Writes M e (σ i) (σ (i + 1))) {range : NativeRange}
    {place : Memory × ℕ} (hr : M.table.ranges[e]? = some range) (hb : bytes M range = some place)
    {i : ℕ} (hi : i < (size range).toNat) :
    (σ m).shared.mem place.1 (place.2 + i) = (σ j).shared.mem place.1 (place.2 + i) := by
  induction hjm with
  | refl => rfl
  | @step m hjm ih =>
    rw [← ih fun i hi him => hw i hi (Nat.lt_succ_of_lt him)]
    by_contra hne
    exact hw m hjm (Nat.lt_succ_self m) ⟨range,place,i,hr,hb,hi,fun h => hne h.symm⟩

/-- A write to range `e` while operation `k` was hashing it. -/
def Torn (M : Module) (σ : ℕ → Config Shared Op) (k e : ℕ) (w : BitVec 32) (j m : ℕ) : Prop :=
  ∃ i, j ≤ i ∧ i < m ∧ HashingAt k e w (σ i) ∧ Writes M e (σ i) (σ (i + 1))

theorem Torn.succ {k e j m : ℕ} {w : BitVec 32} (h : Torn M σ k e w j m) :
    Torn M σ k e w j (m + 1) := by
  obtain ⟨i,hj,hm,h⟩ := h
  exact ⟨i,hj,Nat.lt_succ_of_lt hm,h⟩

/-- The hash so far is the hash of the first bytes as they have been since `j`. -/
def Hashed (M : Module) (σ : ℕ → Config Shared Op) (e j m pos : ℕ) (h : BitVec 64) : Prop :=
  (∀ i, j ≤ i → i < m → ¬Writes M e (σ i) (σ (i + 1))) ∧
    ∀ range place, M.table.ranges[e]? = some range → bytes M range = some place →
      h = hashPrefix ((σ j).shared.mem place.1) place.2 pos

/-- What a validation at `pc` in configuration `m` has seen since it read the state word. -/
def Seen (M : Module) (σ : ℕ → Config Shared Op) (k e m : ℕ) : VPc → Prop
  | .hash w pos h => ∃ j ≤ m, (∀ i, j ≤ i → i ≤ m → HashingAt k e w (σ i)) ∧
      (σ j).shared.state e = w ∧ (Torn M σ k e w j m ∨ Hashed M σ e j m pos h)
  | .swap w isMatch => ∃ j ≤ m, (∀ i, j ≤ i → i ≤ m → BusyAt k e (σ i)) ∧
      (σ j).shared.state e = w ∧
        (Torn M σ k e w j m ∨ (isMatch = true → Matches M (σ j).shared e))
  | _ => True

theorem hashingAt_busy {k e : ℕ} {w : BitVec 32} {c : Config Shared Op} (h : HashingAt k e w c) :
    BusyAt k e c := by
  obtain ⟨pos,x,h⟩ := h
  exact ⟨_,h,fun _ h => nomatch h⟩

/-- An interval grows by one configuration. -/
theorem forall_le_succ {P : ℕ → Prop} {j m : ℕ} (h : ∀ i, j ≤ i → i ≤ m → P i) (hm : P (m + 1)) :
    ∀ i, j ≤ i → i ≤ m + 1 → P i := by
  intro i hj hi
  rcases Nat.lt_or_eq_of_le hi with hlt | heq
  · exact h i hj (Nat.le_of_lt_succ hlt)
  · exact heq ▸ hm

theorem Seen.wait {k e m : ℕ} {pc : VPc} (h : Seen M σ k e m pc) (hat : At k e pc (σ (m + 1))) :
    Seen M σ k e (m + 1) pc := by
  cases pc with
  | hash w pos x =>
    obtain ⟨j,hj,hall,hw,hseen⟩ := h
    refine ⟨j,Nat.le_succ_of_le hj,forall_le_succ hall ⟨pos,x,hat⟩,hw,?_⟩
    rcases hseen with ht | ⟨hno,heq⟩
    · exact .inl ht.succ
    · by_cases hwr : Writes M e (σ m) (σ (m + 1))
      · exact .inl ⟨m,hj,Nat.lt_succ_self m,hall m hj (Nat.le_refl m),hwr⟩
      · refine .inr ⟨fun i hi him => ?_,heq⟩
        rcases Nat.lt_or_eq_of_le (Nat.le_of_lt_succ him) with hlt | rfl
        · exact hno i hi hlt
        · exact hwr
  | swap w isMatch =>
    obtain ⟨j,hj,hall,hw,hseen⟩ := h
    exact ⟨j,Nat.le_succ_of_le hj,forall_le_succ hall ⟨_,hat,fun _ h => nomatch h⟩,hw,
      hseen.imp Torn.succ id⟩
  | _ => trivial

theorem no_writes_of_same {c c' : Config Shared Op} (h : c'.shared.mem = c.shared.mem) (e : ℕ) :
    ¬Writes M e c c' := by
  rintro ⟨range,place,i,-,-,-,hne⟩
  exact hne (by rw [h])

theorem vact_mem {i : ℕ} {s s' : Shared} {pc pc' : VPc} (h : VAct M i s pc s' pc') :
    s'.mem = s.mem := by
  cases h <;> rfl

/-- A fresh attempt starts from the word that is there. -/
theorem seen_afterLoad {k e m : ℕ}
    (hat : At k e (afterLoad M e ((σ m).shared.state e)) (σ m)) :
    Seen M σ k e m (afterLoad M e ((σ m).shared.state e)) := by
  revert hat
  rw [afterLoad]
  split
  · exact fun _ => trivial
  · split
    · exact fun _ => trivial
    · split
      · intro hat
        refine ⟨m,Nat.le_refl m,fun i hi him => ?_,rfl,.inr (by rintro ⟨⟩)⟩
        obtain rfl := Nat.le_antisymm hi him
        exact ⟨_,hat,by rintro _ ⟨⟩⟩
      · intro hat
        refine ⟨m,Nat.le_refl m,fun i hi him => ?_,rfl,.inr ⟨fun i hi him => ?_,fun _ _ _ _ => rfl⟩⟩
        · obtain rfl := Nat.le_antisymm hi him
          exact ⟨_,_,hat⟩
        · omega

theorem seen_act {k e m : ℕ} {pc pc' : VPc}
    (h : VAct M e (σ m).shared pc (σ (m + 1)).shared pc') (hat : At k e pc' (σ (m + 1)))
    (hs : Seen M σ k e m pc) : Seen M σ k e (m + 1) pc' := by
  have hmem := vact_mem h
  have hno : ¬Writes M e (σ m) (σ (m + 1)) := no_writes_of_same hmem e
  generalize hs' : (σ (m + 1)).shared = s' at h
  cases h with
  | load =>
    rw [← hs'] at hat ⊢
    exact seen_afterLoad hat
  | retry =>
    rw [← hs'] at hat ⊢
    exact seen_afterLoad hat
  | @byte w pos x range place hr hb hp =>
    obtain ⟨j,hj,hall,hw,hseen⟩ := hs
    refine ⟨j,Nat.le_succ_of_le hj,forall_le_succ hall ⟨_,_,hat⟩,hw,?_⟩
    rcases hseen with ht | ⟨hnone,heq⟩
    · exact .inl ht.succ
    · refine .inr ⟨fun i hi him => ?_,fun range' place' hr' hb' => ?_⟩
      · rcases Nat.lt_or_eq_of_le (Nat.le_of_lt_succ him) with hlt | rfl
        · exact hnone i hi hlt
        · exact hno
      · rw [hr,Option.some.injEq] at hr'
        subst hr'
        rw [hb,Option.some.injEq] at hb'
        subst hb'
        rw [hashPrefix,← heq range place hr hb,same_bytes hj hnone hr hb hp]
  | @hashed w pos x range place hr hb hp =>
    obtain ⟨j,hj,hall,hw,hseen⟩ := hs
    refine ⟨j,Nat.le_succ_of_le hj,
      forall_le_succ (fun i hi him => hashingAt_busy (hall i hi him)) ⟨_,hat,fun _ h => nomatch h⟩,
      hw,?_⟩
    rcases hseen with ht | ⟨-,heq⟩
    · exact .inl ht.succ
    · refine .inr fun hmatch => ⟨range,place,hr,hb,?_⟩
      rw [← hp,← heq range place hr hb]
      exact beq_iff_eq.1 hmatch
  | publish => split <;> trivial
  | count => trivial

theorem seen_trace (hσ : Trace M mem σ n) {m : ℕ} (hm : m ≤ n) {k e : ℕ} {pc : VPc}
    (hat : At k e pc (σ m)) : Seen M σ k e m pc := by
  induction m generalizing pc with
  | zero =>
    obtain ⟨op,hk,-⟩ := hat
    rw [hσ.start] at hk
    cases hk
  | succ m ih =>
    rcases step_at M (hσ.step m hm) hat with h | ⟨pc',h,hact⟩ | rfl
    · exact (ih (Nat.le_of_succ_le hm) h).wait hat
    · exact seen_act hact hat (ih (Nat.le_of_succ_le hm) h)
    · trivial

theorem trace_run (hσ : Trace M mem σ n) {m : ℕ} (hm : m ≤ n) :
    Run (system M) (initial M mem) (σ m) := by
  induction m with
  | zero =>
    rw [hσ.start]
  | succ m ih => exact (ih (Nat.le_of_succ_le hm)).tail (hσ.step m hm)

/-- An operation makes a range valid only if its bytes matched at a moment of that operation since
which no invalidation has reached it, or were written while they were hashed; and the counter of an
idle module is the number of ranges that are not valid. -/
theorem validation_protocol (hσ : Trace M mem σ n) (hb : Bounded σ n) :
    (∀ m < n, ∀ e, Publishes e (σ m) (σ (m + 1)) → ∃ k w,
      At k e (.swap w true) (σ m) ∧ At k e .count (σ (m + 1)) ∧ ∃ j ≤ m,
      (∀ i, j ≤ i → i ≤ m → BusyAt k e (σ i)) ∧
      (∀ i, j ≤ i → i < m → ¬Invalidates e (σ i) (σ (i + 1))) ∧
      (Matches M (σ j).shared e ∨ Torn M σ k e w j m)) ∧
    ∀ m ≤ n, (∀ op ∈ (σ m).ops, op.finished = true) →
      (σ m).shared.unavailable.toNat = (bad M.table.ranges.length (σ m).shared).card := by
  refine ⟨fun m hm e hp => ?_,fun m hm hidle => counter_idle M (counted_run M (trace_run hσ hm)) hidle⟩
  have hmn := Nat.le_of_lt hm
  obtain ⟨k,w,hat,hat',hw⟩ := step_publishes M (hσ.step m hm) hp
  obtain ⟨j,hj,hbusy,hwj,hseen⟩ := seen_trace hσ hmn hat
  have hfly : ∀ i, j ≤ i → i < m → ∃ op ∈ (σ i).ops, op.finished = false := fun i hi him => by
    obtain ⟨pc,hpc,hd⟩ := hbusy i hi (Nat.le_of_lt him)
    exact at_busy hpc hd
  exact ⟨k,w,hat,hat',j,hj,hbusy,
    no_invalidation hσ hj hmn hfly (hb k e j m hj hmn hbusy) (hwj.trans hw.symm),
    hseen.symm.imp (fun h => h rfl) id⟩

/-- One range of one word, whose recorded bytes are 1, 1, 0, 0. -/
def oneWord : Module where
  table :=
    { ranges := [⟨0x80003100,0x80003104,0xB5D445774C80560F⟩]
      sorted := by decide
      proper := by decide
      short := by decide }
  mem1Size := 0x01800000
  mem2Size := 0

def twoBytes (a b : BitVec 8) : Memory → ℕ → BitVec 8
  | .mem1 => Function.update (Function.update (fun _ => 0) 0x3100 a) 0x3101 b
  | .mem2 => fun _ => 0

def tornShared (a b : BitVec 8) : Shared := reset oneWord ⟨fun _ => 0,0,twoBytes a b⟩

/-- The hash of the byte 1, and of the bytes 1, 1. -/
def hashOne : BitVec 64 := hashByte hashBasis 1

/-- The guest moves a one from the first byte to the second between their reads. -/
def tornTrace : ℕ → Config Shared Op
  | 0 => ⟨tornShared 1 0,[]⟩
  | 1 => ⟨tornShared 1 0,[.validate 0 .load]⟩
  | 2 => ⟨tornShared 1 0,[.validate 0 (.hash 0 0 hashBasis)]⟩
  | 3 => ⟨tornShared 1 0,[.validate 0 (.hash 0 1 hashOne)]⟩
  | 4 => ⟨tornShared 0 0,[.validate 0 (.hash 0 1 hashOne)]⟩
  | 5 => ⟨tornShared 0 1,[.validate 0 (.hash 0 1 hashOne)]⟩
  | 6 => ⟨tornShared 0 1,[.validate 0 (.hash 0 2 (hashByte hashOne 1))]⟩
  | 7 => ⟨tornShared 0 1,[.validate 0 (.hash 0 3 (hashByte (hashByte hashOne 1) 0))]⟩
  | 8 => ⟨tornShared 0 1,[.validate 0 (.hash 0 4 (hashByte (hashByte (hashByte hashOne 1) 0) 0))]⟩
  | 9 => ⟨tornShared 0 1,[.validate 0 (.swap 0 true)]⟩
  | _ => ⟨(tornShared 0 1).setState 0 (published 0 true),[.validate 0 .count]⟩

theorem twoBytes_first (a b c : BitVec 8) :
    Function.update (twoBytes a b) .mem1 (Function.update (twoBytes a b .mem1) 0x3100 c) =
      twoBytes c b := by
  funext memory i
  cases memory with
  | mem1 =>
    rw [Function.update_self,twoBytes,twoBytes,Function.update_comm (by decide),
      Function.update_idem,Function.update_comm (by decide)]
  | mem2 => rw [Function.update_of_ne (by decide)]; rfl

theorem twoBytes_second (a b c : BitVec 8) :
    Function.update (twoBytes a b) .mem1 (Function.update (twoBytes a b .mem1) 0x3101 c) =
      twoBytes a c := by
  funext memory i
  cases memory with
  | mem1 => rw [Function.update_self,twoBytes,twoBytes,Function.update_idem]
  | mem2 => rw [Function.update_of_ne (by decide)]; rfl

theorem step_write (s : Shared) (ops : List Op) (memory : Memory) (offset : ℕ) (byte : BitVec 8)
    {mem' : Memory → ℕ → BitVec 8}
    (h : Function.update s.mem memory (Function.update (s.mem memory) offset byte) = mem') :
    Step (system M) ⟨s,ops⟩ ⟨{ s with mem := mem' },ops⟩ := by
  subst h
  exact .env (.write memory offset byte)

theorem oneWord_bytes : bytes oneWord ⟨0x80003100,0x80003104,0xB5D445774C80560F⟩ =
    some (.mem1,0x3100) := by decide

/-- One byte is read; the memory holds `a`, `b`, 0, 0. -/
theorem torn_byte (a b : BitVec 8) (h : BitVec 64) {pos : ℕ} {byte : BitVec 8} (hp : pos < 4)
    (hb : twoBytes a b .mem1 (0x3100 + pos) = byte) :
    Step (system oneWord) ⟨tornShared a b,[.validate 0 (.hash 0 pos h)]⟩
      ⟨tornShared a b,[.validate 0 (.hash 0 (pos + 1) (hashByte h byte))]⟩ := by
  subst hb
  have hr : oneWord.table.ranges[0]? = some ⟨0x80003100,0x80003104,0xB5D445774C80560F⟩ := rfl
  have hact := @VAct.byte oneWord 0 (tornShared a b) 0 pos h _ _ hr oneWord_bytes hp
  exact step_validate oneWord (k := 0) rfl hact

theorem torn_trace : Trace oneWord (twoBytes 1 0) tornTrace 10 := by
  refine ⟨rfl,fun i hi => ?_⟩
  interval_cases i
  · exact .new (.validate (by decide))
  · exact step_validate oneWord (k := 0) rfl .load
  · exact torn_byte 1 0 _ (by decide) (by decide)
  · exact step_write _ _ .mem1 0x3100 0 (twoBytes_first 1 0 0)
  · exact step_write _ _ .mem1 0x3101 1 (twoBytes_second 0 0 1)
  · exact torn_byte 0 1 _ (by decide) (by decide)
  · exact torn_byte 0 1 _ (by decide) (by decide)
  · exact torn_byte 0 1 _ (by decide) (by decide)
  · exact step_validate oneWord (k := 0) rfl (.hashed rfl oneWord_bytes rfl)
  · exact step_validate oneWord (k := 0) rfl (.publish rfl)

theorem torn_publishes : Publishes 0 (tornTrace 9) (tornTrace 10) := ⟨by decide,by decide⟩

theorem torn_bounded : Bounded tornTrace 10 := by
  intro k e j m hj hm _
  have h := Finset.card_filter_le (Finset.Ico j m) fun i =>
    Invalidates e (tornTrace i) (tornTrace (i + 1))
  rw [Nat.card_Ico] at h
  rw [invalidations]
  omega

/-- The protocol over the torn trace. -/
theorem validation_protocol_torn :
    (∀ m < 10, ∀ e, Publishes e (tornTrace m) (tornTrace (m + 1)) → ∃ k w,
      At k e (.swap w true) (tornTrace m) ∧ At k e .count (tornTrace (m + 1)) ∧ ∃ j ≤ m,
      (∀ i, j ≤ i → i ≤ m → BusyAt k e (tornTrace i)) ∧
      (∀ i, j ≤ i → i < m → ¬Invalidates e (tornTrace i) (tornTrace (i + 1))) ∧
      (Matches oneWord (tornTrace j).shared e ∨ Torn oneWord tornTrace k e w j m)) ∧
    ∀ m ≤ 10, (∀ op ∈ (tornTrace m).ops, op.finished = true) →
      (tornTrace m).shared.unavailable.toNat =
        (bad oneWord.table.ranges.length (tornTrace m).shared).card :=
  validation_protocol torn_trace torn_bounded

theorem not_matches_torn {a b : BitVec 8}
    (h : hashPrefix (twoBytes a b .mem1) 0x3100 4 ≠ 0xB5D445774C80560F) {s : Shared}
    (hs : s.mem = twoBytes a b) : ¬Matches oneWord s 0 := by
  rintro ⟨range,place,hr,hb,hh⟩
  cases hr
  cases hb
  rw [hs] at hh
  exact h hh

/-- The range becomes valid although at no moment its bytes had its hash. -/
theorem validation_torn : ¬∀ (M : Module) (mem : Memory → ℕ → BitVec 8)
    (σ : ℕ → Config Shared Op) (n : ℕ), Trace M mem σ n → Bounded σ n → ∀ m < n, ∀ e,
      Publishes e (σ m) (σ (m + 1)) → ∃ j ≤ m, Matches M (σ j).shared e := by
  intro h
  obtain ⟨j,hj,hm⟩ := h oneWord _ _ 10 torn_trace torn_bounded 9 (by decide) 0 torn_publishes
  revert hm
  interval_cases j
  · exact not_matches_torn (a := 1) (b := 0) (by decide) rfl
  · exact not_matches_torn (a := 1) (b := 0) (by decide) rfl
  · exact not_matches_torn (a := 1) (b := 0) (by decide) rfl
  · exact not_matches_torn (a := 1) (b := 0) (by decide) rfl
  · exact not_matches_torn (a := 0) (b := 0) (by decide) rfl
  · exact not_matches_torn (a := 0) (b := 1) (by decide) rfl
  · exact not_matches_torn (a := 0) (b := 1) (by decide) rfl
  · exact not_matches_torn (a := 0) (b := 1) (by decide) rfl
  · exact not_matches_torn (a := 0) (b := 1) (by decide) rfl
  · exact not_matches_torn (a := 0) (b := 1) (by decide) rfl

end Validation

end DolRecomp
