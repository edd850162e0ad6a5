import Mathlib.Algebra.BigOperators.Group.Finset.Basic
import DolRecomp.Alignment
import DolRecomp.Validation

/-!
# The counter of unavailable ranges

In every interleaving the counter differs from the number of ranges that are not
valid by the operations that have changed a state word and not yet counted it.
-/

namespace DolRecomp

namespace Validation

open Threads

theorem clear_or_and (w m : BitVec 32) (hm : m &&& 3#32 = m) : ((w &&& ~~~3#32) ||| m) &&& 3#32 = m := by
  have h : (w &&& ~~~3#32) &&& 3#32 = 0#32 := by
    rw [BitVec.and_assoc]
    simp
  apply BitVec.eq_of_getLsbD_eq
  intro k hk
  have h0 := congrArg (BitVec.getLsbD · k) h
  have hm0 := congrArg (BitVec.getLsbD · k) hm
  simp only [BitVec.getLsbD_and,BitVec.getLsbD_or,BitVec.getLsbD_zero] at h0 hm0 ⊢
  rw [Bool.and_or_distrib_right,h0,hm0,Bool.false_or]

@[simp] theorem status_published (w : BitVec 32) (isMatch : Bool) :
    status (published w isMatch) = if isMatch then valid else changed := by
  cases isMatch <;> exact clear_or_and w _ (by decide)

theorem status_eq (w : BitVec 32) : (status w).toNat = w.toNat % 4 := Alignment.toNat_and_three w

theorem toNat_invalidated (w : BitVec 32) :
    (invalidated w).toNat = 4*((generation w + 1) % 2 ^ 30) := by
  have hlt := w.isLt
  rw [invalidated,dirty,generation,show (0 : BitVec 32) = 0#32 from rfl,BitVec.or_zero,
    BitVec.toNat_add,Alignment.toNat_clear]
  simp only [BitVec.toNat_ofNat]
  omega

theorem status_invalidated (w : BitVec 32) : status (invalidated w) = dirty := by
  apply BitVec.eq_of_toNat_eq
  rw [status_eq,toNat_invalidated]
  exact Nat.mul_mod_right 4 _

theorem generation_invalidated (w : BitVec 32) :
    generation (invalidated w) = (generation w + 1) % 2 ^ 30 := by
  rw [generation,toNat_invalidated]
  omega

theorem generation_published (w : BitVec 32) (isMatch : Bool) :
    generation (published w isMatch) = generation w := by
  have hs := status_published w isMatch
  have h : published w isMatch = (w &&& ~~~3#32) + status (published w isMatch) := by
    rw [hs,BitVec.add_eq_or_of_and_eq_zero]
    · cases isMatch <;> rfl
    · rw [BitVec.and_assoc]
      cases isMatch <;> simp [valid,changed]
  have hlt := w.isLt
  have h3 := status_eq (published w isMatch)
  have hn := congrArg BitVec.toNat h
  rw [BitVec.toNat_add,Alignment.toNat_clear,h3] at hn
  rw [generation,generation]
  omega

/-- Between publishing a valid range and subtracting it. -/
def Op.subtracts : Op → Bool
  | .validate _ .count | .region _ _ (.check _ .count) => true
  | _ => false

/-- The range that an invalidation has ended and not yet added. -/
def Op.adding : Op → Option ℕ
  | .invalidate _ (.count index) => some index
  | _ => none

/-- Only words that are not valid are hashed and swapped. -/
def VPc.Ok : VPc → Prop
  | .hash observed _ _ | .swap observed _ => status observed ≠ valid
  | _ => True

/-- An operation works on ranges of the table. -/
def Op.Ok (n : ℕ) : Op → Prop
  | .validate index pc | .region _ _ (.check index pc) => index < n ∧ pc.Ok
  | .invalidate _ (.swap index _) | .invalidate _ (.count index) => index < n
  | _ => True

/-- What an action does to the state words, the counter, and what its operation owes. -/
inductive Effect (n : ℕ) (s : Shared) (op : Op) : Shared → Op → Prop
  | none {op' : Op} (hs : op'.subtracts = op.subtracts) (ha : op'.adding = op.adding) :
      Effect n s op s op'
  | keep {op' : Op} {e : ℕ} {w : BitVec 32} (he : e < n) (h : ¬Valid s e) (hw : status w ≠ valid)
      (hs : op'.subtracts = op.subtracts) (ha : op'.adding = op.adding) :
      Effect n s op (s.setState e w) op'
  | validate {op' : Op} {e : ℕ} {w : BitVec 32} (he : e < n) (h : ¬Valid s e)
      (hw : status w = valid) (hs : op.subtracts = false) (hs' : op'.subtracts = true)
      (ha : op'.adding = op.adding) : Effect n s op (s.setState e w) op'
  | invalidate {op' : Op} {e : ℕ} {w : BitVec 32} (he : e < n) (h : Valid s e)
      (hw : status w ≠ valid) (hs : op'.subtracts = op.subtracts) (ha : op.adding = none)
      (ha' : op'.adding = some e) : Effect n s op (s.setState e w) op'
  | subtract {op' : Op} (hs : op.subtracts = true) (hs' : op'.subtracts = false)
      (ha : op'.adding = op.adding) : Effect n s op { s with unavailable := s.unavailable - 1 } op'
  | add {op' : Op} {e : ℕ} (hs : op'.subtracts = op.subtracts) (ha : op.adding = some e)
      (ha' : op'.adding = Option.none) :
      Effect n s op { s with unavailable := s.unavailable + 1 } op'

variable (M : Module)

theorem afterLoad_ok (index : ℕ) (w : BitVec 32) : (afterLoad M index w).Ok := by
  rw [afterLoad]
  split
  · trivial
  · split
    · trivial
    · split <;> assumption

theorem afterLoad_ne_count (index : ℕ) (w : BitVec 32) : afterLoad M index w ≠ .count := by
  rw [afterLoad]
  split
  · exact fun h => nomatch h
  · split
    · exact fun h => nomatch h
    · split <;> exact fun h => nomatch h

theorem vact_ok {index : ℕ} {s s' : Shared} {pc pc' : VPc} (h : VAct M index s pc s' pc')
    (hpc : pc.Ok) : pc'.Ok := by
  cases h with
  | load => exact afterLoad_ok M _ _
  | byte => exact hpc
  | hashed => exact hpc
  | publish => split <;> trivial
  | retry => exact afterLoad_ok M _ _
  | count => trivial

/-- The operation of a validator, alone or inside `region_available`. -/
def Op.Validates (index : ℕ) (pc : VPc) (op : Op) : Prop :=
  op = .validate index pc ∨ ∃ start endAddr, op = .region start endAddr (.check index pc)

theorem validates_subtracts {index : ℕ} {pc : VPc} {op : Op} (h : op.Validates index pc) :
    (op.subtracts = true ↔ pc = .count) ∧ op.adding = none := by
  rcases h with rfl | ⟨start,endAddr,rfl⟩ <;> cases pc <;> simp [Op.subtracts,Op.adding]

theorem vact_effect {index n : ℕ} {s s' : Shared} {pc pc' : VPc} {op op' : Op}
    (h : VAct M index s pc s' pc') (hop : op.Validates index pc) (hop' : op'.Validates index pc')
    (hi : index < n) (hpc : pc.Ok) : Effect n s op s' op' := by
  obtain ⟨hs,ha⟩ := validates_subtracts hop
  obtain ⟨hs',ha'⟩ := validates_subtracts hop'
  have hadd : op'.adding = op.adding := ha'.trans ha.symm
  cases h with
  | load =>
    have := afterLoad_ne_count M index (s.state index)
    exact .none (by rw [Bool.eq_iff_iff,hs,hs']; simp [this]) hadd
  | byte => exact .none (by rw [Bool.eq_iff_iff,hs,hs']; simp) hadd
  | hashed => exact .none (by rw [Bool.eq_iff_iff,hs,hs']; simp) hadd
  | @publish observed isMatch hword =>
    have hinv : ¬Valid s index := by
      rw [Valid,hword]
      exact hpc
    cases isMatch with
    | false =>
      exact .keep hi hinv (by simp [valid,changed]) (by rw [Bool.eq_iff_iff,hs,hs']; simp) hadd
    | true =>
      refine .validate hi hinv (by simp) ?_ (hs'.2 rfl) hadd
      rw [← Bool.not_eq_true,hs]
      simp
  | retry =>
    have := afterLoad_ne_count M index (s.state index)
    exact .none (by rw [Bool.eq_iff_iff,hs,hs']; simp [this]) hadd
  | count =>
    refine .subtract (hs.2 rfl) ?_ hadd
    rw [← Bool.not_eq_true,hs']
    simp

theorem getElem?_lt {i : ℕ} {r : NativeRange} (h : M.table.ranges[i]? = some r) :
    i < M.table.ranges.length := (List.getElem?_eq_some_iff.1 h).1

/-- Every action of an operation on the table is one of the effects and keeps to the table. -/
theorem act_effect {s s' : Shared} {op op' : Op} (h : Act M s op s' op')
    (hop : op.Ok M.table.ranges.length) :
    Effect M.table.ranges.length s op s' op' ∧ op'.Ok M.table.ranges.length := by
  cases h with
  | validate h => exact ⟨vact_effect M h (.inl rfl) (.inl rfl) hop.1 hop.2,hop.1,vact_ok M h hop.2⟩
  | invalidate h =>
    cases h with
    | load hr _ => exact ⟨.none rfl rfl,getElem?_lt M hr⟩
    | stop => exact ⟨.none rfl rfl,trivial⟩
    | @swap index observed hword =>
      have hw : status (invalidated observed) ≠ valid := by
        rw [status_invalidated]
        decide
      by_cases hv : status observed = valid
      · rw [if_pos hv]
        exact ⟨.invalidate hop (by rw [Valid,hword]; exact hv) hw rfl rfl rfl,hop⟩
      · rw [if_neg hv]
        exact ⟨.keep hop (by rw [Valid,hword]; exact hv) hw rfl rfl,trivial⟩
    | retry => exact ⟨.none rfl rfl,hop⟩
    | count => exact ⟨.add rfl rfl rfl,trivial⟩
  | region h =>
    cases h with
    | zero => exact ⟨.none rfl rfl,trivial⟩
    | nonzero => exact ⟨.none rfl rfl,trivial⟩
    | miss => exact ⟨.none rfl rfl,trivial⟩
    | found => exact ⟨.none rfl rfl,trivial⟩
    | check hr _ => exact ⟨.none rfl rfl,getElem?_lt M hr,trivial⟩
    | all => exact ⟨.none rfl rfl,trivial⟩
    | step h =>
      exact ⟨vact_effect M h (.inr ⟨_,_,rfl⟩) (.inr ⟨_,_,rfl⟩) hop.1 hop.2,hop.1,vact_ok M h hop.2⟩
    | next => exact ⟨.none rfl rfl,trivial⟩
    | fail => exact ⟨.none rfl rfl,trivial⟩

/-- The ranges that are not valid. -/
def bad (n : ℕ) (s : Shared) : Finset ℕ := (Finset.range n).filter fun e => ¬Valid s e

theorem mem_bad {n : ℕ} {s : Shared} {e : ℕ} : e ∈ bad n s ↔ e < n ∧ ¬Valid s e := by
  simp [bad]

theorem valid_setState {s : Shared} {e i : ℕ} {w : BitVec 32} :
    Valid (s.setState e w) i ↔ if i = e then status w = valid else Valid s i := by
  show status (Function.update s.state e w i) = valid ↔ _
  rw [Function.update_apply]
  split <;> rfl

theorem bad_setState_valid {n : ℕ} {s : Shared} {e : ℕ} {w : BitVec 32} (hw : status w = valid) :
    bad n (s.setState e w) = (bad n s).erase e := by
  ext i
  rw [Finset.mem_erase,mem_bad,mem_bad,valid_setState]
  by_cases hi : i = e <;> simp [hi,hw]

theorem bad_setState_invalid {n : ℕ} {s : Shared} {e : ℕ} {w : BitVec 32} (he : e < n)
    (hw : status w ≠ valid) : bad n (s.setState e w) = insert e (bad n s) := by
  ext i
  rw [Finset.mem_insert,mem_bad,mem_bad,valid_setState]
  by_cases hi : i = e <;> simp [hi,hw,he]

def subs (c : Config Shared Op) : ℕ := c.ops.countP Op.subtracts
def adds (c : Config Shared Op) : ℕ := c.ops.countP fun op => op.adding.isSome

/-- The counter, up to the counts that are still owed. -/
structure Counted (c : Config Shared Op) : Prop where
  ok : ∀ op ∈ c.ops, op.Ok M.table.ranges.length
  counter : c.shared.unavailable + BitVec.ofNat 32 (adds c) =
    BitVec.ofNat 32 ((bad M.table.ranges.length c.shared).card + subs c)

theorem finished_owes {op : Op} (h : op.finished = true) :
    op.subtracts = false ∧ op.adding = none := by
  rcases op with ⟨_,_ | _ | _ | _ | _⟩ | ⟨_,_ | _ | _ | _⟩ | ⟨_,_,_ | _ | _ | _ | _⟩ <;>
    first | exact ⟨rfl,rfl⟩ | cases h

theorem call_owes {op : Op} (h : Call M op) :
    op.subtracts = false ∧ op.adding = none ∧ op.Ok M.table.ranges.length := by
  cases h with
  | validate h => exact ⟨rfl,rfl,h,trivial⟩
  | invalidate => exact ⟨rfl,rfl,trivial⟩
  | region => exact ⟨rfl,rfl,trivial⟩

/-- With no operation in flight nothing is owed. -/
theorem idle_owes {c : Config Shared Op} (h : ∀ op ∈ c.ops, op.finished = true) :
    subs c = 0 ∧ adds c = 0 := by
  constructor
  · refine List.countP_eq_zero.2 fun op hop => ?_
    rw [(finished_owes (h op hop)).1]
    exact Bool.false_ne_true
  · refine List.countP_eq_zero.2 fun op hop => ?_
    rw [(finished_owes (h op hop)).2]
    exact Bool.false_ne_true

theorem not_valid_reset (s : Shared) (e : ℕ) : ¬Valid (reset M s) e := by
  show ¬status dirty = valid
  decide

theorem bad_reset (n : ℕ) (s : Shared) : (bad n (reset M s)).card = n := by
  have h : bad n (reset M s) = Finset.range n :=
    Finset.filter_true_of_mem fun e _ => not_valid_reset M s e
  rw [h,Finset.card_range]

theorem counted_initial (mem : Memory → ℕ → BitVec 8) : Counted M (initial M mem) := by
  refine ⟨fun _ h => (nomatch h),?_⟩
  show BitVec.ofNat 32 _ + BitVec.ofNat 32 0 = BitVec.ofNat 32 ((bad _ (reset M _)).card + 0)
  rw [bad_reset]
  simp

theorem effect_counter {n : ℕ} {s s' : Shared} {op op' : Op} {k : ℕ} {ops : List Op}
    (hk : ops[k]? = some op) (h : Effect n s op s' op')
    (hc : s.unavailable + BitVec.ofNat 32 (adds ⟨s,ops⟩) =
      BitVec.ofNat 32 ((bad n s).card + subs ⟨s,ops⟩)) :
    s'.unavailable + BitVec.ofNat 32 (adds ⟨s',ops.set k op'⟩) =
      BitVec.ofNat 32 ((bad n s').card + subs ⟨s',ops.set k op'⟩) := by
  have hsub := countP_set_add Op.subtracts op' hk
  have hadd := countP_set_add (fun op => op.adding.isSome) op' hk
  rw [adds,subs] at hc ⊢
  dsimp only at hc hadd ⊢
  generalize ops.countP Op.subtracts = a at *
  generalize (ops.set k op').countP Op.subtracts = a' at *
  generalize ops.countP (fun op => op.adding.isSome) = b at *
  generalize (ops.set k op').countP (fun op => op.adding.isSome) = b' at *
  cases h with
  | none hs ha =>
    rw [hs] at hsub
    rw [ha] at hadd
    rwa [Nat.add_right_cancel hsub,Nat.add_right_cancel hadd]
  | keep he hv hw hs ha =>
    rw [hs] at hsub
    rw [ha] at hadd
    rw [Nat.add_right_cancel hsub,Nat.add_right_cancel hadd,bad_setState_invalid he hw,
      Finset.insert_eq_of_mem (mem_bad.2 ⟨he,hv⟩)]
    exact hc
  | @validate _ e _ he hv hw hs hs' ha =>
    rw [hs,hs'] at hsub
    rw [ha] at hadd
    have hmem := mem_bad.2 ⟨he,hv⟩
    have hcard := Finset.card_erase_add_one hmem
    rw [Nat.add_right_cancel hadd,bad_setState_valid hw,
      show ((bad n s).erase e).card + a' = (bad n s).card + a by simp at hsub; omega]
    exact hc
  | @invalidate _ e _ he hv hw hs ha ha' =>
    rw [hs] at hsub
    rw [ha,ha'] at hadd
    have hmem : e ∉ bad n s := fun h => (mem_bad.1 h).2 hv
    have hb : b' = b + 1 := by simpa using hadd
    rw [Nat.add_right_cancel hsub,hb,bad_setState_invalid he hw,Finset.card_insert_of_notMem hmem,
      Nat.add_right_comm,BitVec.ofNat_add,BitVec.ofNat_add,← hc,BitVec.add_assoc]
    rfl
  | subtract hs hs' ha =>
    rw [hs,hs'] at hsub
    rw [ha] at hadd
    have ha' : a = a' + 1 := by simpa using hsub.symm
    rw [ha',← Nat.add_assoc,BitVec.ofNat_add] at hc
    rw [Nat.add_right_cancel hadd]
    show s.unavailable - 1#32 + _ = BitVec.ofNat 32 ((bad n s).card + a')
    change _ = _ + 1#32 at hc
    rw [BitVec.sub_add_comm,hc,BitVec.add_sub_cancel]
  | add hs ha ha' =>
    rw [hs] at hsub
    rw [ha,ha'] at hadd
    have hb : b = b' + 1 := by simpa using hadd.symm
    rw [hb,BitVec.ofNat_add] at hc
    rw [Nat.add_right_cancel hsub]
    show s.unavailable + 1#32 + _ = BitVec.ofNat 32 ((bad n s).card + a)
    change _ + (_ + 1#32) = _ at hc
    rw [← hc,BitVec.add_assoc,BitVec.add_comm 1#32]

theorem counted_step {c c' : Config Shared Op} (hc : Counted M c) (h : Step (system M) c c') :
    Counted M c' := by
  cases h with
  | @act k op op' s' hk h =>
    obtain ⟨he,hok⟩ := act_effect M h (hc.ok op (mem_of_get hk))
    exact ⟨forall_set hc.ok hok,effect_counter hk he hc.counter⟩
  | env h =>
    cases h with
    | write => exact ⟨hc.ok,hc.counter⟩
    | reset h =>
      obtain ⟨hs,ha⟩ := idle_owes h
      refine ⟨hc.ok,?_⟩
      show BitVec.ofNat 32 _ + BitVec.ofNat 32 (adds c) =
        BitVec.ofNat 32 ((bad _ (reset M _)).card + subs c)
      rw [bad_reset,hs,ha]
      simp
  | @new op h =>
    obtain ⟨hs,ha,hok⟩ := call_owes M h
    refine ⟨forall_append hc.ok hok,?_⟩
    have hs' : subs ⟨c.shared,c.ops ++ [op]⟩ = subs c := by simp [subs,hs]
    have ha' : adds ⟨c.shared,c.ops ++ [op]⟩ = adds c := by simp [adds,ha]
    rw [hs',ha']
    exact hc.counter

theorem counted_run {mem : Memory → ℕ → BitVec 8} {c : Config Shared Op}
    (h : Run (system M) (initial M mem) c) : Counted M c :=
  h.invariant (fun _ _ hc hs => counted_step M hc hs) (counted_initial M mem)

/-- With no operation in flight the counter is the number of ranges that are not valid. -/
theorem counter_idle {c : Config Shared Op} (hc : Counted M c)
    (h : ∀ op ∈ c.ops, op.finished = true) :
    c.shared.unavailable.toNat = (bad M.table.ranges.length c.shared).card := by
  obtain ⟨hs,ha⟩ := idle_owes h
  have hcard : (bad M.table.ranges.length c.shared).card ≤ M.table.ranges.length := by
    have := Finset.card_filter_le (Finset.range M.table.ranges.length) fun e => ¬Valid c.shared e
    rwa [Finset.card_range] at this
  have hn := M.table.short
  have h := congrArg BitVec.toNat hc.counter
  rw [hs,ha] at h
  simp only [BitVec.add_zero,Nat.add_zero,BitVec.toNat_ofNat] at h
  rw [h,Nat.mod_eq_of_lt (by omega)]

end Validation

end DolRecomp
