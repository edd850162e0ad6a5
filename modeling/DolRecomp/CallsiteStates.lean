import DolRecomp.CallsiteDirty
import DolRecomp.Liveness

/-!
# The state around a call

The slots that are live behind a block, that are defined in front of its
terminator on every way, and that may be dirty there. Each of the three analyses
sweeps over the blocks until nothing changes, liveness from the last block to the
first; each finds just the slots for which a path says so.
-/

namespace DolRecomp

namespace CallsiteStates

open AbiLiveness

variable (f : DolIRFunction) (functionOutputs : StateMask)

/-- The uses of a block in front of which the block does not define the slot. -/
def usesIn (b : BlockIndex f) : StateMask := exposed (f.blocks.get b).instructions ∅

def outgoing (b : BlockIndex f) (into : BlockIndex f → StateMask) : StateMask :=
  if successors f b = [] then functionOutputs
  else (successors f b).foldr (fun t m => into t ∪ m) ∅

/-- `liveIn` and `liveOut` of one block. -/
def transfer (b : BlockIndex f) (x : BlockIndex f → StateMask × StateMask) :
    StateMask × StateMask :=
  let mask := outgoing f functionOutputs b fun t => (x t).1
  (usesIn f b ∪ (mask \ recorded f b),mask)

def transferRev (b : BlockIndex f) (x : BlockIndex f → StateMask × StateMask) :
    StateMask × StateMask := transfer f functionOutputs b.rev fun t => x t.rev

theorem transferRev_monotone (b : BlockIndex f) : Monotone (transferRev f functionOutputs b) := by
  intro x y h
  have ho : outgoing f functionOutputs b.rev (fun t => (x t.rev).1) ⊆
      outgoing f functionOutputs b.rev fun t => (y t.rev).1 := by
    unfold outgoing
    split
    · exact subset_rfl
    · exact CallsiteDirty.foldr_union_mono f (fun t => (h t.rev).1) _
  exact ⟨Finset.union_subset_union_right (Finset.sdiff_subset_sdiff ho subset_rfl),ho⟩

theorem rising_bot : Sweep.Rising (transferRev f functionOutputs) fun _ => ⊥ := fun _ => bot_le

/-- The sweeps over `liveIn` and `liveOut`, each from the last block to the first. -/
def live (b : BlockIndex f) : StateMask × StateMask :=
  Sweep.solve (transferRev_monotone f functionOutputs) (fun _ => ⊥)
    (rising_bot f functionOutputs) b.rev

/-- What is live where a call returns to, or behind the block. -/
def liveAfter (b : BlockIndex f) : StateMask :=
  match continuation f (terminator f b) with
  | some block => (live f functionOutputs block).1
  | none => (live f functionOutputs b).2

def definedBefore (b : BlockIndex f) : StateMask := (definite f b).2

/-- `mayDirtyIn` and `mayDirtyOut` of one block; the slots filled in by calls may be missing. -/
def dirtyTransfer (postCallDefs : Option (BlockIndex f → StateMask)) (b : BlockIndex f)
    (x : BlockIndex f → StateMask × StateMask) : StateMask × StateMask :=
  let mask := CallsiteDirty.incoming f b fun p => (x p).2
  (mask,mask ∪ recorded f b ∪ postCallDefs.elim ∅ fun defs => defs b)

variable (postCallDefs : Option (BlockIndex f → StateMask))

theorem dirtyTransfer_monotone (b : BlockIndex f) :
    Monotone (dirtyTransfer f postCallDefs b) := by
  intro x y h
  have hi : CallsiteDirty.incoming f b (fun p => (x p).2) ⊆
      CallsiteDirty.incoming f b fun p => (y p).2 :=
    CallsiteDirty.foldr_union_mono f (fun p => (h p).2) _
  exact ⟨hi,Finset.union_subset_union_left (Finset.union_subset_union_left hi)⟩

theorem dirty_rising : Sweep.Rising (dirtyTransfer f postCallDefs) fun _ => ⊥ := fun _ => bot_le

def mayDirty : BlockIndex f → StateMask × StateMask :=
  Sweep.solve (dirtyTransfer_monotone f postCallDefs) (fun _ => ⊥) (dirty_rising f postCallDefs)

def mayDirtyBefore (b : BlockIndex f) : StateMask := (mayDirty f postCallDefs b).1 ∪ recorded f b

end CallsiteStates

/-- What `dolllvm_analyze_callsite_states` fills in for each block. -/
structure CallsiteState where
  liveAfter : StateMask
  definedBefore : StateMask
  mayDirtyBefore : StateMask
  deriving DecidableEq

/-- `dolllvm_analyze_callsite_states`. -/
def analyzeCallsiteStates (f : DolIRFunction) (functionOutputs : StateMask)
    (postCallDefs : Option (AbiLiveness.BlockIndex f → StateMask)) (b : AbiLiveness.BlockIndex f) :
    CallsiteState where
  liveAfter := CallsiteStates.liveAfter f functionOutputs b
  definedBefore := CallsiteStates.definedBefore f b
  mayDirtyBefore := CallsiteStates.mayDirtyBefore f postCallDefs b

namespace CallsiteStates

open AbiLiveness

/-- The blocks of a function with their uses, definitions and successors. -/
def graph (f : DolIRFunction) (functionOutputs : StateMask) :
    Liveness.Graph (BlockIndex f) DolIRStateSlot where
  uses b := usesIn f b
  defs b := recorded f b
  next b b' := b' ∈ successors f b
  outputs := functionOutputs

variable {f : DolIRFunction} {functionOutputs : StateMask}

theorem mem_foldr_union {into : BlockIndex f → StateMask} {slot : DolIRStateSlot}
    (ts : List (BlockIndex f)) :
    slot ∈ ts.foldr (fun t m => into t ∪ m) ∅ ↔ ∃ t ∈ ts, slot ∈ into t := by
  induction ts with
  | nil => simp
  | cons t ts ih => rw [List.foldr_cons,Finset.mem_union,ih,List.exists_mem_cons_iff]

theorem mem_outgoing {b : BlockIndex f} {into : BlockIndex f → StateMask}
    {slot : DolIRStateSlot} : slot ∈ outgoing f functionOutputs b into ↔
      (∃ b' ∈ successors f b, slot ∈ into b') ∨
        (∀ b', b' ∉ successors f b) ∧ slot ∈ functionOutputs := by
  unfold outgoing
  split
  case isTrue h => simp [h]
  case isFalse h =>
    rw [mem_foldr_union]
    refine ⟨.inl,fun hs => hs.elim id fun hs => absurd ?_ h⟩
    exact List.eq_nil_iff_forall_not_mem.mpr hs.1

theorem live_eq (b : BlockIndex f) : live f functionOutputs b =
    transfer f functionOutputs b (live f functionOutputs) := by
  have h := Sweep.solve_fixed (transferRev_monotone f functionOutputs) _
    (rising_bot f functionOutputs) b.rev
  rw [transferRev,Fin.rev_rev] at h
  exact h.symm

/-- A bound that the equations of the blocks respect bounds what the sweeps find. -/
theorem live_le {y : BlockIndex f → StateMask × StateMask}
    (hy : ∀ b, transfer f functionOutputs b y ≤ y b) (b : BlockIndex f) :
    live f functionOutputs b ≤ y b := by
  have h := Sweep.solve_le (transferRev_monotone f functionOutputs) (y := fun b => y b.rev)
    (fun b => by simpa only [transferRev,Fin.rev_rev] using hy b.rev) _
    (rising_bot f functionOutputs) (fun _ => bot_le) b.rev
  exact le_of_le_of_eq h (congrArg y (Fin.rev_rev b))

/-- The sweeps find the slots that are live in front of a block. -/
theorem mem_liveIn {b : BlockIndex f} {slot : DolIRStateSlot} :
    slot ∈ (live f functionOutputs b).1 ↔ (graph f functionOutputs).Live slot b := by
  classical
  constructor
  · intro h
    let into : BlockIndex f → StateMask := fun b =>
      Finset.univ.filter fun slot => (graph f functionOutputs).Live slot b
    let y : BlockIndex f → StateMask × StateMask := fun b =>
      (into b,outgoing f functionOutputs b into)
    have hy (b : BlockIndex f) : transfer f functionOutputs b y ≤ y b := by
      refine Prod.mk_le_mk.2 ⟨fun s hs => ?_,le_rfl⟩
      refine Finset.mem_filter.2 ⟨Finset.mem_univ s,?_⟩
      rcases Finset.mem_union.1 hs with hs | hs
      · exact Liveness.Graph.Live.use hs
      · obtain ⟨ho,hd⟩ := Finset.mem_sdiff.1 hs
        obtain ⟨b',hb,hl⟩ | ⟨he,ho⟩ := mem_outgoing.1 ho
        · exact Liveness.Graph.Live.pass hd hb (Finset.mem_filter.1 hl).2
        · exact Liveness.Graph.Live.out hd he ho
    exact (Finset.mem_filter.1 ((live_le hy b).1 h)).2
  · intro h
    induction h with
    | use h =>
      rw [live_eq]
      exact Finset.mem_union_left _ h
    | pass h hn _ ih =>
      rw [live_eq]
      exact Finset.mem_union_right _ (Finset.mem_sdiff.2 ⟨mem_outgoing.2 (.inl ⟨_,hn,ih⟩),h⟩)
    | out h he ho =>
      rw [live_eq]
      exact Finset.mem_union_right _ (Finset.mem_sdiff.2 ⟨mem_outgoing.2 (.inr ⟨he,ho⟩),h⟩)

theorem coe_liveIn (b : BlockIndex f) :
    ((live f functionOutputs b).1 : Set DolIRStateSlot) = (graph f functionOutputs).liveIn b := by
  ext slot
  exact mem_liveIn

theorem coe_liveOut (b : BlockIndex f) :
    ((live f functionOutputs b).2 : Set DolIRStateSlot) = (graph f functionOutputs).liveOut b := by
  ext slot
  rw [live_eq]
  change slot ∈ outgoing f functionOutputs b _ ↔ _
  rw [mem_outgoing]
  simp only [mem_liveIn]
  rfl

theorem mem_liveAfter {b : BlockIndex f} {slot : DolIRStateSlot} :
    slot ∈ liveAfter f functionOutputs b ↔ match continuation f (terminator f b) with
      | some b' => (graph f functionOutputs).Live slot b'
      | none => slot ∈ (graph f functionOutputs).liveOut b := by
  unfold liveAfter
  split
  · exact mem_liveIn
  · exact Set.ext_iff.1 (coe_liveOut b) slot

section

variable {postCallDefs : Option (BlockIndex f → StateMask)}

def Writes (postCallDefs : Option (BlockIndex f → StateMask)) (slot : DolIRStateSlot)
    (b : BlockIndex f) : Prop :=
  slot ∈ recorded f b ∨ ∃ defs ∈ postCallDefs, slot ∈ defs b

def Follows (b b' : BlockIndex f) : Prop := b' ∈ successors f b

theorem mayDirty_eq (b : BlockIndex f) :
    mayDirty f postCallDefs b = dirtyTransfer f postCallDefs b (mayDirty f postCallDefs) :=
  (Sweep.solve_fixed (dirtyTransfer_monotone f postCallDefs) _ (dirty_rising f postCallDefs) b).symm

theorem mem_elim {slot : DolIRStateSlot} {b : BlockIndex f} :
    slot ∈ postCallDefs.elim ∅ (fun defs => defs b) ↔ ∃ defs ∈ postCallDefs, slot ∈ defs b := by
  cases postCallDefs <;> simp

/-- The sweeps find the slots that a block in front, on some way, writes. -/
theorem mem_mayDirty {b : BlockIndex f} {slot : DolIRStateSlot} :
    slot ∈ (mayDirty f postCallDefs b).1 ↔
      ∃ p, Relation.TransGen Follows p b ∧ Writes postCallDefs slot p := by
  classical
  constructor
  · intro h
    let into : BlockIndex f → StateMask := fun b => Finset.univ.filter fun slot =>
      ∃ p, Relation.TransGen Follows p b ∧ Writes postCallDefs slot p
    let y : BlockIndex f → StateMask × StateMask := fun b =>
      (into b,into b ∪ recorded f b ∪ postCallDefs.elim ∅ fun defs => defs b)
    have hinto (b : BlockIndex f) (s : DolIRStateSlot) : s ∈ into b ↔
        ∃ p, Relation.TransGen Follows p b ∧ Writes postCallDefs s p := by
      simp only [into,Finset.mem_filter,Finset.mem_univ,true_and]
    have hin (b : BlockIndex f) : CallsiteDirty.incoming f b (fun p => (y p).2) ⊆ into b := by
      intro s hs
      obtain ⟨p,hp,hs⟩ := CallsiteDirty.mem_incoming.1 hs
      simp only [y,Finset.mem_union,mem_elim] at hs
      rw [hinto]
      rcases hs with (hs | hs) | hs
      · obtain ⟨q,hq,hw⟩ := (hinto p s).1 hs
        exact ⟨q,hq.tail hp,hw⟩
      · exact ⟨p,.single hp,.inl hs⟩
      · exact ⟨p,.single hp,.inr hs⟩
    have hy (b : BlockIndex f) : dirtyTransfer f postCallDefs b y ≤ y b :=
      Prod.mk_le_mk.2 ⟨hin b,Finset.union_subset_union_left
        (Finset.union_subset_union_left (hin b))⟩
    have hle := Sweep.solve_le (dirtyTransfer_monotone f postCallDefs) hy _
      (dirty_rising f postCallDefs) (fun _ => bot_le) b
    exact (hinto b slot).1 (hle.1 h)
  · rintro ⟨p,hp,hw⟩
    have hout (q : BlockIndex f) : Writes postCallDefs slot q ∨
        slot ∈ (mayDirty f postCallDefs q).1 → slot ∈ (mayDirty f postCallDefs q).2 := by
      intro hq
      rw [mayDirty_eq] at hq ⊢
      simp only [dirtyTransfer,Finset.mem_union,mem_elim] at hq ⊢
      rcases hq with (hq | hq) | hq
      · exact .inl (.inr hq)
      · exact .inr hq
      · exact .inl (.inl hq)
    have hstep {q q' : BlockIndex f} (hq : q' ∈ successors f q)
        (hs : slot ∈ (mayDirty f postCallDefs q).2) : slot ∈ (mayDirty f postCallDefs q').1 := by
      rw [mayDirty_eq]
      exact CallsiteDirty.mem_incoming.2 ⟨q,hq,hs⟩
    induction hp with
    | single h => exact hstep h (hout p (.inl hw))
    | tail _ h ih => exact hstep h (hout _ (.inr ih))

end

/-- The three sets in front of and behind a terminator hold just the slots for which paths say so:
a slot that is used, or needed at an end, before it is defined; one that is defined on all ways;
one that is written on some way. -/
theorem analyzeCallsiteStates_exact (f : DolIRFunction) (functionOutputs : StateMask)
    (postCallDefs : Option (BlockIndex f → StateMask)) (b : BlockIndex f)
    (slot : DolIRStateSlot) :
    let state := analyzeCallsiteStates f functionOutputs postCallDefs b
    (slot ∈ state.liveAfter ↔ match continuation f (terminator f b) with
      | some b' => (graph f functionOutputs).Live slot b'
      | none => slot ∈ (graph f functionOutputs).liveOut b) ∧
    (slot ∈ state.definedBefore ↔ Certain f slot b) ∧
    (slot ∈ state.mayDirtyBefore ↔ slot ∈ recorded f b ∨
      ∃ p, Relation.TransGen Follows p b ∧ Writes postCallDefs slot p) := by
  refine ⟨mem_liveAfter,mem_definite,?_⟩
  change slot ∈ mayDirtyBefore f postCallDefs b ↔ _
  rw [mayDirtyBefore,Finset.mem_union,mem_mayDirty,or_comm]

end CallsiteStates
end DolRecomp
