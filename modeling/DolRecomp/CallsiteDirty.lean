import DolRecomp.AbiLiveness

/-!
# What may be dirty in front of a call

A forward analysis collects the slots that a function may have written before
each of its blocks. The paths of the emitted code take jumps that it does not follow.
-/

namespace DolRecomp

namespace CallsiteDirty

open AbiLiveness

/-- The last range that starts at or before the address, else the first that has it. -/
def addressRange (ranges : List DolLLVMFunctionRange) (address : BitVec 32) :
    Option DolLLVMFunctionRange :=
  match (ranges.takeWhile fun r => r.start ≤ address).getLast? with
  | some r =>
    if address < r.endAddr then some r
    else ranges.find? fun r => r.start ≤ address && address < r.endAddr
  | none => ranges.find? fun r => r.start ≤ address && address < r.endAddr

def targetAddresses (t : DolIRTerminator) : List (BitVec 32) :=
  match t.kind with
  | .condBranch | .indirect => [t.targetAddress0,t.targetAddress1]
  | .fallthrough | .branch => [t.targetAddress0]
  | _ => []

/-- What a native callee at an address may have written; the function itself is no callee. -/
def calleeOutput (ranges : List DolLLVMFunctionRange) (start address : BitVec 32) : StateMask :=
  match addressRange ranges address with
  | some r => if r.start ≠ start ∧ r.native then r.output else ∅
  | none => ∅

variable (f : DolIRFunction) (ranges : List DolLLVMFunctionRange)

/-- `buildPostCallDefs`. -/
def postCallDefs (b : BlockIndex f) : StateMask :=
  if (terminator f b).linked then
    (targetAddresses (terminator f b)).foldr
      (fun address m => calleeOutput ranges f.guestStart address ∪ m) ∅
  else ∅

def incoming (b : BlockIndex f) (out : BlockIndex f → StateMask) : StateMask :=
  (predecessors f b).foldr (fun p m => out p ∪ m) ∅

/-- `dirtyIn` and `dirtyOut` of one block. -/
def transfer (b : BlockIndex f) (x : BlockIndex f → StateMask × StateMask) :
    StateMask × StateMask :=
  let mask := incoming f b fun p => (x p).2
  (mask,mask ∪ recorded f b ∪ postCallDefs f ranges b)

theorem foldr_union_mono {out out' : BlockIndex f → StateMask} (h : ∀ b, out b ⊆ out' b)
    (ps : List (BlockIndex f)) :
    ps.foldr (fun p m => out p ∪ m) ∅ ⊆ ps.foldr (fun p m => out' p ∪ m) ∅ := by
  induction ps with
  | nil => exact subset_rfl
  | cons p ps ih => exact Finset.union_subset_union (h p) ih

theorem transfer_monotone (b : BlockIndex f) : Monotone (transfer f ranges b) := by
  intro x y h
  have hi : incoming f b (fun p => (x p).2) ⊆ incoming f b fun p => (y p).2 :=
    foldr_union_mono f (fun p => (h p).2) _
  exact ⟨hi,Finset.union_subset_union_left (Finset.union_subset_union_left hi)⟩

theorem rising_bot : Sweep.Rising (transfer f ranges) fun _ => ⊥ := fun _ => bot_le

/-- The sweeps over `dirtyIn` and `dirtyOut`, from nothing. -/
def dirty : BlockIndex f → StateMask × StateMask :=
  Sweep.solve (transfer_monotone f ranges) (fun _ => ⊥) (rising_bot f ranges)

/-- `dolllvm_analyze_callsite_dirty`. -/
def mayDirtyBefore (b : BlockIndex f) : StateMask := (dirty f ranges b).1 ∪ recorded f b

/-- What the native result of a call through a target fills in. -/
def fills (b : BlockIndex f) (second : Bool) : StateMask :=
  calleeOutput ranges f.guestStart (if second then (terminator f b).targetAddress1
    else (terminator f b).targetAddress0)

/-- Runs from an entry to a block over the given jumps, with the slots written since then by the
body and by callees that have returned. -/
inductive Run (edge : BlockIndex f → BlockIndex f → Prop) : BlockIndex f → StateMask → Prop
  | entry (b : BlockIndex f) : Run edge b ∅
  | jump {b b' : BlockIndex f} {w : StateMask} (h : Run edge b w) (he : edge b b') :
      Run edge b' (w ∪ storedIn f b)
  | call {b b' : BlockIndex f} {w : StateMask} {second : Bool} (h : Run edge b w)
      (he : External (terminator f b) second)
      (hc : continuation f (terminator f b) = some b') :
      Run edge b' (w ∪ storedIn f b ∪ fills f ranges b second)

variable {f ranges}

theorem mem_incoming {b : BlockIndex f} {out : BlockIndex f → StateMask} {slot : DolIRStateSlot} :
    slot ∈ incoming f b out ↔ ∃ p, b ∈ successors f p ∧ slot ∈ out p := by
  have hmem : ∀ ps : List (BlockIndex f), slot ∈ ps.foldr (fun p m => out p ∪ m) ∅ ↔
      ∃ p ∈ ps, slot ∈ out p := fun ps => by
    induction ps with
    | nil => simp
    | cons p ps ih => rw [List.foldr_cons,Finset.mem_union,ih,List.exists_mem_cons_iff]
  rw [incoming,hmem]
  simp [predecessors]

end CallsiteDirty

end DolRecomp
