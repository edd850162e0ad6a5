import Mathlib.Data.Fintype.Prod
import DolRecomp.AbiPropagation
import DolRecomp.Cpu
import DolRecomp.Lowering
import DolRecomp.Sweep

/-!
# The ABI of a single function

The slots a function reads before it writes them, may write and must write,
from the recorded effects of its instructions; and the paths of its native
code, on which the slots that must be written are compared.
-/

namespace DolRecomp

namespace AbiLiveness

abbrev BlockIndex (f : DolIRFunction) : Type := Fin f.blocks.length

variable (f : DolIRFunction)

def terminator (b : BlockIndex f) : DolIRTerminator := (f.blocks.get b).terminator

/-- The block of an index that is not `DOLIR_NO_BLOCK`. -/
def blockOf (target : ℕ) : Option (BlockIndex f) :=
  if h : target < f.blocks.length then some ⟨target,h⟩ else none

/-- The target fields that the analysis follows. -/
def targets (t : DolIRTerminator) : List ℕ :=
  match t.kind with
  | .condBranch | .indirect => t.target0.toList ++ t.target1.toList
  | .fallthrough | .branch => t.target0.toList
  | _ => []

/-- The block behind a linked branch. -/
def continuation (t : DolIRTerminator) : Option (BlockIndex f) :=
  let address := t.guestPc + 4
  if t.linked ∧ f.guestStart ≤ address ∧ address < f.guestEnd ∧
      (address - f.guestStart) &&& 3#32 = 0 then
    blockOf f ((address - f.guestStart).toNat / 4)
  else none

def successors (b : BlockIndex f) : List (BlockIndex f) :=
  let direct := (targets (terminator f b)).filterMap (blockOf f)
  match continuation f (terminator f b) with
  | some block => if block ∈ direct then direct else direct ++ [block]
  | none => direct

def predecessors (b : BlockIndex f) : List (BlockIndex f) :=
  (List.finRange _).filter fun p => b ∈ successors f p

def union (instructions : List DolIRInstruction) (mask : DolIRInstruction → StateMask) : StateMask :=
  instructions.foldr (fun i m => mask i ∪ m) ∅

/-- `blockDefs`. -/
def recorded (b : BlockIndex f) : StateMask := union (f.blocks.get b).instructions (·.stateDefs)

/-- The slots that every predecessor has defined; nothing at the entry. -/
def incoming (b : BlockIndex f) (out : BlockIndex f → StateMask) : StateMask :=
  if b.val ≠ 0 ∧ predecessors f b ≠ [] then
    (predecessors f b).foldr (fun p m => out p ∩ m) Finset.univ
  else ∅

/-- `definiteIn` and `definiteOut` of one block. -/
def transfer (b : BlockIndex f) (x : BlockIndex f → StateMask × StateMask) :
    StateMask × StateMask :=
  let mask := incoming f b fun p => (x p).2
  (mask,mask ∪ recorded f b)

theorem foldr_inter_mono {out out' : BlockIndex f → StateMask} (h : ∀ b, out b ⊆ out' b)
    (ps : List (BlockIndex f)) :
    ps.foldr (fun p m => out p ∩ m) Finset.univ ⊆ ps.foldr (fun p m => out' p ∩ m) Finset.univ := by
  induction ps with
  | nil => exact subset_rfl
  | cons p ps ih => exact Finset.inter_subset_inter (h p) ih

theorem transfer_monotone (b : BlockIndex f) : Monotone (transfer f b) := by
  intro x y h
  have hi : incoming f b (fun p => (x p).2) ⊆ incoming f b fun p => (y p).2 := by
    unfold incoming
    split
    · exact foldr_inter_mono f (fun p => (h p).2) _
    · exact subset_rfl
  exact ⟨hi,Finset.union_subset_union_left hi⟩

theorem rising_bot : Sweep.Rising (transfer f) fun _ => ⊥ := fun _ => bot_le

instance : Finite (StateMask × StateMask) := inferInstance

/-- The sweeps over `definiteIn` and `definiteOut`, from nothing. -/
def definite : BlockIndex f → StateMask × StateMask :=
  Sweep.solve (transfer_monotone f) (fun _ => ⊥) (rising_bot f)

/-- Blocks without a successor. -/
def exits : List (BlockIndex f) := (List.finRange _).filter fun b => successors f b = []

def mustDef : StateMask :=
  if exits f = [] then ∅ else (exits f).foldr (fun b m => (definite f b).2 ∩ m) Finset.univ

/-- Uses that nothing before them has defined. -/
def exposed : List DolIRInstruction → StateMask → StateMask
  | [], _ => ∅
  | i :: is, written => (i.stateUses \ written) ∪ exposed is (written ∪ i.stateDefs)

def semanticInput : StateMask :=
  (List.finRange _).foldr
    (fun b m => exposed (f.blocks.get b).instructions (definite f b).1 ∪ m) ∅

def mayDef : StateMask := (List.finRange _).foldr (fun b m => recorded f b ∪ m) ∅

def accessWidth (i : DolIRInstruction) : Option ℕ :=
  match i.op with
  | .guestLoad width _ => some width
  | .guestStore width => some width
  | _ => none

def nativeMemoryAccess (i : DolIRInstruction) (width : ℕ) : Bool :=
  let lower := i.addressLower &&& ~~~0x40000000#32
  let upper := i.addressUpper &&& ~~~0x40000000#32
  let within (base size : BitVec 32) : Bool :=
    width ≠ 0 ∧ width ≤ size.toNat ∧ base ≤ lower ∧ lower ≤ upper ∧
      (upper - base).toNat ≤ size.toNat - width
  match i.addressDomain with
  | .mem1 => within gcRamBase gcMainRamSize
  | .mem2 => within wiiMem2Base wiiMem2Size
  | _ => false

def nativeHelper : DolIRHelper → Bool
  | .memoryFence | .fpAvailable | .programException | .cacheControl | .timebaseRead
  | .timebaseWrite | .psqLoad | .psqStore | .exactFloat | .exactPaired => true
  | _ => false

/-- Whether an instruction keeps the function from a native ABI. -/
def blocks (i : DolIRInstruction) : Bool :=
  match accessWidth i, i.op with
  | some width, _ => !nativeMemoryAccess i width
  | none, .helperCall h => !nativeHelper h
  | none, _ => false

/-- `nativeABIFlags`: no blocker at all. -/
def nativeAbi : Bool :=
  f.blocks.all fun block =>
    block.cycleCost != 0 && !([.fallback,.systemCall,.rfi].contains block.terminator.kind) &&
      !block.instructions.any blocks

/-- `dolllvm_analyze_function_abi`. -/
def analyzeFunctionAbi (range : DolLLVMFunctionRange) : Option DolLLVMFunctionRange :=
  if f.guestStart = range.start ∧ f.guestEnd = range.endAddr then
    some
      { range with
        semanticInput := semanticInput f
        mayDef := mayDef f
        mustDef := mustDef f
        callsiteLiveAfter := ∅
        semanticOutput := ∅
        input := semanticInput f ∪ (mayDef f \ mustDef f)
        output := mayDef f
        escape := ∅
        native := nativeAbi f }
  else none

/-- What the emitted code of an instruction has stored when control goes on behind it. The
two guards store their slots on the way out only. -/
def stored (i : DolIRInstruction) : StateMask :=
  match i.op with
  | .helperCall .fpAvailable | .helperCall .programException => ∅
  | _ => i.stateDefs

def storedIn (b : BlockIndex f) : StateMask := union (f.blocks.get b).instructions stored

/-- `continuations_`: the blocks behind the linked branches. -/
def continuations : List (BlockIndex f) :=
  (List.finRange _).filterMap fun b => continuation f (terminator f b)

/-- Where the emitted terminator jumps inside the function. A taken indirect branch is
dispatched over the continuations, a serviced fallback goes on in the next block. -/
def jumps (b : BlockIndex f) : List (BlockIndex f) :=
  let t := terminator f b
  match t.kind with
  | .fallthrough | .branch => t.target0.toList.filterMap (blockOf f)
  | .condBranch => (t.target0.toList ++ t.target1.toList).filterMap (blockOf f)
  | .indirect => t.target1.toList.filterMap (blockOf f) ++ continuations f
  | .fallback => (blockOf f (b.val + 1)).toList
  | _ => []

/-- The first or second target of the terminator lies in another function. -/
def External (t : DolIRTerminator) (second : Bool) : Prop :=
  match t.kind with
  | .fallthrough | .branch => second = false ∧ t.target0 = none
  | .condBranch => if second then t.target1 = none else t.target0 = none
  | .indirect => second = true ∧ t.target1 = none
  | _ => False

/-- Paths from the entry to a block, with their steps, the last one first, and the slots that were
stored before it; `callee` is what the native result of a call fills in. -/
inductive Path (callee : BlockIndex f → Bool → StateMask) :
    List (BlockIndex f × BlockIndex f) → BlockIndex f → StateMask → Prop
  | entry (h : 0 < f.blocks.length) : Path callee [] ⟨0,h⟩ ∅
  | jump {es : List (BlockIndex f × BlockIndex f)} {b b' : BlockIndex f} {w : StateMask}
      (h : Path callee es b w) (hb : b' ∈ jumps f b) :
      Path callee ((b,b') :: es) b' (w ∪ storedIn f b)
  | call {es : List (BlockIndex f × BlockIndex f)} {b b' : BlockIndex f} {w : StateMask}
      {second : Bool} (h : Path callee es b w) (he : External (terminator f b) second)
      (hc : continuation f (terminator f b) = some b') :
      Path callee ((b,b') :: es) b' (w ∪ storedIn f b ∪ callee b second)

/-- Paths from the entry to a native return in a block. -/
inductive Returns (callee : BlockIndex f → Bool → StateMask) :
    List (BlockIndex f × BlockIndex f) → BlockIndex f → StateMask → Prop
  | direct {es : List (BlockIndex f × BlockIndex f)} {b : BlockIndex f} {w : StateMask}
      (h : Path f callee es b w)
      (hk : (terminator f b).kind = .indirect ∨ (terminator f b).kind = .return) :
      Returns callee es b (w ∪ storedIn f b)
  | tail {es : List (BlockIndex f × BlockIndex f)} {b : BlockIndex f} {w : StateMask}
      {second : Bool} (h : Path f callee es b w) (he : External (terminator f b) second)
      (hl : (terminator f b).linked = false) :
      Returns callee es b (w ∪ storedIn f b ∪ callee b second)

/-- The steps of a path go where the analysis looks: to a successor, or on from a block that has
none. The blocks that record the slot store it, not a guard alone. -/
structure Regular (slot : DolIRStateSlot) (es : List (BlockIndex f × BlockIndex f)) : Prop where
  steps : ∀ e ∈ es, e.2 ∈ successors f e.1 ∨ successors f e.1 = []
  stores : ∀ e ∈ es, slot ∈ recorded f e.1 → slot ∈ storedIn f e.1

/-- The analysis is certain of a slot: the block defines it, or all ways into the block do. -/
inductive Certain (slot : DolIRStateSlot) : BlockIndex f → Prop
  | here {b : BlockIndex f} (h : slot ∈ recorded f b) : Certain slot b
  | before {b : BlockIndex f} (h0 : b.val ≠ 0) (hp : ∃ p, b ∈ successors f p)
      (h : ∀ p, b ∈ successors f p → Certain slot p) : Certain slot b

/-- Certain at each of the blocks, at least one, that have no successor. -/
def CertainAtExits (slot : DolIRStateSlot) : Prop :=
  (∃ b, successors f b = []) ∧ ∀ b, successors f b = [] → Certain f slot b

variable {f}

@[simp] theorem mem_union {instructions : List DolIRInstruction}
    {mask : DolIRInstruction → StateMask} {slot : DolIRStateSlot} :
    slot ∈ union instructions mask ↔ ∃ i ∈ instructions, slot ∈ mask i := by
  induction instructions with
  | nil => simp [union]
  | cons i is ih =>
    rw [union,List.foldr_cons,Finset.mem_union,← union,ih]
    simp

theorem mem_foldr_inter {ι : Type*} {out : ι → StateMask} {slot : DolIRStateSlot} (ps : List ι) :
    slot ∈ ps.foldr (fun p m => out p ∩ m) Finset.univ ↔ ∀ p ∈ ps, slot ∈ out p := by
  induction ps with
  | nil => simp
  | cons p ps ih => simp [ih]

@[simp] theorem mem_predecessors {b p : BlockIndex f} :
    p ∈ predecessors f b ↔ b ∈ successors f p := by
  simp [predecessors]

theorem mem_incoming {b : BlockIndex f} {out : BlockIndex f → StateMask} {slot : DolIRStateSlot} :
    slot ∈ incoming f b out ↔
      b.val ≠ 0 ∧ (∃ p, b ∈ successors f p) ∧ ∀ p, b ∈ successors f p → slot ∈ out p := by
  have hne : predecessors f b ≠ [] ↔ ∃ p, b ∈ successors f p := by
    simp [List.eq_nil_iff_forall_not_mem]
  unfold incoming
  split
  case isTrue h =>
    rw [mem_foldr_inter]
    simp only [mem_predecessors]
    exact ⟨fun hs => ⟨h.1,hne.1 h.2,hs⟩,fun hs => hs.2.2⟩
  case isFalse h =>
    simp only [Finset.notMem_empty,false_iff]
    exact fun hs => h ⟨hs.1,hne.2 hs.2.1⟩

theorem definite_eq (b : BlockIndex f) : definite f b = transfer f b (definite f) :=
  (Sweep.solve_fixed (transfer_monotone f) _ (rising_bot f) b).symm

/-- The sweeps find the slots of which the analysis is certain. -/
theorem mem_definite {b : BlockIndex f} {slot : DolIRStateSlot} :
    slot ∈ (definite f b).2 ↔ Certain f slot b := by
  classical
  constructor
  · intro h
    let out : BlockIndex f → StateMask := fun b => Finset.univ.filter fun slot => Certain f slot b
    let y : BlockIndex f → StateMask × StateMask := fun b => (incoming f b out,out b)
    have hy (b : BlockIndex f) : transfer f b y ≤ y b := by
      refine Prod.mk_le_mk.2 ⟨le_rfl,fun s hs => ?_⟩
      refine Finset.mem_filter.2 ⟨Finset.mem_univ s,?_⟩
      rcases Finset.mem_union.1 hs with hs | hs
      · obtain ⟨h0,hp,hall⟩ := mem_incoming.1 hs
        exact .before h0 hp fun p hp => (Finset.mem_filter.1 (hall p hp)).2
      · exact .here hs
    have hle : definite f ≤ y := Sweep.solve_le _ hy _ (rising_bot f) fun _ => bot_le
    exact (Finset.mem_filter.1 ((hle b).2 h)).2
  · intro h
    induction h with
    | here h =>
      rw [definite_eq]
      exact Finset.mem_union_right _ h
    | before h0 hp _ ih =>
      rw [definite_eq]
      exact Finset.mem_union_left _ (mem_incoming.2 ⟨h0,hp,ih⟩)

theorem mem_mustDef {slot : DolIRStateSlot} : slot ∈ mustDef f ↔ CertainAtExits f slot := by
  have he (b : BlockIndex f) : b ∈ exits f ↔ successors f b = [] := by simp [exits]
  unfold mustDef
  split
  case isTrue h =>
    simp only [Finset.notMem_empty,false_iff]
    rintro ⟨⟨b,hb⟩,-⟩
    rw [← he,h] at hb
    exact List.not_mem_nil hb
  case isFalse h =>
    rw [mem_foldr_inter]
    simp only [he,mem_definite]
    refine ⟨fun hs => ⟨?_,hs⟩,fun hs => hs.2⟩
    obtain ⟨b,hb⟩ := List.exists_mem_of_ne_nil _ h
    exact ⟨b,(he b).1 hb⟩

section

variable {callee : BlockIndex f → Bool → StateMask} {slot : DolIRStateSlot}
  {es : List (BlockIndex f × BlockIndex f)} {b : BlockIndex f} {w : StateMask}

theorem Regular.tail {e : BlockIndex f × BlockIndex f} (h : Regular f slot (e :: es)) :
    Regular f slot es where
  steps e' he' := h.steps e' (List.mem_cons_of_mem e he')
  stores e' he' := h.stores e' (List.mem_cons_of_mem e he')

/-- A slot that is certain at the end of a block is stored on every regular path to there. -/
theorem stored_of_certain (hexits : CertainAtExits f slot) (h : Path f callee es b w)
    (hr : Regular f slot es) (hc : Certain f slot b)
    (hs : slot ∈ recorded f b → slot ∈ storedIn f b) : slot ∈ w ∪ storedIn f b := by
  have hbefore {e : BlockIndex f × BlockIndex f}
      (he : e.2 ∈ successors f e.1 ∨ successors f e.1 = [])
      (hall : ∀ p, e.2 ∈ successors f p → Certain f slot p) : Certain f slot e.1 :=
    he.elim (hall e.1) (hexits.2 e.1)
  induction h with
  | entry =>
    cases hc with
    | here h => exact Finset.mem_union_right _ (hs h)
    | before h => exact absurd rfl h
  | @jump _ b b' w _ _ ih =>
    cases hc with
    | here h => exact Finset.mem_union_right _ (hs h)
    | before _ _ hall =>
      have hprev := hbefore (hr.steps (b,b') List.mem_cons_self) hall
      exact Finset.mem_union_left _
        (ih hr.tail hprev (hr.stores (b,b') List.mem_cons_self))
  | @call _ b b' w _ _ _ _ ih =>
    cases hc with
    | here h => exact Finset.mem_union_right _ (hs h)
    | before _ _ hall =>
      have hprev := hbefore (hr.steps (b,b') List.mem_cons_self) hall
      exact Finset.mem_union_left _ (Finset.mem_union_left _
        (ih hr.tail hprev (hr.stores (b,b') List.mem_cons_self)))

/-- On a regular path to a return from a block without successors every slot that must be written
has been stored, and so has every output that is no input. -/
theorem must_def_sound {range range' : DolLLVMFunctionRange}
    (h : analyzeFunctionAbi f range = some range') (hret : Returns f callee es b w)
    (hexit : successors f b = []) (hr : Regular f slot es)
    (hs : slot ∈ recorded f b → slot ∈ storedIn f b) :
    (slot ∈ range'.mustDef → slot ∈ w) ∧
      (slot ∈ range'.output → slot ∉ range'.input → slot ∈ w) := by
  have hmust : slot ∈ mustDef f → slot ∈ w := fun hm => by
    have hexits := mem_mustDef.1 hm
    have hc := hexits.2 b hexit
    cases hret with
    | direct hp => exact stored_of_certain hexits hp hr hc hs
    | tail hp => exact Finset.mem_union_left _ (stored_of_certain hexits hp hr hc hs)
  unfold analyzeFunctionAbi at h
  split at h
  case isFalse => cases h
  case isTrue =>
    cases h
    refine ⟨hmust,fun ho hi => hmust ?_⟩
    by_contra hm
    exact hi (Finset.mem_union_right _ (Finset.mem_sdiff.2 ⟨ho,hm⟩))

end

open Builder

/-- Compare, return if equal, and otherwise set `gpr 4` before the return. -/
def earlyReturn : DolIRFunction :=
  buildFunction [ppcDecode 0x2C030000 0x80003100,ppcDecode 0x4D820020 0x80003104,
    ppcDecode 0x38800001 0x80003108,ppcDecode 0x4E800020 0x8000310C] 0x80003100

def earlyReturnRange : DolLLVMFunctionRange := { start := 0x80003100, endAddr := 0x80003110 }

theorem earlyReturn_certain : CertainAtExits earlyReturn (.gpr 4) := by
  have hexit : ∀ b, successors earlyReturn b = [] → b.val = 3 := by decide
  have hlast : ∀ p, ⟨3,by decide⟩ ∈ successors earlyReturn p → p.val = 2 := by decide
  refine ⟨⟨⟨3,by decide⟩,by decide⟩,fun b hb => ?_⟩
  obtain rfl : b = ⟨3,by decide⟩ := Fin.ext (hexit b hb)
  refine .before (by decide) ⟨⟨2,by decide⟩,by decide⟩ fun p hp => ?_
  obtain rfl : p = ⟨2,by decide⟩ := Fin.ext (hlast p hp)
  exact .here (by decide)

theorem earlyReturn_compares (callee : BlockIndex earlyReturn → Bool → StateMask) :
    Path earlyReturn callee [(⟨0,by decide⟩,⟨1,by decide⟩)] ⟨1,by decide⟩
      (∅ ∪ storedIn earlyReturn ⟨0,by decide⟩) :=
  .jump (.entry (by decide)) (by decide)

/-- The conditional return is reached before `gpr 4` is written. -/
theorem earlyReturn_skips (callee : BlockIndex earlyReturn → Bool → StateMask) :
    ∃ es b w, Returns earlyReturn callee es b w ∧ .gpr 4 ∉ w :=
  ⟨_,_,_,.direct (earlyReturn_compares callee) (.inl (by decide)),by decide⟩

theorem earlyReturn_analysis : analyzeFunctionAbi earlyReturn earlyReturnRange = some
    { earlyReturnRange with
      semanticInput := semanticInput earlyReturn
      mayDef := mayDef earlyReturn
      mustDef := mustDef earlyReturn
      input := semanticInput earlyReturn ∪ (mayDef earlyReturn \ mustDef earlyReturn)
      output := mayDef earlyReturn
      native := nativeAbi earlyReturn } := if_pos (by decide)

theorem must_def_unsound : ¬ ∀ callee range', analyzeFunctionAbi earlyReturn earlyReturnRange =
    some range' → ∀ es b w, Returns earlyReturn callee es b w → ∀ slot ∈ range'.mustDef,
      slot ∈ w := by
  intro h
  obtain ⟨es,b,w,hr,hn⟩ := earlyReturn_skips fun _ _ => ∅
  exact hn (h _ _ earlyReturn_analysis es b w hr _ (mem_mustDef.2 earlyReturn_certain))

theorem earlyReturn_goesOn (callee : BlockIndex earlyReturn → Bool → StateMask) :
    Path earlyReturn callee [(⟨2,by decide⟩,⟨3,by decide⟩),(⟨1,by decide⟩,⟨2,by decide⟩),
      (⟨0,by decide⟩,⟨1,by decide⟩)] ⟨3,by decide⟩
      (∅ ∪ storedIn earlyReturn ⟨0,by decide⟩ ∪ storedIn earlyReturn ⟨1,by decide⟩ ∪
        storedIn earlyReturn ⟨2,by decide⟩) :=
  .jump (.jump (earlyReturn_compares callee) (by decide)) (by decide)

/-- Past the conditional return `gpr 4` is written before the last one. -/
theorem must_def_sound_earlyReturn : .gpr 4 ∈ ∅ ∪ storedIn earlyReturn ⟨0,by decide⟩ ∪
    storedIn earlyReturn ⟨1,by decide⟩ ∪ storedIn earlyReturn ⟨2,by decide⟩ ∪
    storedIn earlyReturn ⟨3,by decide⟩ :=
  (must_def_sound earlyReturn_analysis
    (.direct (earlyReturn_goesOn fun _ _ => ∅) (.inl (by decide))) (by decide)
    ⟨by decide,by decide⟩ (by decide)).1 (mem_mustDef.2 earlyReturn_certain)

end AbiLiveness

end DolRecomp
